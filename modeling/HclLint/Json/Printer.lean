/-
# Printing JSON

One item or member a line, indented by two blanks a level. Empty arrays and objects take no
line of their own.
-/

import HclLint.Json.Value
import HclLint.Text.Quoted

namespace HclLint.Json

open HclLint.Text

/-- A part of a string as it is written between quotes. -/
def writeItem : StringItem → List Char
  | .char c => escapeChar c
  | .surrogate code =>
    ['\\', 'u', hexDigit (code / 4096 % 16), hexDigit (code / 256 % 16), hexDigit (code / 16 % 16),
      hexDigit (code % 16)]

/-- A string between quotes. -/
def writeString (items : List StringItem) : String :=
  String.ofList ('"' :: items.flatMap writeItem ++ ['"'])

/-- The blanks in front of a line. -/
def indent (depth : Nat) : String := String.ofList (List.replicate (2 * depth) ' ')

/-- Lines between brackets, separated by commas, the closing bracket standing on a line of
its own. -/
def bracket (opening closing : String) (depth : Nat) : List String → String
  | [] => opening ++ closing
  | lines =>
    opening ++ "\n" ++ String.intercalate ",\n" (lines.map (indent (depth + 1) ++ ·)) ++ "\n" ++
      indent depth ++ closing

mutual

/-- A value as it is written where lines are indented to a depth. -/
def write (depth : Nat) : Value → String
  | .null => "null"
  | .bool value => if value then "true" else "false"
  | .number text => text
  | .string items => writeString items
  | .array items => bracket "[" "]" depth (writeItems (depth + 1) items)
  | .object members => bracket "\x7b" "\x7d" depth (writeMembers (depth + 1) members)

/-- Each item as it is written. -/
def writeItems (depth : Nat) : List Value → List String
  | [] => []
  | item :: rest => write depth item :: writeItems depth rest

/-- Each member as it is written. -/
def writeMembers (depth : Nat) : List (List StringItem × Value) → List String
  | [] => []
  | (key, value) :: rest =>
    (writeString key ++ ": " ++ write depth value) :: writeMembers depth rest

end

/-- A text between quotes is the string of that text. -/
theorem writeString_itemsOfText (text : String) :
    writeString (itemsOfText text) = quote text := by
  simp [writeString, itemsOfText, quote, escapeText, List.flatMap_map, writeItem]

end HclLint.Json
