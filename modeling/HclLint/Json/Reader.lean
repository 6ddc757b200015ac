/-
# Reading JSON

A document is one value with white space around it. Nothing beyond the grammar is taken:
no comma at the end, no bare names, no control characters in strings.

## Main definitions

* `readString`: the rest of a string behind its opening quote.
* `skipNumber`: the rest behind a number.
* `readValue`: a value at the start of a text.
* `read?`: a whole document.
-/

import HclLint.Json.Value
import HclLint.Text.Hex

namespace HclLint.Json

open HclLint.Text (hexNumber?)

/-- White space between tokens. -/
def isBlank (c : Char) : Bool := c == ' ' || c == '\n' || c == '\t' || c == '\r'

/-- A text without its leading white space. -/
def skipBlanks (cs : List Char) : List Char := cs.dropWhile isBlank

/-- What an escaped code unit contributes to a string. -/
def itemOfUnit (code : Nat) : StringItem :=
  if 0xD800 ≤ code ∧ code < 0xE000 then .surrogate code else .char (Char.ofNat code)

/-- Joins the halves of surrogate pairs. -/
def joinSurrogates : List StringItem → List StringItem
  | .surrogate high :: .surrogate low :: rest =>
    if high < 0xDC00 ∧ 0xDC00 ≤ low then
      .char (Char.ofNat (0x10000 + (high - 0xD800) * 0x400 + (low - 0xDC00))) ::
        joinSurrogates rest
    else .surrogate high :: joinSurrogates (.surrogate low :: rest)
  | item :: rest => item :: joinSurrogates rest
  | [] => []

/-- What a letter behind a backslash stands for. -/
def escaped? : Char → Option Char
  | '"' => some '"'
  | '\\' => some '\\'
  | '/' => some '/'
  | 'b' => some '\x08'
  | 'f' => some '\x0c'
  | 'n' => some '\n'
  | 'r' => some '\r'
  | 't' => some '\t'
  | _ => none

/-- The code units of a string up to its closing quote, and what follows. -/
def readUnits : List Char → Option (List StringItem × List Char)
  | [] => none
  | '"' :: rest => some ([], rest)
  | '\\' :: 'u' :: a :: b :: c :: d :: rest => do
    let code ← hexNumber? 0 4 [a, b, c, d]
    let (items, after) ← readUnits rest
    return (itemOfUnit code :: items, after)
  | '\\' :: letter :: rest => do
    let c ← escaped? letter
    let (items, after) ← readUnits rest
    return (.char c :: items, after)
  | c :: rest =>
    if c.toNat < 0x20 || c == '\\' then none
    else (readUnits rest).map fun (items, after) => (.char c :: items, after)

/-- A string behind its opening quote, and what follows. -/
def readString (cs : List Char) : Option (List StringItem × List Char) :=
  (readUnits cs).map fun (units, after) => (joinSurrogates units, after)

/-- Skips at least one digit. -/
def skipDigits : List Char → Option (List Char)
  | c :: rest => if c.isDigit then some (rest.dropWhile Char.isDigit) else none
  | [] => none

/-- Skips the digits before the point, of which the first is zero only if it is alone. -/
def skipWhole : List Char → Option (List Char)
  | '0' :: rest => if (rest.head?.map Char.isDigit).getD false then none else some rest
  | cs => skipDigits cs

/-- Skips a fraction, if there is one. -/
def skipFraction : List Char → Option (List Char)
  | '.' :: rest => skipDigits rest
  | cs => some cs

/-- Skips an exponent, if there is one. -/
def skipExponent : List Char → Option (List Char)
  | 'e' :: '+' :: rest | 'e' :: '-' :: rest | 'E' :: '+' :: rest | 'E' :: '-' :: rest
  | 'e' :: rest | 'E' :: rest => skipDigits rest
  | cs => some cs

/-- Skips a number. -/
def skipNumber (cs : List Char) : Option (List Char) :=
  let unsigned := match cs with
    | '-' :: rest => rest
    | cs => cs
  skipWhole unsigned >>= skipFraction >>= skipExponent

/-- A number and what follows it. -/
def readNumber (cs : List Char) : Option (Value × List Char) :=
  (skipNumber cs).map fun after =>
    (.number (String.ofList (cs.take (cs.length - after.length))), after)

mutual

/-- A value and what follows it. Values nest to the given depth. -/
def readValue : Nat → List Char → Option (Value × List Char)
  | 0, _ => none
  | depth + 1, cs =>
    match cs with
    | 'n' :: 'u' :: 'l' :: 'l' :: rest => some (.null, rest)
    | 't' :: 'r' :: 'u' :: 'e' :: rest => some (.bool true, rest)
    | 'f' :: 'a' :: 'l' :: 's' :: 'e' :: rest => some (.bool false, rest)
    | '"' :: rest => (readString rest).map fun (items, after) => (.string items, after)
    | '[' :: rest =>
      match skipBlanks rest with
      | ']' :: after => some (.array [], after)
      | first => (readItems depth first).map fun (items, after) => (.array items, after)
    | '\x7b' :: rest =>
      match skipBlanks rest with
      | '\x7d' :: after => some (.object [], after)
      | first => (readMembers depth first).map fun (members, after) => (.object members, after)
    | cs => readNumber cs

/-- The items of an array through its closing bracket, and what follows. -/
def readItems : Nat → List Char → Option (List Value × List Char)
  | 0, _ => none
  | depth + 1, cs => do
    let (item, after) ← readValue depth cs
    match skipBlanks after with
    | ',' :: rest =>
      let (items, after) ← readItems depth (skipBlanks rest)
      return (item :: items, after)
    | ']' :: rest => return ([item], rest)
    | _ => none

/-- The members of an object through its closing brace, and what follows. -/
def readMembers : Nat → List Char → Option (List (List StringItem × Value) × List Char)
  | 0, _ => none
  | depth + 1, '"' :: cs => do
    let (key, after) ← readString cs
    match skipBlanks after with
    | ':' :: rest =>
      let (value, after) ← readValue depth (skipBlanks rest)
      match skipBlanks after with
      | ',' :: rest =>
        let (members, after) ← readMembers depth (skipBlanks rest)
        return ((key, value) :: members, after)
      | '\x7d' :: rest => return ([(key, value)], rest)
      | _ => none
    | _ => none
  | _, _ => none

end

/-- The value of a document. Each step into a value consumes a character, so its length
bounds the depth. -/
def read? (text : String) : Option Value :=
  match readValue (text.toList.length + 1) (skipBlanks text.toList) with
  | some (value, after) => if (skipBlanks after).isEmpty then some value else none
  | none => none

end HclLint.Json
