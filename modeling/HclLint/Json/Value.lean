/-
# JSON values

Numbers are kept as they are written, members in their order. A string consists of
characters and of halves of surrogate pairs that stand alone, which escapes can spell
although no text holds them.
-/

namespace HclLint.Json

/-- A part of a string: a character, or half of a surrogate pair without its other half. -/
inductive StringItem where
  | char (c : Char)
  | surrogate (code : Nat)
  deriving DecidableEq, Repr

/-- A JSON value. -/
inductive Value where
  | null
  | bool (value : Bool)
  | number (text : String)
  | string (items : List StringItem)
  | array (items : List Value)
  | object (members : List (List StringItem × Value))

/-- The parts of a text. -/
def itemsOfText (text : String) : List StringItem := text.toList.map .char

/-- The characters of a string, if no half of a pair stands alone in it. -/
def characters? : List StringItem → Option (List Char)
  | [] => some []
  | .char c :: rest => (characters? rest).map (c :: ·)
  | .surrogate _ :: _ => none

/-- The text of a string, if it is one. -/
def text? (items : List StringItem) : Option String := (characters? items).map String.ofList

namespace Value

/-- The string of a text. -/
def ofText (text : String) : Value := .string (itemsOfText text)

/-- The number of a count. -/
def ofNat (n : Nat) : Value := .number (toString n)

/-- The object with members under texts. -/
def ofMembers (members : List (String × Value)) : Value :=
  .object (members.map fun (key, value) => (itemsOfText key, value))

end Value

theorem characters?_map_char (cs : List Char) : characters? (cs.map .char) = some cs := by
  induction cs with
  | nil => rfl
  | cons c cs ih => simp [characters?, ih]

/-- A text is read back from its parts. -/
theorem text?_itemsOfText (text : String) : text? (itemsOfText text) = some text := by
  simp [text?, itemsOfText, characters?_map_char]

end HclLint.Json
