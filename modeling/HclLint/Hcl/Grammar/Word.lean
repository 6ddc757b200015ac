/-
# Identifiers and numbers

The words of HCL that hold no other expression. A number with a fraction or an exponent is
read as a double and any other as a whole number of 64 bits. A literal whose double is
infinite falls back to its leading digits.
-/

import HclLint.Text.Identifier
import HclLint.Hcl.Grammar.Blank

namespace HclLint.Hcl.Grammar

open HclLint.Text HclLint.Hcl.Parser

/-- An identifier. -/
def identifier : Parser String := do
  let first ← satisfy isIdentifierStart
  let rest ← many (satisfy isIdentifierRest)
  return String.ofList (first :: rest)

/-- An identifier, which must stand here. -/
def demandIdentifier : Parser String := demand .identifier identifier

/-- One decimal digit or more. -/
def digits : Parser (List Char) := many1 (satisfy Char.isDigit)

/-- The number that decimal digits denote. -/
def digitsValue (ds : List Char) : Nat :=
  ds.foldl (fun n d => 10 * n + (d.toNat - '0'.toNat)) 0

/-- The exponent of a number. Its digits must follow the sign. -/
def exponent : Parser Int := do
  let _ ← satisfy fun x => x == 'e' || x == 'E'
  let sign ← optional (satisfy fun x => x == '+' || x == '-')
  let ds ← demand .digit digits
  return if sign == some '-' then -(digitsValue ds : Int) else digitsValue ds

/-- A fraction: the digits behind the point. -/
def fraction : Parser (List Char) := do
  let _ ← char '.'
  digits

/-- A number with a fraction, an exponent or both, unless its double is infinite. -/
def decimal : Parser Numeral := do
  let whole ← digits
  let (behind, scale) ← choice
    (do let behind ← fraction
        let scale ← optional exponent
        return (behind, scale.getD 0))
    (do let scale ← exponent
        return ([], scale))
  match Numeral.ofDecimal (digitsValue (whole ++ behind)) (scale - behind.length) with
  | some value => return value
  | none => fail

/-- A whole number that fits 64 bits. -/
def wholeNumber : Parser Numeral := do
  let ds ← digits
  if digitsValue ds < Numeral.wordLimit then return .ofNat (digitsValue ds)
  else fun _ => .undone .numeralTooLarge

/-- A number without a sign. -/
def number : Parser Numeral := choice decimal wholeNumber

/-- A number behind a minus sign. -/
def negativeNumber : Parser Numeral := do
  let _ ← char '-'
  skip false
  let value ← number
  return value.neg

/-- An index behind a dot: zero, or digits without a leading zero that fit 64 bits. -/
def legacyIndex : Parser Nat := fun c =>
  match c.rest with
  | '0' :: _ => .read 0 (c.drop 1)
  | _ =>
    match digits c with
    | .read ds next =>
      if digitsValue ds < Numeral.wordLimit then .read (digitsValue ds) next else .undone .unexpected
    | .undone complaint => .undone complaint
    | .final complaint place => .final complaint place

end HclLint.Hcl.Grammar
