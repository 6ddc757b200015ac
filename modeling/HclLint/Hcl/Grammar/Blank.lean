/-
# Blanks and comments between the words of a text

A comment from `#` or `//` goes to the end of its line, one from `/*` to the next `*/`.
Inside a line only spaces, tabs and the second kind of comment are blank; where line
breaks do not matter, they and the first kind are blank too.
-/

import HclLint.Hcl.Grammar.Parser

namespace HclLint.Hcl.Grammar

open HclLint.Hcl.Parser

/-- Whether a text starts with a line break, a line feed or a carriage return before one. -/
def startsLineBreak : List Char → Bool
  | '\n' :: _ => true
  | '\r' :: '\n' :: _ => true
  | _ => false

/-- A line break. -/
def lineBreak : Parser (List Char) := fun c =>
  match c.rest with
  | '\n' :: _ => .read ['\n'] (c.drop 1)
  | '\r' :: '\n' :: _ => .read ['\r', '\n'] (c.drop 2)
  | _ => .undone .unexpected

/-- The number of characters before the next line break. -/
def lineLength : List Char → Nat
  | [] => 0
  | x :: xs => if startsLineBreak (x :: xs) then 0 else lineLength xs + 1

/-- The number of characters through the next `*/`, if there is one. -/
def closingLength : List Char → Option Nat
  | [] => none
  | '*' :: '/' :: _ => some 2
  | _ :: xs => (closingLength xs).map (· + 1)

/-- A comment that goes to the end of its line. -/
def lineComment : Parser Unit := fun c =>
  match c.rest with
  | '#' :: xs => .read () (c.drop (1 + lineLength xs))
  | '/' :: '/' :: xs => .read () (c.drop (2 + lineLength xs))
  | _ => .undone .unexpected

/-- A comment inside a line. -/
def inlineComment : Parser Unit := fun c =>
  match c.rest with
  | '/' :: '*' :: xs =>
    match closingLength xs with
    | some n => .read () (c.drop (2 + n))
    | none => .undone .unexpected
  | _ => .undone .unexpected

/-- A space or a tab. -/
def isSpace (x : Char) : Bool := x == ' ' || x == '\t'

/-- One blank: with `breaks`, line breaks and comments up to them count as well. -/
def blank (breaks : Bool) : Parser Unit :=
  choice (do let _ ← satisfy fun x => isSpace x || (breaks && (x == '\r' || x == '\n')))
    (choice inlineComment (if breaks then lineComment else fail))

/-- Skips blanks. -/
def skip (breaks : Bool) : Parser Unit := do
  let _ ← many (blank breaks)

/-- The cursor behind the blanks. -/
def afterBlanks (breaks : Bool) (c : Cursor) : Cursor :=
  match skip breaks c with
  | .read _ next => next
  | _ => c

end HclLint.Hcl.Grammar
