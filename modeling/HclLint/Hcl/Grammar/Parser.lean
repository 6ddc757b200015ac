/-
# Parsers with two ways to fail

A parser reads a value off the front of a text. It may also fail, and it does so in one of
two ways: an `undone` failure lets the nearest choice, option or repetition go on as if
nothing had been read, while a `final` failure stops the reading of the whole text at a
place.

## Main definitions

* `Cursor`, `Outcome`, `Parser`: the text to come, the result of reading, and parsers.
* `choice`, `optional`, `many`, `separated`: the places where an undone failure ends.
* `demand`: makes an undone failure final.
-/

import HclLint.Text.Source
import HclLint.Hcl.Complaint
import HclLint.Hcl.Expression

namespace HclLint.Hcl

open HclLint.Text

/-- The text still to be read and the byte offset where it starts. -/
structure Cursor where
  rest : List Char
  offset : Nat
  deriving DecidableEq, Repr, Inhabited

namespace Cursor

/-- The start of a text. -/
def ofText (text : List Char) : Cursor := ⟨text, 0⟩

/-- The cursor behind the first `count` characters. -/
def drop (c : Cursor) : Nat → Cursor
  | 0 => c
  | n + 1 =>
    match c.rest with
    | [] => c
    | x :: xs => drop ⟨xs, c.offset + x.utf8Size⟩ n

/-- The characters between this cursor and a later one. -/
def upTo (c later : Cursor) : List Char :=
  match splitAtByte (later.offset - c.offset) c.rest with
  | some (before, _) => before
  | none => c.rest

end Cursor

/-- The result of reading. -/
inductive Outcome (α : Type) where
  /-- A value, and where reading goes on. -/
  | read (value : α) (next : Cursor)
  /-- A failure that the nearest alternative makes good. -/
  | undone (complaint : Complaint)
  /-- A failure that nothing makes good, and the byte offset where it happened. -/
  | final (complaint : Complaint) (place : Nat)
  deriving Inhabited

/-- A reader of values off the front of a text. -/
def Parser (α : Type) : Type := Cursor → Outcome α

namespace Parser

variable {α β : Type}

/-- Reads nothing. -/
protected def pure (a : α) : Parser α := fun c => .read a c

/-- Reads with one parser, then with the next. -/
protected def bind (p : Parser α) (f : α → Parser β) : Parser β := fun c =>
  match p c with
  | .read a next => f a next
  | .undone complaint => .undone complaint
  | .final complaint place => .final complaint place

instance : Monad Parser where
  pure := Parser.pure
  bind := Parser.bind

@[simp]
theorem pure_apply (a : α) (c : Cursor) : (Pure.pure a : Parser α) c = .read a c := rfl

/-- Two parsers in a row fail where one of them does. -/
@[simp]
theorem bind_apply (p : Parser α) (f : α → Parser β) (c : Cursor) :
    (p >>= f) c = match p c with
      | .read a next => f a next
      | .undone complaint => .undone complaint
      | .final complaint place => .final complaint place := rfl

/-- Fails so that an alternative may be tried. -/
def fail : Parser α := fun _ => .undone .unexpected

/-- Fails for good, here. -/
def stop (complaint : Complaint) : Parser α := fun c => .final complaint c.offset

/-- The second parser, where the first is undone. -/
def choice (p q : Parser α) : Parser α := fun c =>
  match p c with
  | .undone _ => q c
  | outcome => outcome

/-- A value or, where the parser is undone, none. -/
def optional (p : Parser α) : Parser (Option α) := fun c =>
  match p c with
  | .read a next => .read (some a) next
  | .undone _ => .read none c
  | .final complaint place => .final complaint place

/-- Makes an undone failure final at the place where the parser started. -/
def demand (complaint : Complaint) (p : Parser α) : Parser α := fun c =>
  match p c with
  | .undone _ => .final complaint c.offset
  | outcome => outcome

/-- Reads with `p` as often as it can, at most once for every character of `limit`. -/
def manyUpTo (p : Parser α) : List Char → Parser (List α)
  | [], c => .read [] c
  | _ :: limit, c =>
    match p c with
    | .read a next =>
      match manyUpTo p limit next with
      | .read as last => .read (a :: as) last
      | .undone complaint => .undone complaint
      | .final complaint place => .final complaint place
    | .undone _ => .read [] c
    | .final complaint place => .final complaint place

/-- Reads with `p` until it is undone. Every reading takes at least one character, so the
text to come bounds their number. -/
def many (p : Parser α) : Parser (List α) := fun c => manyUpTo p c.rest c

/-- Like `many`, but undone where not even one value is read. -/
def many1 (p : Parser α) : Parser (List α) := do
  let a ← p
  let as ← many p
  return a :: as

/-- One character that satisfies a test. -/
def satisfy (test : Char → Bool) : Parser Char := fun c =>
  match c.rest with
  | x :: xs => if test x then .read x ⟨xs, c.offset + x.utf8Size⟩ else .undone .unexpected
  | [] => .undone .unexpected

/-- The given character. -/
def char (x : Char) : Parser Char := satisfy (· == x)

/-- The given characters, one after the other. -/
def word (w : List Char) : Parser Unit := fun c =>
  if w.isPrefixOf c.rest then .read () (c.drop w.length) else .undone .unexpected

/-- The given word of the grammar, which must stand here. -/
def demandWord (w : String) : Parser Unit := demand (.wanted w) (word w.toList)

/-- Undone where the text goes on with a character that satisfies the test. -/
def notAhead (test : Char → Bool) : Parser Unit := fun c =>
  match c.rest with
  | x :: _ => if test x then .undone .unexpected else .read () c
  | [] => .read () c

/-- Values with a comma between any two of them, undone without any. Where no value follows
a comma, the comma is left for what comes next. -/
def separated1 (p : Parser α) : Parser (List α) := do
  let a ← p
  let as ← many (do let _ ← char ','; p)
  return a :: as

/-- Values, possibly none, with a comma between any two of them. -/
def separated (p : Parser α) : Parser (List α) := choice (separated1 p) (Pure.pure [])

end Parser

end HclLint.Hcl
