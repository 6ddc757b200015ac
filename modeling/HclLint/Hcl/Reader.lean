/-
# Reading HCL

The two entries to the grammar: a whole file, and the text of a single expression. Either
must be read to its end.

## Main definitions

* `readExpr`: an expression from its text.
* `readBody`: the body of a file.
* `blamedAt`: the line and column that a complaint points to.
-/

import HclLint.Hcl.Grammar.Body

namespace HclLint.Hcl

open HclLint.Text Grammar

/-- A complaint and the byte offset where reading stopped. -/
structure Refusal where
  complaint : Complaint
  place : Nat
  deriving DecidableEq, Repr

/-- Reads a text to its end. -/
def readAll {α : Type} (p : Parser α) (text : List Char) : Except Refusal α :=
  match p (.ofText text) with
  | .read a next =>
    if next.rest.isEmpty then .ok a else .error ⟨.unexpected, next.offset⟩
  | .undone complaint => .error ⟨complaint, 0⟩
  | .final complaint place => .error ⟨complaint, place⟩

/-- The expression that a text consists of. -/
def readExpr (text : String) : Except Refusal Expr :=
  readAll ((levelOf (depthOf text.toList)).expr .line) text.toList

/-- The body that the text of a file consists of. -/
def readBody (text : String) : Except Refusal Body :=
  let depth := depthOf text.toList
  readAll (bodyOf ((levelOf depth).expr .line) depth) text.toList

/-! ## Blame -/

/-- The text before a byte offset, and whether the offset lies between two characters. The
text ends before a character that the offset divides. -/
def beforeByte : Nat → List Char → List Char × Bool
  | 0, _ => ([], true)
  | _ + 1, [] => ([], true)
  | n + 1, c :: cs =>
    if c.utf8Size ≤ n + 1 then
      let (before, whole) := beforeByte (n + 1 - c.utf8Size) cs
      (c :: before, whole)
    else ([], false)

/-- The characters behind the last line feed. -/
def lastLine (text : List Char) : List Char :=
  (text.reverse.takeWhile (· != '\n')).reverse

/-- The line and column that a refusal points to. The byte at the place, or the last byte of
the text where the place is its end, settles the line. The column counts the characters of
that line through the byte, or its bytes where it divides a character. -/
def blamedAt (text : String) (place : Nat) : Nat × Nat :=
  let cs := text.toList
  let last := min place (byteLength cs - 1)
  let (before, _) := beforeByte last cs
  let (through, whole) := beforeByte (last + 1) cs
  let line := 1 + before.count '\n'
  let lineStart := byteLength before - byteLength (lastLine before)
  let column := if whole then through.length - (before.length - (lastLine before).length)
    else last + 1 - lineStart
  (line, column + (place - last))

end HclLint.Hcl
