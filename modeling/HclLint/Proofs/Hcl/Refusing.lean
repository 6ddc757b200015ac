/-
# Reading without some terms

A reader may be made to refuse some terms, wherever they are nested: where it would read one of
them it stops for good. What it does read is read without refusing anything, and so to say that a
text is read without some terms is to say that it is read and holds none of them. Heredocs without
parts are such terms: that one has no parts may be told only at the end of the whole text.

## Main definitions

* `Parser.refusing`: a parser that stops at some of the values it reads.
* `levelWithout`: the levels of the grammar that refuse some terms.
* `readWithout`: the expression that a text consists of, read without some terms.

## Main statements

* `isSound_levelWithout`: such levels read expressions with an acquired property.
* `levelWithout_false`: where nothing is refused they are the levels of the grammar.
-/

import HclLint.Hcl.Reader
import HclLint.Proofs.Hcl.Extent

namespace HclLint.Hcl

open HclLint.Text

/-- A heredoc whose delimiter follows at once. -/
def Form.isEmptyHeredoc : Form → Bool
  | .heredoc _ [] => true
  | _ => false

namespace Parser

variable {α : Type} {refused : α → Bool} {p : Parser α} {a : α} {c next : Cursor}

/-- The parser, stopped for good where it reads a value that is refused. -/
def refusing (refused : α → Bool) (p : Parser α) : Parser α := fun c =>
  match p c with
  | .read a next => if refused a then .final .expression c.offset else .read a next
  | .undone complaint => .undone complaint
  | .final complaint place => .final complaint place

/-- What is read is not refused. -/
theorem refusing_eq_read_iff :
    refusing refused p c = .read a next ↔ p c = .read a next ∧ refused a = false := by
  rw [refusing]
  constructor
  · intro read
    split at read
    · next taken =>
      split at read
      · cases read
      · next allowed =>
        obtain ⟨rfl, rfl⟩ := Outcome.read.inj read
        exact ⟨taken, Bool.eq_false_iff.mpr allowed⟩
    · cases read
    · cases read
  · rintro ⟨read, allowed⟩
    rw [read]
    simp [allowed]

theorem advances_refusing {text : List Char} (advances : Advances text p) :
    Advances text (refusing refused p) :=
  fun _ _ _ here read => advances here (refusing_eq_read_iff.mp read).1

theorem refusing_false (p : Parser α) : refusing (fun _ => false) p = p := by
  funext c
  rw [refusing]
  split
  · next same => simp [same]
  · next same => rw [same]
  · next same => rw [same]

end Parser

namespace Grammar

open HclLint.Hcl.Parser

/-- The readers that nest expressions at most `depth` deep, and that refuse some terms. -/
def levelWithout (refused : Form → Bool) : Nat → Level
  | 0 => .bottom
  | depth + 1 =>
    { expr := fun setting c => exprAt (levelWithout refused depth) setting c
      term := fun setting =>
        refusing (fun a => refused a.1.form) (termAt (levelWithout refused depth) setting)
      part := fun quoting c => templatePart (levelWithout refused depth) quoting c }

/-- The levels that refuse nothing are those of the grammar. -/
theorem levelWithout_false (depth : Nat) : levelWithout (fun _ => false) depth = levelOf depth := by
  induction depth with
  | zero => rfl
  | succ depth ih =>
    rw [levelWithout, levelOf, ih]
    simp only [refusing_false]

/-- On every level, readers that refuse some terms go forward and read expressions with every
property that is acquired. -/
theorem isSound_levelWithout {text : List Char} {holds : Expr → Prop}
    (acquired : IsAcquired text holds) (refused : Form → Bool) (depth : Nat) :
    (levelWithout refused depth).IsSound text holds := by
  induction depth with
  | zero => exact isSound_bottom
  | succ depth ih =>
    refine ⟨fun setting => yields_exprAt ih setting acquired, fun _ _ _ _ here read => ?_,
      fun here read => ?_, advances_templatePart ih⟩
    · exact (holds_termAt acquired ih here (refusing_eq_read_iff.mp read).1).2
    · exact (holds_termAt acquired ih here (refusing_eq_read_iff.mp read).1).1

end Grammar

/-- The expression that a text consists of, read without some terms. -/
def readWithout (refused : Form → Bool) (text : String) : Except Refusal Expr :=
  readAll ((Grammar.levelWithout refused (Grammar.depthOf text.toList)).expr .line) text.toList

theorem readWithout_false (text : String) : readWithout (fun _ => false) text = readExpr text := by
  rw [readWithout, readExpr, Grammar.levelWithout_false]

end HclLint.Hcl
