/-
# Lines and columns

The line and the column of an offset are what a reader counts: the line feeds before it, and
the characters behind the last of them.

## Main definitions

* `Source.Shows`: a position where a text stands in a file.

## Main statements

* `lineColumn_append`: the line and the column behind the start of a text.
* `shows_positionAt`: the position of a byte offset is where the text behind it stands.
-/

import HclLint.Hcl.Reader
import Mathlib.Data.List.TakeWhile

namespace HclLint.Text

open HclLint.Hcl (lastLine)

/-- The position is in the file, and the text stands there: it starts at the byte offset, and
the line and the column are those of the characters before it, counted from one. -/
structure Source.Shows (source : Source) (p : Position) (text : String) : Prop where
  file : p.file = source.name
  stands : ∃ before after : String, source.text = before ++ text ++ after ∧
    p.offset = before.utf8ByteSize ∧ p.line = before.toList.count '\n' + 1 ∧
      p.column = (lastLine before.toList).length + 1

/-- The bytes of a text are those of its characters. -/
theorem utf8ByteSize_ofList (cs : List Char) : (String.ofList cs).utf8ByteSize = byteLength cs := by
  induction cs with
  | nil => rfl
  | cons c cs ih =>
    rw [String.ofList_cons, String.utf8ByteSize_append, String.utf8ByteSize_singleton, ih,
      byteLength_cons]

/-- The last line of a text that goes on: a line feed behind its start opens a later one. -/
theorem lastLine_cons (c : Char) (cs : List Char) :
    lastLine (c :: cs) =
      if '\n' ∈ cs then lastLine cs else if c = '\n' then cs else c :: cs := by
  unfold lastLine
  rw [List.reverse_cons, List.takeWhile_append]
  by_cases later : '\n' ∈ cs
  · have stops : (cs.reverse.takeWhile (· != '\n')).length ≠ cs.reverse.length := by
      intro whole
      have same := (List.takeWhile_prefix _).eq_of_length whole
      have passed := List.takeWhile_eq_self_iff.mp same '\n' (List.mem_reverse.mpr later)
      simp at passed
    rw [if_neg stops, if_pos later]
  · have passes : ∀ x ∈ cs.reverse, (x != '\n') = true := by
      intro x member
      rw [bne_iff_ne]
      rintro rfl
      exact later (List.mem_reverse.mp member)
    rw [List.takeWhile_eq_self_iff.mpr passes, if_pos rfl, if_neg later]
    by_cases feed : c = '\n' <;> simp [feed]

/-- Walking over the start of a text counts its line feeds, and the characters behind the last
of them. What is left of the offset is walked behind it. -/
theorem lineColumnFrom_append_add (line column : Nat) (before after : List Char)
    (offset : Nat) :
    lineColumnFrom line column (before ++ after) (byteLength before + offset) =
      lineColumnFrom (line + before.count '\n')
        (if '\n' ∈ before then (lastLine before).length + 1 else column + before.length)
        after offset := by
  induction before generalizing line column with
  | nil => simp
  | cons c before ih =>
    have positive := Char.utf8Size_pos c
    have some : c.utf8Size + byteLength before + offset ≠ 0 := by omega
    have whole : ¬ c.utf8Size + byteLength before + offset < c.utf8Size := by omega
    have left : c.utf8Size + byteLength before + offset - c.utf8Size =
        byteLength before + offset := by omega
    rw [byteLength_cons, List.cons_append, lineColumnFrom, if_neg some, if_neg whole, left, ih,
      ih, lastLine_cons]
    -- A line feed counts as a line, and any other character as a column of its own line.
    by_cases feed : c = '\n'
    · subst feed
      by_cases later : '\n' ∈ before <;> simp [later, Nat.add_comm, Nat.add_left_comm]
    · have other : ¬ '\n' = c := Ne.symm feed
      by_cases later : '\n' ∈ before <;>
        simp [feed, other, later, Nat.add_comm, Nat.add_left_comm]

@[simp]
theorem lineColumnFrom_zero (line column : Nat) (cs : List Char) :
    lineColumnFrom line column cs 0 = (line, column) := by
  cases cs <;> rfl

/-- The last line of a text without line feeds is the text. -/
theorem lastLine_eq_self {cs : List Char} (plain : '\n' ∉ cs) : lastLine cs = cs := by
  cases cs with
  | nil => rfl
  | cons c cs =>
    obtain ⟨other, plain⟩ := not_or.mp (mt List.mem_cons.mpr plain)
    rw [lastLine_cons, if_neg plain, if_neg (Ne.symm other)]

/-- Behind the start of a text the walk goes on where a reader has counted to. -/
theorem lineColumn_append_add (before after : List Char) (offset : Nat) :
    lineColumn (before ++ after) (byteLength before + offset) =
      lineColumnFrom (before.count '\n' + 1) ((lastLine before).length + 1) after offset := by
  rw [lineColumn, lineColumnFrom_append_add, Nat.add_comm 1]
  split
  · rfl
  · next plain => rw [lastLine_eq_self plain, Nat.add_comm 1]

theorem lineColumn_append (before after : List Char) :
    lineColumn (before ++ after) (byteLength before) =
      (before.count '\n' + 1, (lastLine before).length + 1) := by
  simpa using lineColumn_append_add before after 0

/-- The position of a byte offset is where the text behind it stands. -/
theorem shows_positionAt {source : Source} {offset : Nat} {before text after : List Char}
    (same : source.text.toList = before ++ text ++ after) (passed : offset = byteLength before) :
    source.Shows (source.positionAt offset) (String.ofList text) := by
  subst passed
  have counted := lineColumn_append before (text ++ after)
  rw [← List.append_assoc, ← same] at counted
  refine ⟨rfl, String.ofList before, String.ofList after, ?_, ?_, ?_⟩
  · rw [← String.ofList_append, ← String.ofList_append, ← same, String.ofList_toList]
  · exact (utf8ByteSize_ofList before).symm
  · rw [String.toList_ofList, Source.positionAt, counted]
    exact ⟨rfl, rfl⟩

end HclLint.Text
