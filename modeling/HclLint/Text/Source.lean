/-
# Source files

A named text with its byte offsets. Offsets count bytes of UTF-8, lines end at line feeds,
and columns count characters.

## Main definitions

* `lineColumn`: the line and column of an offset.
* `splitAtByte`: a text cut at an offset that lies between two characters.
* `Source.positionAt`, `Source.slice?`: the same on a named file.
-/

import HclLint.Text.Position

namespace HclLint.Text

/-- The number of bytes of a text. -/
def byteLength : List Char → Nat
  | [] => 0
  | c :: cs => c.utf8Size + byteLength cs

@[simp]
theorem byteLength_nil : byteLength [] = 0 := rfl

@[simp]
theorem byteLength_cons (c : Char) (cs : List Char) :
    byteLength (c :: cs) = c.utf8Size + byteLength cs := rfl

/-- The lengths of two texts in a row add up. -/
@[simp]
theorem byteLength_append (xs ys : List Char) :
    byteLength (xs ++ ys) = byteLength xs + byteLength ys := by
  induction xs with
  | nil => simp
  | cons c cs ih => simp [ih, Nat.add_assoc]

/-- Walks to a byte offset and counts lines and columns on the way. Past the end it stops
at the end, and inside a character it answers column one. -/
def lineColumnFrom (line column : Nat) : List Char → Nat → Nat × Nat
  | [], _ => (line, column)
  | c :: cs, offset =>
    if offset = 0 then (line, column)
    else if offset < c.utf8Size then (line, 1)
    else if c = '\n' then lineColumnFrom (line + 1) 1 cs (offset - c.utf8Size)
    else lineColumnFrom line (column + 1) cs (offset - c.utf8Size)

/-- The line and column of a byte offset, both counted from one. -/
def lineColumn (text : List Char) (offset : Nat) : Nat × Nat :=
  lineColumnFrom 1 1 text offset

/-- The text before and after a byte offset, if it lies between two characters. -/
def splitAtByte : Nat → List Char → Option (List Char × List Char)
  | 0, cs => some ([], cs)
  | _ + 1, [] => none
  | n + 1, c :: cs =>
    if c.utf8Size ≤ n + 1 then
      (splitAtByte (n + 1 - c.utf8Size) cs).map fun (before, after) => (c :: before, after)
    else none

/-- Nothing is lost where a text is cut. -/
theorem append_of_splitAtByte {n : Nat} {cs before after : List Char}
    (h : splitAtByte n cs = some (before, after)) :
    before ++ after = cs ∧ byteLength before = n := by
  induction cs generalizing n before after with
  | nil =>
    cases n with
    | zero =>
      obtain ⟨rfl, rfl⟩ := Prod.mk.inj (Option.some.inj (by simpa [splitAtByte] using h))
      simp
    | succ n => simp [splitAtByte] at h
  | cons c cs ih =>
    cases n with
    | zero =>
      obtain ⟨rfl, rfl⟩ := Prod.mk.inj (Option.some.inj (by simpa [splitAtByte] using h))
      simp
    | succ n =>
      simp only [splitAtByte] at h
      split at h
      · next hle =>
        obtain ⟨⟨b, a⟩, hcut, heq⟩ := Option.map_eq_some_iff.1 h
        obtain ⟨rfl, rfl⟩ := Prod.mk.inj heq
        obtain ⟨rfl, hlen⟩ := ih hcut
        refine ⟨rfl, ?_⟩
        simp only [byteLength_cons, hlen]
        omega
      · simp at h

/-- The text is cut where the characters before the cut end. -/
theorem splitAtByte_append (before after : List Char) :
    splitAtByte (byteLength before) (before ++ after) = some (before, after) := by
  induction before with
  | nil => cases after <;> rfl
  | cons x before ih =>
    have positive := Char.utf8Size_pos x
    obtain ⟨n, same⟩ : ∃ n, x.utf8Size + byteLength before = n + 1 :=
      ⟨x.utf8Size + byteLength before - 1, by omega⟩
    have left : n + 1 - x.utf8Size = byteLength before := by omega
    have fits : x.utf8Size ≤ n + 1 := by omega
    rw [byteLength_cons, same, List.cons_append, splitAtByte, if_pos fits, left, ih]
    rfl

/-- A file's name and text. -/
structure Source where
  name : String
  text : String
  deriving DecidableEq, Repr, Inhabited

namespace Source

/-- The position of a byte offset. -/
def positionAt (source : Source) (offset : Nat) : Position :=
  let (line, column) := lineColumn source.text.toList offset
  ⟨source.name, offset, line, column⟩

/-- The text between two byte offsets, if both lie between characters of the text and the
first is not past the second. -/
def slice? (source : Source) (start stop : Nat) : Option String :=
  if start ≤ stop then
    (splitAtByte start source.text.toList).bind fun (_, rest) =>
      (splitAtByte (stop - start) rest).map fun (slice, _) => String.ofList slice
  else none

/-- The position where a span starts, unknown without a span. -/
def positionOf (source : Source) : Option (Nat × Nat) → Position
  | none => .unknown
  | some (start, _) => source.positionAt start

@[simp]
theorem positionAt_offset (source : Source) (offset : Nat) :
    (source.positionAt offset).offset = offset := rfl

@[simp]
theorem positionAt_file (source : Source) (offset : Nat) :
    (source.positionAt offset).file = source.name := rfl

end Source

end HclLint.Text
