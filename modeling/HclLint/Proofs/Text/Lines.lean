/-
# Offsets and lines

Where a byte offset stands is what a reader counts up to it: the line feeds before it, and the
characters between the last of them and the offset. Past the end of a text every offset stands
where the end does, and one that divides a character stands in that character's line, in its first
column. The same answers come of a table of the offsets at which lines start, in which an offset
is searched for: the table has a line for every offset.

## Main definitions

* `IsBoundary`, `Divides`: an offset between two characters, and one inside a character.
* `lineStarts`, `lineIndex`: the table of lines, and the search in it.
* `Source.lineColumn?`: the line and the column of an offset, by the table.
* `CountsLines`: what a function from offsets to lines and columns has to answer.

## Main statements

* `lineColumn_lt`: the position grows with the offset.
* `lineIndex_append`: the search finds the last line that starts at the offset or before it.
* `lineColumn_countsLines`: what the position of an offset is, and that the table tells the same.
-/

import HclLint.Proofs.Text.Position

namespace HclLint.Text

open HclLint.Hcl (lastLine)

variable {text before after : List Char} {c : Char} {offset other : Nat}

/-! ## Offsets in a text -/

/-- An offset that lies between two characters of a text, or at one of its ends. -/
def IsBoundary (text : List Char) (offset : Nat) : Prop :=
  ∃ before after, text = before ++ after ∧ offset = byteLength before

/-- An offset that lies inside the character of a text that comes behind some others. -/
def Divides (text before : List Char) (offset : Nat) : Prop :=
  ∃ c after, text = before ++ c :: after ∧ byteLength before < offset ∧
    offset < byteLength before + c.utf8Size

/-- An offset is a boundary, lies inside a character, or is past the end. -/
theorem offset_cases (text : List Char) (offset : Nat) :
    IsBoundary text offset ∨ (∃ before, Divides text before offset) ∨
      byteLength text < offset := by
  induction text generalizing offset with
  | nil =>
    rcases Nat.eq_zero_or_pos offset with rfl | positive
    · exact .inl ⟨[], [], rfl, rfl⟩
    · exact .inr (.inr positive)
  | cons c text ih =>
    rcases Nat.eq_zero_or_pos offset with rfl | positive
    · exact .inl ⟨[], c :: text, rfl, rfl⟩
    · by_cases inside : offset < c.utf8Size
      · exact .inr (.inl ⟨[], c, text, rfl, positive, by simpa using inside⟩)
      · -- What is left behind the first character lies in the rest of the text.
        obtain ⟨left, rfl⟩ := Nat.exists_eq_add_of_le (Nat.le_of_not_lt inside)
        rcases ih left with ⟨before, after, rfl, rfl⟩ | ⟨before, d, after, rfl, low, high⟩ | past
        · exact .inl ⟨c :: before, after, rfl, rfl⟩
        · refine .inr (.inl ⟨c :: before, d, after, rfl, ?_, ?_⟩) <;>
            rw [byteLength_cons] <;> omega
        · refine .inr (.inr ?_)
          rw [byteLength_cons]
          omega

/-! ## Lines and columns -/

/-- Every offset past the end stands where the end does. -/
theorem lineColumn_of_past (past : byteLength text ≤ offset) :
    lineColumn text offset = lineColumn text (byteLength text) := by
  obtain ⟨more, rfl⟩ := Nat.exists_eq_add_of_le past
  have behind := lineColumn_append_add text [] more
  have here := lineColumn_append text []
  rw [List.append_nil] at behind here
  rw [behind, here]
  rfl

/-- An offset inside a character stands in the first column of that character's line. -/
theorem lineColumn_of_divides (divides : Divides text before offset) :
    lineColumn text offset = (before.count '\n' + 1, 1) := by
  obtain ⟨c, after, rfl, low, high⟩ := divides
  obtain ⟨more, rfl⟩ := Nat.exists_eq_add_of_lt low
  have inside : more + 1 < c.utf8Size := by omega
  rw [Nat.add_assoc, lineColumn_append_add, lineColumnFrom, if_neg (Nat.succ_ne_zero more),
    if_pos inside]

/-- Characters that are no line feeds make the last line longer. -/
theorem lastLine_append (before : List Char) {between : List Char} (plain : '\n' ∉ between) :
    lastLine (before ++ between) = lastLine before ++ between := by
  have passes : ∀ x ∈ between.reverse, (x != '\n') = true := by
    intro x member
    rw [bne_iff_ne]
    rintro rfl
    exact plain (List.mem_reverse.mp member)
  rw [lastLine, List.reverse_append, List.takeWhile_append_of_pos passes, List.reverse_append,
    List.reverse_reverse]
  rfl

/-- The positions of boundaries grow with them, line before column. -/
theorem lineColumn_lt (boundary : IsBoundary text offset) (boundary' : IsBoundary text other)
    (further : offset < other) :
    Prod.Lex (· < ·) (· < ·) (lineColumn text offset) (lineColumn text other) := by
  obtain ⟨before, after, whole, rfl⟩ := boundary
  obtain ⟨before', after', rfl, rfl⟩ := boundary'
  -- The characters before the second offset start with those before the first.
  obtain ⟨between, rfl⟩ : before <+: before' := by
    rcases List.prefix_or_prefix_of_prefix (List.prefix_append before after)
      (whole ▸ List.prefix_append before' after') with shorter | ⟨between, rfl⟩
    · exact shorter
    · rw [byteLength_append] at further
      omega
  have here := lineColumn_append before (between ++ after')
  rw [← List.append_assoc] at here
  rw [here, lineColumn_append, List.count_append]
  by_cases feed : '\n' ∈ between
  · have positive := List.count_pos_iff.mpr feed
    exact .left _ _ (by omega)
  · have some : between ≠ [] := by
      rintro rfl
      simp at further
    have longer := List.length_pos_iff.mpr some
    rw [List.count_eq_zero.mpr feed, lastLine_append before feed, List.length_append]
    exact .right _ (by omega)

/-- Distinct boundaries have distinct positions. -/
theorem lineColumn_inj (boundary : IsBoundary text offset) (boundary' : IsBoundary text other)
    (same : lineColumn text offset = lineColumn text other) : offset = other := by
  have irreflexive (p : Nat × Nat) : ¬ Prod.Lex (· < ·) (· < ·) p p := by
    rw [Prod.lex_def]
    omega
  rcases Nat.lt_trichotomy offset other with less | equal | greater
  · exact absurd (same ▸ lineColumn_lt boundary boundary' less) (irreflexive _)
  · exact equal
  · exact absurd (same ▸ lineColumn_lt boundary' boundary greater) (irreflexive _)

/-! ## The table of lines -/

/-- The offsets behind the line feeds of a text that stands at an offset. -/
def startsBehind (offset : Nat) : List Char → List Nat
  | [] => []
  | c :: cs =>
    if c = '\n' then (offset + c.utf8Size) :: startsBehind (offset + c.utf8Size) cs
    else startsBehind (offset + c.utf8Size) cs

/-- The offsets at which the lines of a text start. -/
def lineStarts (text : List Char) : List Nat := 0 :: startsBehind 0 text

/-- The place of the line that an offset lies in, in a table of increasing starts. The search
finds the offset itself, or the place where it would be put; then the line before it is meant. -/
def lineIndex (starts : List Nat) (offset : Nat) : Nat :=
  let place := starts.countP (· < offset)
  if starts[place]? = some offset then place else place - 1

/-- The line and the column of an offset by the table of lines, none where the table lacks the
line that is looked up. The column counts the characters from the start of the line, if the text
can be cut at the offset. -/
def Source.lineColumn? (source : Source) (offset : Nat) : Option (Nat × Nat) :=
  let starts := lineStarts source.text.toList
  let index := lineIndex starts offset
  starts[index]?.map fun start =>
    let stop := min offset (byteLength source.text.toList)
    (index + 1, ((source.slice? start stop).map String.length).getD 0 + 1)

theorem startsBehind_append (offset : Nat) (before after : List Char) :
    startsBehind offset (before ++ after) =
      startsBehind offset before ++ startsBehind (offset + byteLength before) after := by
  induction before generalizing offset with
  | nil => rfl
  | cons c before ih =>
    rw [List.cons_append, startsBehind, startsBehind, ih, byteLength_cons, ← Nat.add_assoc]
    split <;> rfl

theorem lineStarts_append (before after : List Char) :
    lineStarts (before ++ after) = lineStarts before ++ startsBehind (byteLength before) after := by
  rw [lineStarts, startsBehind_append, Nat.zero_add]
  rfl

theorem startsBehind_eq_nil {cs : List Char} (plain : '\n' ∉ cs) (offset : Nat) :
    startsBehind offset cs = [] := by
  induction cs generalizing offset with
  | nil => rfl
  | cons c cs ih =>
    obtain ⟨other, plain⟩ := not_or.mp (mt List.mem_cons.mpr plain)
    rw [startsBehind, if_neg (Ne.symm other), ih plain]

theorem length_startsBehind (offset : Nat) (cs : List Char) :
    (startsBehind offset cs).length = cs.count '\n' := by
  induction cs generalizing offset with
  | nil => rfl
  | cons c cs ih =>
    rw [startsBehind, List.count_cons]
    split <;> simp [*]

/-- A line behind a line feed starts behind that character. -/
theorem lt_of_mem_startsBehind {start : Nat} {cs : List Char}
    (member : start ∈ startsBehind offset cs) :
    offset < start ∧ start ≤ offset + byteLength cs := by
  induction cs generalizing offset with
  | nil => cases member
  | cons c cs ih =>
    have positive := Char.utf8Size_pos c
    have later (member : start ∈ startsBehind (offset + c.utf8Size) cs) :
        offset < start ∧ start ≤ offset + (c.utf8Size + byteLength cs) := by
      have bounds := ih member
      omega
    rw [startsBehind] at member
    rw [byteLength_cons]
    split at member
    · rcases List.mem_cons.mp member with rfl | member
      · omega
      · exact later member
    · exact later member

/-- A text's last line, and the entry of the table for it. -/
theorem exists_lineStarts (before : List Char) : ∃ head earlier,
    before = head ++ lastLine before ∧ lineStarts before = earlier ++ [byteLength head] ∧
      earlier.length = before.count '\n' ∧ ∀ start ∈ earlier, start < byteLength head := by
  have plain : '\n' ∉ lastLine before := by
    intro member
    have passed := List.mem_takeWhile_imp (List.mem_reverse.mp member)
    simp at passed
  have whole : (before.reverse.dropWhile (· != '\n')).reverse ++ lastLine before = before := by
    rw [lastLine, ← List.reverse_append, List.takeWhile_append_dropWhile, List.reverse_reverse]
  cases rest : before.reverse.dropWhile (· != '\n') with
  | nil =>
    rw [rest, List.reverse_nil, List.nil_append] at whole
    refine ⟨[], [], whole.symm, ?_, ?_, by simp⟩
    · rw [lineStarts, startsBehind_eq_nil (whole ▸ plain)]
      rfl
    · rw [List.count_eq_zero.mpr (whole ▸ plain), List.length_nil]
  | cons feed front =>
    -- The last line comes behind the line feed that stops the walk from the end.
    obtain rfl : feed = '\n' := by
      have stopped := List.head?_dropWhile_not (· != '\n') before.reverse
      simpa [rest] using stopped
    rw [rest, List.reverse_cons] at whole
    refine ⟨front.reverse ++ ['\n'], lineStarts front.reverse, whole.symm, ?_, ?_, ?_⟩
    · calc lineStarts before
          = lineStarts (front.reverse ++ ['\n'] ++ lastLine before) := by rw [whole]
        _ = lineStarts (front.reverse ++ ['\n']) := by
            rw [lineStarts_append, startsBehind_eq_nil plain, List.append_nil]
        _ = lineStarts front.reverse ++ [byteLength (front.reverse ++ ['\n'])] := by
            rw [lineStarts_append, byteLength_append]
            rfl
    · calc (lineStarts front.reverse).length
          = (front.reverse ++ ['\n'] ++ lastLine before).count '\n' := by
            rw [List.count_append, List.count_append, List.count_eq_zero.mpr plain, lineStarts,
              List.length_cons, length_startsBehind]
            rfl
        _ = before.count '\n' := by rw [whole]
    · intro start member
      rw [byteLength_append, byteLength_cons]
      have positive := Char.utf8Size_pos '\n'
      rcases List.mem_cons.mp member with rfl | member
      · omega
      · have bounds := lt_of_mem_startsBehind member
        omega

/-- The search finds the last start that is not past the offset. -/
theorem lineIndex_append {earlier later : List Nat} {start : Nat}
    (low : ∀ x ∈ earlier, x < start) (here : start ≤ offset) (high : ∀ x ∈ later, offset < x) :
    lineIndex (earlier ++ [start] ++ later) offset = earlier.length := by
  have all : earlier.countP (· < offset) = earlier.length :=
    List.countP_eq_length.mpr fun x member => decide_eq_true ((low x member).trans_le here)
  have none : later.countP (· < offset) = 0 := by
    refine List.countP_eq_zero.mpr fun x member => ?_
    simpa using (high x member).le
  have place : (earlier ++ [start] ++ later).countP (· < offset) =
      earlier.length + if start < offset then 1 else 0 := by
    simp [List.countP_append, List.countP_cons, all, none]
  rw [lineIndex, place]
  rcases here.eq_or_lt with rfl | less
  · simp
  · -- The entry behind the start, if there is one, is past the offset.
    have other : (earlier ++ [start] ++ later)[earlier.length + 1]? ≠ some offset := by
      rw [List.getElem?_append_right (by simp), List.length_append, List.length_singleton,
        Nat.sub_self]
      intro found
      exact absurd (high offset (List.mem_of_getElem? found)) (lt_irrefl offset)
    simp only [if_pos less, if_neg other, Nat.add_sub_cancel]

/-- A text cannot be cut inside a character. -/
theorem splitAtByte_of_divides (divides : Divides text before offset) :
    splitAtByte offset text = none := by
  cases cut : splitAtByte offset text with
  | none => rfl
  | some parts =>
    obtain ⟨front, back⟩ := parts
    obtain ⟨c, after, rfl, low, high⟩ := divides
    obtain ⟨same, rfl⟩ := append_of_splitAtByte cut
    -- One of the two starts of the text is the other one with more behind it.
    rcases List.append_eq_append_iff.mp same with ⟨more, rfl, -⟩ | ⟨more, rfl, rest⟩
    · rw [byteLength_append] at low
      omega
    · cases more with
      | nil => simp at low
      | cons d more =>
        obtain ⟨rfl, -⟩ := List.cons.inj rest
        rw [byteLength_append, byteLength_cons] at high
        omega

/-- From a cut on, a text is sliced by cutting what comes behind it. -/
theorem slice?_add {source : Source} {head rest : List Char}
    (whole : source.text.toList = head ++ rest) (size : Nat) :
    source.slice? (byteLength head) (byteLength head + size) =
      (splitAtByte size rest).map fun (slice, _) => String.ofList slice := by
  rw [Source.slice?, if_pos (Nat.le_add_right ..), whole, splitAtByte_append, Option.bind_some,
    Nat.add_sub_cancel_left]

/-- Behind some characters of a text and before the next line, the table gives the line that
these characters end in, and the column is counted from the start of that line. -/
theorem lineColumn?_eq {source : Source} {stop column : Nat}
    (whole : source.text.toList = before ++ after) (reached : byteLength before ≤ offset)
    (last : ∀ start ∈ startsBehind (byteLength before) after, offset < start)
    (ends : min offset (byteLength source.text.toList) = stop)
    (counted : ∀ head, before = head ++ lastLine before →
      ((source.slice? (byteLength head) stop).map String.length).getD 0 + 1 = column) :
    source.lineColumn? offset = some (before.count '\n' + 1, column) := by
  obtain ⟨head, earlier, split, table, count, low⟩ := exists_lineStarts before
  have here : byteLength head ≤ offset := by
    have part := congrArg byteLength split
    rw [byteLength_append] at part
    omega
  have starts : lineStarts source.text.toList =
      earlier ++ [byteLength head] ++ startsBehind (byteLength before) after := by
    rw [whole, lineStarts_append, table]
  have index : lineIndex (lineStarts source.text.toList) offset = before.count '\n' := by
    rw [starts, lineIndex_append low here last, count]
  have entry : (lineStarts source.text.toList)[before.count '\n']? = some (byteLength head) := by
    rw [starts, ← count]
    simp
  simp only [Source.lineColumn?, index, entry, Option.map_some, ends, counted head split]

/-- Where the text is cut behind some characters, a slice from the start of their last line holds
that line. -/
theorem length_slice?_lastLine {source : Source} {head : List Char}
    (whole : source.text.toList = before ++ after) (split : before = head ++ lastLine before) :
    ((source.slice? (byteLength head) (byteLength before)).map String.length).getD 0 + 1 =
      (lastLine before).length + 1 := by
  have size := congrArg byteLength split
  rw [byteLength_append] at size
  have rest : source.text.toList = head ++ (lastLine before ++ after) := by
    rw [← List.append_assoc, ← split, whole]
  rw [size, slice?_add rest, splitAtByte_append]
  simp

/-- Inside a character there is no such slice. -/
theorem slice?_of_divides {source : Source} {head : List Char}
    (divides : Divides source.text.toList before offset)
    (split : before = head ++ lastLine before) :
    source.slice? (byteLength head) offset = none := by
  obtain ⟨c, after, whole, low, high⟩ := divides
  have size := congrArg byteLength split
  rw [byteLength_append] at size
  have rest : source.text.toList = head ++ (lastLine before ++ c :: after) := by
    rw [← List.append_assoc, ← split, whole]
  obtain ⟨more, rfl⟩ := Nat.exists_eq_add_of_le (show byteLength head ≤ offset by omega)
  have inside : Divides (lastLine before ++ c :: after) (lastLine before) more :=
    ⟨c, after, rfl, by omega, by omega⟩
  rw [slice?_add rest, splitAtByte_of_divides inside]
  rfl

/-- The next line does not start before the end of the character that comes next. -/
theorem lt_of_mem_startsBehind_cons {start : Nat} {cs : List Char}
    (high : other < offset + c.utf8Size) (member : start ∈ startsBehind offset (c :: cs)) :
    other < start := by
  rw [startsBehind] at member
  split at member
  · rcases List.mem_cons.mp member with rfl | member
    · exact high
    · exact high.trans (lt_of_mem_startsBehind member).1
  · exact high.trans (lt_of_mem_startsBehind member).1

/-- The table answers for every offset, and it answers with its line and column. -/
theorem lineColumn?_eq_some (source : Source) (offset : Nat) :
    source.lineColumn? offset = some (lineColumn source.text.toList offset) := by
  rcases offset_cases source.text.toList offset with
    ⟨before, after, whole, rfl⟩ | ⟨before, divides⟩ | past
  · have fits : byteLength before ≤ byteLength source.text.toList := by
      rw [whole, byteLength_append]
      omega
    rw [lineColumn?_eq whole le_rfl (fun _ member => (lt_of_mem_startsBehind member).1)
      (Nat.min_eq_left fits) fun _ split => length_slice?_lastLine whole split, whole,
      lineColumn_append]
  · rw [lineColumn_of_divides divides]
    obtain ⟨c, after, whole, low, high⟩ := id divides
    have fits : offset ≤ byteLength source.text.toList := by
      rw [whole, byteLength_append, byteLength_cons]
      omega
    refine lineColumn?_eq whole low.le (fun _ member => lt_of_mem_startsBehind_cons high member)
      (Nat.min_eq_left fits) fun head split => ?_
    rw [slice?_of_divides divides split]
    rfl
  · have whole : source.text.toList = source.text.toList ++ [] := (List.append_nil _).symm
    have here := lineColumn_append source.text.toList []
    rw [List.append_nil] at here
    rw [lineColumn_of_past past.le, here]
    exact lineColumn?_eq whole past.le (by simp [startsBehind]) (Nat.min_eq_right past.le)
      fun _ split => length_slice?_lastLine whole split

/-! ## The main result -/

/-- What a function from the offsets of a text to lines and columns has to answer: at a boundary
what a reader counts, the same past the end as at the end, and inside a character its line and the
first column. So positions of boundaries grow with them, and no two of them have one position. -/
structure CountsLines (text : List Char) (position : Nat → Nat × Nat) : Prop where
  boundary : ∀ before after, text = before ++ after →
    position (byteLength before) = (before.count '\n' + 1, (lastLine before).length + 1)
  past : ∀ offset, byteLength text < offset → position offset = position (byteLength text)
  inside : ∀ before offset, Divides text before offset →
    position offset = (before.count '\n' + 1, 1)
  increasing : ∀ offset other, IsBoundary text offset → IsBoundary text other → offset < other →
    Prod.Lex (· < ·) (· < ·) (position offset) (position other)
  injective : ∀ offset other, IsBoundary text offset → IsBoundary text other →
    position offset = position other → offset = other

/-- **Lines and columns are what a reader counts**, for every text and every offset. Looking the
offset up in the table of lines answers the same, and no look-up misses the table. -/
theorem lineColumn_countsLines (source : Source) :
    CountsLines source.text.toList (lineColumn source.text.toList) ∧
      ∀ offset, source.lineColumn? offset = some (lineColumn source.text.toList offset) ∧
        ((source.positionAt offset).line, (source.positionAt offset).column) =
          lineColumn source.text.toList offset := by
  refine ⟨?_, fun offset => ⟨lineColumn?_eq_some source offset, rfl⟩⟩
  exact {
    boundary := fun before after whole => by rw [whole, lineColumn_append]
    past := fun offset past => lineColumn_of_past past.le
    inside := fun before offset divides => lineColumn_of_divides divides
    increasing := fun _ _ => lineColumn_lt
    injective := fun _ _ => lineColumn_inj }

example : (Source.mk "main.tf" "a\nbü\n").lineColumn? 4 = some (2, 1) := by decide +kernel

end HclLint.Text
