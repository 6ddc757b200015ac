/-
# Blanks within a line

Within a line it makes no difference whether line breaks are blanks: spaces and comments between
two signs are skipped in either case. A comment from `#` or `//` never stands in front of anything
in its line. So wherever something is announced in a line that was cut off, the same is announced
in the whole text.

## Main definitions

* `InLine`: a text without line breaks.
* `AreBlanks`: what is skipped in front of everything that starts with no blank.
* `Announces`: what is announced by two characters.

## Main statements

* `areBlanks_of_skip`: what is skipped within a line is skipped under every setting.
* `Announces.alike`: a line that was cut off announces what the whole text does.
-/

import HclLint.Proofs.Hcl.Breaks

namespace HclLint.Hcl

open HclLint.Text

/-- The text has no line break. -/
def InLine (text : List Char) : Prop := ∀ x ∈ text, x ≠ '\n' ∧ x ≠ '\r'

theorem inLine_append {front rest : List Char} :
    InLine (front ++ rest) ↔ InLine front ∧ InLine rest :=
  List.forall_mem_append

namespace Grammar

open HclLint.Hcl.Parser

variable {front blanks kept cut : List Char} {breaks breaks' : Bool} {c c' middle next : Cursor}

/-! ## Blanks -/

/-- The characters are skipped in front of everything that starts with no blank, whether line breaks
are blanks or not. -/
def AreBlanks (front : List Char) : Prop :=
  ∀ ⦃breaks rest⦄, (∀ breaks, IsUndone (blank breaks) rest) →
    Reads (skip breaks) (front ++ rest) (fun _ => True) rest

theorem areBlanks_nil : AreBlanks [] := fun _ _ solid => reads_skip_of_isUndone (solid _)

/-- A line ends with the text or at a line break. -/
theorem drop_lineLength (xs : List Char) :
    xs.drop (lineLength xs) = [] ∨ startsLineBreak (xs.drop (lineLength xs)) = true := by
  induction xs with
  | nil => exact .inl rfl
  | cons x xs ih =>
    rw [lineLength]
    split
    · next ended => exact .inr ended
    · exact ih

/-- A comment to the end of its line ends with the text or in front of a line break. -/
theorem head_of_lineComment {a : Unit} (read : lineComment c = .read a next) :
    ∀ x ∈ next.rest.head?, x = '\n' ∨ x = '\r' := by
  obtain ⟨sign, line, _, text, rfl⟩ := lineComment_eq_read_iff.mp read
  have left : (c.drop (sign.length + lineLength line)).rest = line.drop (lineLength line) := by
    rw [rest_drop, text, List.drop_append, List.drop_eq_nil_of_le (Nat.le_add_right _ _)]
    simp
  rw [left]
  rcases drop_lineLength line with none | ended
  · simp [none]
  · intro x head
    unfold startsLineBreak at ended
    split at ended
    · next same =>
      rw [same] at head
      exact .inl (Option.some.inj head).symm
    · next same =>
      rw [same] at head
      exact .inr (Option.some.inj head).symm
    · cases ended

/-- A blank is one in either case, or a line break, or a comment to the end of its line. -/
theorem blank_eq_read {a : Unit} (read : blank breaks c = .read a next) :
    (∃ one, c.Passes one next ∧
      ∀ breaks rest, Reads (blank breaks) (one ++ rest) (fun _ => True) rest) ∨
    (∃ x, (x = '\n' ∨ x = '\r') ∧ c.Passes [x] next) ∨
    breaks = true ∧ lineComment c = .read a next := by
  rcases choice_eq_read_iff.mp read with read | ⟨_, read⟩
  · obtain ⟨x, between, taken, made⟩ := bind_eq_read_iff.mp read
    obtain ⟨_, rfl⟩ := Outcome.read.inj made
    have passing := passing_of_satisfy taken
    cases space : isSpace x with
    | true =>
      refine .inl ⟨[x], passes_satisfy taken, fun breaks rest => ?_⟩
      have one : Reads
          (do let _ ← satisfy fun x => isSpace x || (breaks && (x == '\r' || x == '\n')))
          (x :: rest) (fun _ => True) rest :=
        (reads_satisfy (by simp [space]) rest).bind fun _ _ =>
          (reads_pure () rest).imp fun _ _ => trivial
      exact one.choice _
    | false =>
      simp only [space, Bool.false_or, Bool.and_eq_true, Bool.or_eq_true, beq_iff_eq] at passing
      exact .inr (.inl ⟨x, passing.2.symm, passes_satisfy taken⟩)
  rcases choice_eq_read_iff.mp read with read | ⟨_, read⟩
  · obtain ⟨inside, passes, again⟩ := inlineComment_eq_read read
    exact .inl ⟨_, passes, fun breaks rest =>
      reads_blank_of_comment ⟨_, rfl⟩ ((again rest).imp fun _ _ => trivial) breaks⟩
  · cases breaks with
    | true => exact .inr (.inr ⟨rfl, read⟩)
    | false => cases read

/-- Where line breaks are blanks, each of their characters is one. -/
theorem exists_read_blank_of_lineEnd (ended : ∀ x ∈ c.rest.head?, x = '\n' ∨ x = '\r')
    (goesOn : c.rest ≠ []) : ∃ next, blank true c = .read () next := by
  obtain ⟨rest, offset⟩ := c
  obtain ⟨x, rest, rfl⟩ := List.exists_cons_of_ne_nil goesOn
  rcases ended x rfl with rfl | rfl
  · exact ⟨_, rfl⟩
  · exact ⟨_, rfl⟩

/-- What is skipped within a line is skipped whether line breaks are blanks or not, since a comment
to the end of the line would be followed by a line break. -/
theorem areBlanks_of_skip {a : Unit} (skipped : skip breaks c = .read a next)
    (passes : c.Passes front next) (line : InLine front) (goesOn : next.rest ≠ []) :
    AreBlanks front := by
  obtain ⟨blanks, repeats⟩ := skip_eq_read_iff.mp skipped
  induction repeats generalizing front with
  | @nil c =>
    obtain rfl := passes.eq (.refl c)
    exact areBlanks_nil
  | @cons c between next a as read less more ih =>
    obtain ⟨one, first⟩ := leadsTo_of_advances (fun _ => advances_blank _) read
    obtain ⟨others, onward⟩ := more.leadsTo fun _ => advances_blank _
    obtain rfl := passes.eq (first.trans onward)
    obtain ⟨inOne, inOthers⟩ := inLine_append.mp line
    rcases blank_eq_read read with ⟨one', first', again⟩ | ⟨x, ended, first'⟩ | ⟨rfl, comment⟩
    · obtain rfl := first.eq first'
      intro breaks rest solid
      rw [List.append_assoc]
      exact reads_skip_of_blank (again breaks _)
        (ih (skip_eq_read_iff.mpr ⟨_, more⟩) onward inOthers goesOn solid)
    · obtain rfl := first.eq first'
      have inside := inOne x List.mem_cons_self
      exact absurd ended (not_or.mpr inside)
    · have ended := head_of_lineComment comment
      cases others with
      | nil =>
        -- A line break comes next, and this would be one more blank.
        have same : between.rest = next.rest := onward.1
        rw [same] at ended
        obtain ⟨_, read⟩ := exists_read_blank_of_lineEnd ended goesOn
        obtain ⟨_, undone⟩ := more.isUndone
        cases read.symm.trans undone
      | cons y others =>
        rw [onward.1] at ended
        have inside := inOthers y List.mem_cons_self
        exact absurd (ended y rfl) (not_or.mpr inside)

/-! ## What is announced -/

/-- What comes next announces how reading goes on, if it announces anything but `none`. Two
characters tell, and no blank starts with them. -/
structure Announces {κ : Type} (announce : List Char → κ) (none : κ) : Prop where
  two : ∀ ⦃text⦄, announce text ≠ none → ∃ x y more, text = x :: y :: more
  stable : ∀ x y more more', announce (x :: y :: more') = announce (x :: y :: more)
  solid : ∀ ⦃text⦄, announce text ≠ none → ∀ breaks, IsUndone (blank breaks) text

/-- Two characters behind a term announce how its expression goes on. -/
theorem announces_sequelOf : Announces sequelOf .nothing where
  two text announced := by
    unfold sequelOf at announced
    split at announced
    all_goals first
      | exact absurd rfl announced
      | exact ⟨_, _, _, rfl⟩
  stable := sequelOf_cons_cons
  solid _ := isUndone_blank_of_sequel

/-- Two characters behind a name announce a call. -/
theorem announces_nameSequel : Announces nameSequel .nothing where
  two text announced := by
    unfold nameSequel at announced
    split at announced
    · exact ⟨_, _, _, rfl⟩
    · exact ⟨_, _, _, rfl⟩
    · exact absurd rfl announced
  stable := nameSequel_cons_cons
  solid text announced breaks := by
    unfold nameSequel at announced
    split at announced
    · exact isUndone_blank breaks (forall_mem_head?_cons (by decide) _)
    · exact isUndone_blank breaks (forall_mem_head?_cons (by decide) _)
    · exact absurd rfl announced

section Announcements

variable {κ : Type} {announce : List Char → κ} {none : κ} (announces : Announces announce none)
include announces

/-- What two characters announce does not depend on what follows them. -/
theorem Announces.append {text : List Char} (announced : announce text ≠ none)
    (more : List Char) : announce (text ++ more) = announce text := by
  obtain ⟨x, y, rest, rfl⟩ := announces.two announced
  exact announces.stable x y rest (rest ++ more)

/-- In a line what is announced behind blanks is announced whether line breaks are blanks or not. -/
theorem Announces.rest_afterBlanks {text rest : List Char} (are : AreBlanks front)
    (announced : announce rest ≠ none) (same : text = front ++ rest) (offset : Nat) :
    (afterBlanks breaks ⟨text, offset⟩).rest = rest := by
  subst same
  have blanks : Reads (skip breaks) (front ++ rest) (fun _ => True) rest :=
    are (announces.solid announced)
  obtain ⟨_, next, skipped, _⟩ := blanks offset
  rw [afterBlanks_of_skip skipped]

/-- What a line announces that was cut off is announced in the whole text. -/
theorem Announces.of_cut (line : InLine kept) (here : c.rest = kept ++ cut) (here' : c'.rest = kept)
    (announced : announce (afterBlanks breaks' c').rest ≠ none) :
    announce (afterBlanks breaks c).rest = announce (afterBlanks breaks' c').rest := by
  have skipped := skip_eq_read_afterBlanks breaks' c'
  generalize afterBlanks breaks' c' = next at announced skipped ⊢
  obtain ⟨blanks, passes⟩ := leadsTo_of_advances (fun _ => advances_skip _) skipped
  obtain rfl : kept = blanks ++ next.rest := here'.symm.trans passes.1
  obtain ⟨_, _, _, two⟩ := announces.two announced
  have are := areBlanks_of_skip skipped passes (inLine_append.mp line).1 (by rw [two]; nofun)
  have same := announces.append announced cut
  obtain ⟨rest, offset⟩ := c
  rw [announces.rest_afterBlanks are (same ▸ announced)
    (here.trans (List.append_assoc blanks next.rest cut)), same]

/-- What lies in the line is announced in it, if both of its characters do. -/
theorem Announces.inside (line : InLine blanks) (passes : c.Passes blanks (afterBlanks breaks c))
    {x y : Char} {more : List Char} (here : (afterBlanks breaks c).rest = x :: y :: more ++ cut)
    (here' : c'.rest = blanks ++ x :: y :: more)
    (announced : announce (afterBlanks breaks c).rest ≠ none) :
    announce (afterBlanks breaks' c').rest = announce (afterBlanks breaks c).rest := by
  have are := areBlanks_of_skip (skip_eq_read_afterBlanks breaks c) passes line
    (by rw [here]; nofun)
  have same : announce (x :: y :: more) = announce (afterBlanks breaks c).rest :=
    here ▸ announces.stable x y (more ++ cut) more
  obtain ⟨rest, offset⟩ := c'
  rw [announces.rest_afterBlanks are (same ▸ announced) here', same]

/-- A line that was cut off announces what the whole text does, if in the whole text what is
announced takes two characters of the line. -/
theorem Announces.alike (line : InLine (front ++ kept)) (passes : c.Passes front next)
    (left : next.rest = kept ++ cut) (here' : c'.rest = front ++ kept)
    (takes : announce (afterBlanks breaks c).rest ≠ none →
      next.rest.length + 2 ≤ (afterBlanks breaks c).rest.length) :
    announce (afterBlanks breaks' c').rest = announce (afterBlanks breaks c).rest := by
  have here : c.rest = (front ++ kept) ++ cut := by rw [passes.1, left, List.append_assoc]
  by_cases announced : announce (afterBlanks breaks c).rest = none
  -- What the line announced would be announced in the whole text.
  · refine Classical.byContradiction fun other => other (announces.of_cut line here here' ?_).symm
    rwa [← announced]
  -- Otherwise both characters that announce it were taken, and so they lie in front of the cut.
  · have two := takes announced
    obtain ⟨blanks, forward⟩ :=
      leadsTo_of_advances (fun _ => advances_skip _) (skip_eq_read_afterBlanks breaks c)
    obtain ⟨rest, behind, rfl⟩ := Cursor.Views.exists_rest
      (show c.Views front next.rest from passes.1) forward (by omega)
    have long : 2 ≤ rest.length := by
      rw [behind, List.length_append] at two
      omega
    match rest, long with
    | x :: y :: rest, _ =>
      have inBlanks := (inLine_append.mp (inLine_append.mp line).1).1
      have same : (afterBlanks breaks c).rest = x :: y :: (rest ++ kept) ++ cut := by
        rw [behind, left, ← List.append_assoc]
        rfl
      have same' : c'.rest = blanks ++ x :: y :: (rest ++ kept) := by
        rw [here', List.append_assoc]
        rfl
      exact announces.inside inBlanks forward same same' announced

end Announcements

end Grammar

end HclLint.Hcl
