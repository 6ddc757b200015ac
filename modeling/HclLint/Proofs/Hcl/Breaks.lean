/-
# Expressions that may go on in the next line

Between brackets line breaks are blanks, and so an expression may go on in the next line there,
where in a line of its own it would end. But wherever an expression or a part of it was read within
its line, what follows is told from a character in the line, and this one stands behind the same
blanks when line breaks count as well. So an expression that is read within its line is read in the
same way between brackets, unless its end is in question: nothing but blanks of the line may stand
in front of what ends it.

## Main definitions

* `SameBlanks`: a place where line breaks make no difference to the blanks that come next.
* `Level.Widens`: readers that read the same where line breaks are blanks.

## Main statements

* `extend_withBreaks`: an expression grows in the same way where line breaks are blanks.
* `widens_levelWithout`: on every level, expressions and terms are read in the same way.
-/

import HclLint.Proofs.Hcl.Window.Expression

namespace HclLint.Hcl

namespace Parser

variable {α β : Type} {p q : Parser α} {f : α → Parser β}

/-- The parser never stops the reading of the whole text. -/
def IsNeverFinal (p : Parser α) : Prop := ∀ ⦃c complaint place⦄, p c ≠ .final complaint place

/-- An undone failure is not final. -/
theorem isNeverFinal_fail : IsNeverFinal (fail : Parser α) := nofun

theorem isNeverFinal_pure (a : α) : IsNeverFinal (pure a) := by
  intro c complaint place stopped
  cases stopped

theorem isNeverFinal_satisfy (test : Char → Bool) : IsNeverFinal (satisfy test) := by
  intro c complaint place stopped
  unfold satisfy at stopped
  split at stopped
  · split at stopped
    · cases stopped
    · cases stopped
  · cases stopped

/-- A sequence stops for good only where one of its parsers does. -/
theorem IsNeverFinal.bind (first : IsNeverFinal p) (second : ∀ a, IsNeverFinal (f a)) :
    IsNeverFinal (p >>= f) := by
  intro c complaint place stopped
  rw [bind_apply] at stopped
  split at stopped
  · exact second _ stopped
  · cases stopped
  · next failed => exact first failed

theorem IsNeverFinal.choice (first : IsNeverFinal p) (second : IsNeverFinal q) :
    IsNeverFinal (choice p q) := by
  intro c complaint place stopped
  rw [Parser.choice] at stopped
  split at stopped
  · exact second stopped
  · exact first stopped

/-- A character that is read is read if another test lets it pass. -/
theorem satisfy_of_read {test test' : Char → Bool} {x : Char} {c next : Cursor}
    (read : satisfy test c = .read x next) (passes : test' x = true) :
    satisfy test' c = .read x next := by
  unfold satisfy at read ⊢
  split at read
  · split at read
    · obtain ⟨rfl, rfl⟩ := Outcome.read.inj read
      simp [passes]
    · cases read
  · cases read

end Parser

namespace Grammar

open HclLint.Text HclLint.Hcl.Parser

variable {c next middle : Cursor} {level : Level} {breaks conditionals : Bool} {setting : Setting}

/-! ## Blanks -/

/-- No blank stops the reading of a text. -/
theorem isNeverFinal_blank (breaks : Bool) : IsNeverFinal (blank breaks) := by
  have inline : IsNeverFinal inlineComment := by
    intro c complaint place stopped
    unfold inlineComment at stopped
    split at stopped
    · split at stopped
      · cases stopped
      · cases stopped
    · cases stopped
  have toEnd : IsNeverFinal lineComment := by
    intro c complaint place stopped
    unfold lineComment at stopped
    split at stopped
    · cases stopped
    · cases stopped
    · cases stopped
  refine ((isNeverFinal_satisfy _).bind fun _ => isNeverFinal_pure _).choice (inline.choice ?_)
  cases breaks with
  | false => exact isNeverFinal_fail
  | true => exact toEnd

/-- Skipping blanks always comes to an end. -/
theorem skip_eq_read_afterBlanks (breaks : Bool) (c : Cursor) :
    skip breaks c = .read () (afterBlanks breaks c) := by
  have ends (n : Nat) (c : Cursor) (short : c.rest.length < n) :
      ∃ blanks next, Repeats (blank breaks) c blanks next := by
    induction n generalizing c with
    | zero => exact absurd short (Nat.not_lt_zero _)
    | succ n ih =>
      cases first : blank breaks c with
      | undone complaint => exact ⟨[], c, .nil first⟩
      | final complaint place => exact (isNeverFinal_blank breaks first).elim
      | read a between =>
        have less := takesSome_blank breaks first
        obtain ⟨blanks, next, repeats⟩ := ih between (by omega)
        exact ⟨a :: blanks, next, .cons first less repeats⟩
  obtain ⟨blanks, next, repeats⟩ := ends _ c (Nat.lt_succ_self _)
  have skipped : skip breaks c = .read () next := skip_eq_read_iff.mpr ⟨blanks, repeats⟩
  rw [afterBlanks, skipped]

/-- Line breaks make no difference to the blanks that come next. -/
def SameBlanks (c : Cursor) : Prop := afterBlanks true c = afterBlanks false c

/-- There are no blanks at the end of a text. -/
theorem sameBlanks_nil (offset : Nat) : SameBlanks ⟨[], offset⟩ := rfl

/-- A blank within a line is one where line breaks count as well. -/
theorem blank_true_of_false {a : Unit} (read : blank false c = .read a next) :
    blank true c = .read a next := by
  rcases choice_eq_read_iff.mp read with read | ⟨_, read⟩
  · obtain ⟨x, between, taken, made⟩ := bind_eq_read_iff.mp read
    have space : isSpace x = true := by simpa using passing_of_satisfy taken
    exact choice_eq_read_iff.mpr (.inl
      (bind_eq_read_iff.mpr ⟨x, between, satisfy_of_read taken (by simp [space]), made⟩))
  rcases choice_eq_read_iff.mp read with read | ⟨_, read⟩
  · obtain ⟨inside, passed, _⟩ := inlineComment_eq_read read
    have noSpace : IsUndone (do
        let _ ← satisfy fun x => isSpace x || (true && (x == '\r' || x == '\n')) : Parser Unit)
        ('/' :: '*' :: (inside ++ next.rest)) :=
      (isUndone_satisfy (forall_mem_head?_cons (by decide) _)).bind _
    exact choice_eq_read_iff.mpr
      (.inr ⟨noSpace.at passed.1, choice_eq_read_iff.mpr (.inl read)⟩)
  · cases read

/-- Where no blank comes behind the blanks of the line, no line break does. -/
theorem sameBlanks_of_isUndone (undone : IsUndone (blank true) (afterBlanks false c).rest) :
    SameBlanks c := by
  obtain ⟨blanks, repeats⟩ := skip_eq_read_iff.mp (skip_eq_read_afterBlanks false c)
  have again : Repeats (blank true) c blanks (afterBlanks false c) := by
    generalize afterBlanks false c = last at repeats undone
    induction repeats with
    | nil => exact .nil (undone _).choose_spec
    | cons read less _ ih => exact .cons (blank_true_of_false read) less (ih undone)
  have skipped : skip true c = .read () (afterBlanks false c) := skip_eq_read_iff.mpr ⟨_, again⟩
  rw [SameBlanks, afterBlanks, skipped]

/-- Line breaks make no difference in front of a solid character of the line. -/
theorem sameBlanks_of_solid
    (solid : ∀ x ∈ (afterBlanks false c).rest.head?, startsBlank x = false) : SameBlanks c :=
  sameBlanks_of_isUndone (isUndone_blank true solid)

/-- They make none in front of what is announced, since this is solid. -/
theorem sameBlanks_of_sequel (announced : sequelOf (afterBlanks false c).rest ≠ .nothing) :
    SameBlanks c :=
  sameBlanks_of_isUndone (isUndone_blank_of_sequel announced true)

/-- The same is skipped where line breaks make no difference. -/
theorem SameBlanks.skip (same : SameBlanks c) : skip true c = skip false c := by
  rw [skip_eq_read_afterBlanks, skip_eq_read_afterBlanks, same]

/-- What is read behind the blanks is the same. -/
theorem SameBlanks.skip_bind {β : Type} (same : SameBlanks c) (f : Unit → Parser β) :
    (Grammar.skip true >>= f) c = (Grammar.skip false >>= f) c := by
  rw [bind_apply, bind_apply, same.skip]

/-- The cursor behind the blanks is where skipping them ends. -/
theorem afterBlanks_of_skip {a : Unit} (skipped : skip breaks c = .read a next) :
    afterBlanks breaks c = next := by
  rw [afterBlanks, skipped]

/-- Blanks in front of a character that is none are the same, and they are skipped. -/
theorem skip_true_of_solid {a : Unit} (skipped : skip false c = .read a next)
    (solid : ∀ x ∈ next.rest.head?, startsBlank x = false) :
    SameBlanks c ∧ skip true c = .read a next := by
  have same : SameBlanks c := sameBlanks_of_solid (afterBlanks_of_skip skipped ▸ solid)
  exact ⟨same, same.skip.trans skipped⟩

/-- A word that was read tells what the text starts with. -/
theorem solid_of_word {w : List Char} {a : Unit} (read : word w c = .read a next)
    (solid : w.head?.map startsBlank = some false) :
    ∀ x ∈ c.rest.head?, startsBlank x = false := by
  cases w with
  | nil => cases solid
  | cons x w =>
    rw [(passes_word read).1]
    exact forall_mem_head?_cons (by simpa using solid) _

theorem solid_of_char {x y : Char} (read : char x c = .read y next)
    (solid : startsBlank x = false) : ∀ x ∈ c.rest.head?, startsBlank x = false := by
  rw [(passes_char read).1]
  exact forall_mem_head?_cons solid _

/-! ## What an expression grows by -/

/-- What is read within a line is read in the same way where line breaks are blanks, unless its end
is in question. -/
structure Level.Widens (level : Level) : Prop where
  solid : ∀ {setting c e next}, level.expr setting c = .read e next →
    ∀ x ∈ c.rest.head?, startsBlank x = false
  expr : ∀ {conditionals c e next}, level.expr ⟨false, conditionals⟩ c = .read e next →
    SameBlanks next → level.expr ⟨true, conditionals⟩ c = .read e next
  /-- A term may also end at a bracket, where line breaks are blanks from then on. -/
  term : ∀ {conditionals c a next}, level.term ⟨false, conditionals⟩ c = .read a next →
    (a.2.breaks = false → SameBlanks next) →
      level.term ⟨true, conditionals⟩ c = .read (a.1, a.2.withBreaks) next

/-- A step that was read in its line stands behind blanks of the line. -/
theorem solid_of_step {a : Step} (read : step level false c = .read a next) : SameBlanks c := by
  obtain ⟨_, start, skipped, taken⟩ := bind_eq_read_iff.mp read
  refine (skip_true_of_solid skipped ?_).1
  split at taken
  · cases taken
  · rcases choice_eq_read_iff.mp taken with taken | ⟨_, taken⟩
    · obtain ⟨_, _, dot, _⟩ := bind_eq_read_iff.mp taken
      exact solid_of_char dot (by decide)
    · obtain ⟨_, _, bracket, _⟩ := bind_eq_read_iff.mp taken
      exact solid_of_char bracket (by decide)

theorem step_of_sameBlanks (same : SameBlanks c) : step level true c = step level false c :=
  same.skip_bind _

/-- Every step but a last one that is missing was read in its line, and so it is read again. -/
theorem steps_withBreaks (sound : ∀ text, level.IsSound text (·.IsIn text)) {path : List Step}
    (last : SameBlanks next) (read : many1 (step level false) c = .read path next) :
    many1 (step level true) c = .read path next := by
  obtain ⟨first, start, taken, more⟩ := bind_eq_read_iff.mp read
  obtain ⟨others, behind, repeated, made⟩ := bind_eq_read_iff.mp more
  obtain ⟨rfl, rfl⟩ := Outcome.read.inj made
  have repeats := repeats_of_many (takesSome_step sound false)
    (isUndone_step level false endsReference_nil) repeated
  have again : Repeats (step level true) start others behind := by
    clear read more repeated made taken
    induction repeats with
    | nil undone => exact .nil ((step_of_sameBlanks last).trans undone)
    | cons read less _ ih =>
      exact .cons ((step_of_sameBlanks (solid_of_step read)).trans read) less (ih last)
  exact bind_eq_read_iff.mpr ⟨first, start, (step_of_sameBlanks (solid_of_step taken)).trans taken,
    bind_eq_read_iff.mpr ⟨others, behind, again.many, rfl⟩⟩

section Growth

variable (widens : level.Widens) {e a : Expr} {form : Form}
include widens

/-- The signs of a conditional stand in its line, and each branch ends there. -/
theorem conditionalRest_withBreaks (here : SameBlanks c) (last : SameBlanks next)
    (read : conditionalRest level ⟨false, conditionals⟩ e c = .read form next) :
    conditionalRest level ⟨true, conditionals⟩ e c = .read form next := by
  obtain ⟨_, c₁, skipped₁, read⟩ := bind_eq_read_iff.mp read
  obtain ⟨_, c₂, mark, read⟩ := bind_eq_read_iff.mp read
  obtain ⟨_, c₃, skipped₂, read⟩ := bind_eq_read_iff.mp read
  obtain ⟨yes, c₄, taken, read⟩ := bind_eq_read_iff.mp read
  obtain ⟨_, c₅, skipped₃, read⟩ := bind_eq_read_iff.mp read
  obtain ⟨_, c₆, colon, read⟩ := bind_eq_read_iff.mp read
  obtain ⟨_, c₇, skipped₄, read⟩ := bind_eq_read_iff.mp read
  obtain ⟨no, c₈, taken', made⟩ := bind_eq_read_iff.mp read
  obtain ⟨rfl, rfl⟩ := Outcome.read.inj made
  obtain ⟨_, again₂⟩ := skip_true_of_solid skipped₂ (widens.solid taken)
  obtain ⟨same, again₃⟩ :=
    skip_true_of_solid skipped₃ (solid_of_word (demand_eq_read_iff.mp colon) (by decide))
  obtain ⟨_, again₄⟩ := skip_true_of_solid skipped₄ (widens.solid taken')
  exact bind_eq_read_iff.mpr ⟨_, c₁, here.skip.trans skipped₁, bind_eq_read_iff.mpr ⟨_, c₂, mark,
    bind_eq_read_iff.mpr ⟨_, c₃, again₂, bind_eq_read_iff.mpr ⟨yes, c₄, widens.expr taken same,
      bind_eq_read_iff.mpr ⟨_, c₅, again₃, bind_eq_read_iff.mpr ⟨_, c₆, colon,
        bind_eq_read_iff.mpr ⟨_, c₇, again₄, bind_eq_read_iff.mpr ⟨no, _,
          widens.expr taken' last, rfl⟩⟩⟩⟩⟩⟩⟩⟩

theorem operatorRest_withBreaks (here : SameBlanks c) (last : SameBlanks next)
    (read : operatorRest level ⟨false, conditionals⟩ e c = .read form next) :
    operatorRest level ⟨true, conditionals⟩ e c = .read form next := by
  obtain ⟨_, c₁, skipped₁, read⟩ := bind_eq_read_iff.mp read
  obtain ⟨op, c₂, sign, read⟩ := bind_eq_read_iff.mp read
  obtain ⟨_, c₃, skipped₂, read⟩ := bind_eq_read_iff.mp read
  obtain ⟨right, c₄, taken, made⟩ := bind_eq_read_iff.mp read
  obtain ⟨rfl, rfl⟩ := Outcome.read.inj made
  obtain ⟨_, again₂⟩ := skip_true_of_solid skipped₂ (widens.solid taken)
  exact bind_eq_read_iff.mpr ⟨_, c₁, here.skip.trans skipped₁, bind_eq_read_iff.mpr ⟨op, c₂, sign,
    bind_eq_read_iff.mpr ⟨_, c₃, again₂, bind_eq_read_iff.mpr ⟨right, _,
      widens.expr taken last, rfl⟩⟩⟩⟩

/-- An expression grows in the same way where line breaks are blanks. -/
theorem extend_withBreaks (sound : ∀ text, level.IsSound text (·.IsIn text)) {first : Cursor}
    {grows : Bool} {limit : List Char} (last : SameBlanks next)
    (read : extend level first grows limit ⟨false, conditionals⟩ e c = .read a next) :
    SameBlanks c ∧ extend level first grows limit ⟨true, conditionals⟩ e c = .read a next := by
  induction limit generalizing conditionals e c with
  | nil =>
    obtain ⟨rfl, rfl⟩ := Outcome.read.inj read
    exact ⟨last, rfl⟩
  | cons x limit ih =>
    have same : SameBlanks c := by
      by_cases announced : sequelOf (afterBlanks false c).rest = .nothing
      · rw [extend] at read
        simp only [announced] at read
        obtain ⟨_, rfl⟩ := Outcome.read.inj read
        exact last
      · exact sameBlanks_of_sequel announced
    refine ⟨same, ?_⟩
    rw [extend] at read ⊢
    dsimp only at read ⊢
    rw [same]
    split at read
    · exact read
    · obtain ⟨path, middle, steps, more⟩ := bind_eq_read_iff.mp read
      obtain ⟨e', between, grown, onward⟩ := bind_eq_read_iff.mp more
      obtain ⟨_, rfl⟩ := Outcome.read.inj grown
      obtain ⟨there, again⟩ := ih onward
      exact bind_eq_read_iff.mpr ⟨path, _, steps_withBreaks sound there steps,
        bind_eq_read_iff.mpr ⟨e', _, grown, again⟩⟩
    · split at read
      · next yes =>
        obtain ⟨form, middle, rest, grown⟩ := bind_eq_read_iff.mp read
        obtain ⟨_, rfl⟩ := Outcome.read.inj grown
        rw [if_pos yes]
        exact bind_eq_read_iff.mpr
          ⟨form, _, conditionalRest_withBreaks widens same last rest, grown⟩
      · next no =>
        rw [if_neg no]
        exact read
    · obtain ⟨form, middle, rest, more⟩ := bind_eq_read_iff.mp read
      obtain ⟨e', between, grown, onward⟩ := bind_eq_read_iff.mp more
      obtain ⟨_, rfl⟩ := Outcome.read.inj grown
      obtain ⟨there, again⟩ := ih onward
      exact bind_eq_read_iff.mpr ⟨form, _, operatorRest_withBreaks widens same there rest,
        bind_eq_read_iff.mpr ⟨e', _, grown, again⟩⟩

end Growth

/-! ## Terms -/

theorem withBreaks_of_breaks (ended : setting.breaks = true) : setting.withBreaks = setting := by
  obtain ⟨breaks, conditionals⟩ := setting
  obtain rfl : breaks = true := ended
  rfl

section Names

variable {names : List String} {name : String}

/-- A further name of a call is told by two colons in its line. -/
theorem namespacePart_withBreaks (read : namespacePart false c = .read name next) :
    SameBlanks c ∧ namespacePart true c = .read name next := by
  obtain ⟨_, c₁, skipped₁, read⟩ := bind_eq_read_iff.mp read
  obtain ⟨_, c₂, colons, read⟩ := bind_eq_read_iff.mp read
  obtain ⟨_, c₃, skipped₂, named⟩ := bind_eq_read_iff.mp read
  obtain ⟨same, again₁⟩ := skip_true_of_solid skipped₁ (solid_of_word colons (by decide))
  have solid : ∀ x ∈ c₃.rest.head?, startsBlank x = false := by
    have named := demand_eq_read_iff.mp named
    obtain ⟨first, more, letters, start⟩ := exists_toList_cons (isIdentifier_of_read named)
    rw [(passes_identifier named).1, letters]
    exact forall_mem_head?_cons (startsBlank_of_isIdentifierStart start) _
  obtain ⟨_, again₂⟩ := skip_true_of_solid skipped₂ solid
  exact ⟨same, bind_eq_read_iff.mpr ⟨_, c₁, again₁, bind_eq_read_iff.mpr ⟨_, c₂, colons,
    bind_eq_read_iff.mpr ⟨_, c₃, again₂, named⟩⟩⟩⟩

/-- Where none follows in the line, none follows with the same blanks. -/
theorem isUndone_namespacePart_withBreaks {complaint : Complaint} (same : SameBlanks c)
    (undone : namespacePart false c = .undone complaint) :
    namespacePart true c = .undone complaint := by
  rcases bind_eq_undone_iff.mp undone with failed | ⟨_, between, skipped, failed⟩
  · exact (isNeverUndone_skip false failed).elim
  rcases bind_eq_undone_iff.mp failed with failed | ⟨_, _, _, failed⟩
  · rw [namespacePart, same.skip_bind]
    exact bind_eq_undone_iff.mpr (.inr ⟨_, between, skipped, bind_eq_undone_iff.mpr (.inl failed)⟩)
  · exact ((isNeverUndone_skip false).bind (fun _ => isNeverUndone_demand _ _) failed).elim

theorem namespaceParts_withBreaks (last : SameBlanks next)
    (read : many1 (namespacePart false) c = .read names next) :
    many1 (namespacePart true) c = .read names next := by
  obtain ⟨first, start, taken, more⟩ := bind_eq_read_iff.mp read
  obtain ⟨others, behind, repeated, made⟩ := bind_eq_read_iff.mp more
  obtain ⟨rfl, rfl⟩ := Outcome.read.inj made
  have repeats :=
    repeats_of_many (takesSome_namespacePart _) (isUndone_namespacePart_nil _) repeated
  have again : Repeats (namespacePart true) start others behind := by
    clear read more repeated made taken
    induction repeats with
    | nil undone => exact .nil (isUndone_namespacePart_withBreaks last undone)
    | cons read less _ ih => exact .cons (namespacePart_withBreaks read).2 less (ih last)
  exact bind_eq_read_iff.mpr ⟨first, start, (namespacePart_withBreaks taken).2,
    bind_eq_read_iff.mpr ⟨others, behind, again.many, rfl⟩⟩

/-- A call reads its arguments with line breaks in either case. -/
theorem callBehind_withBreaks {a : Form × Setting}
    (read : callBehind level ⟨false, conditionals⟩ names c = .read a next) :
    SameBlanks c ∧ a.2.breaks = true ∧
      callBehind level ⟨true, conditionals⟩ names c = .read a next := by
  obtain ⟨_, start, skipped, more⟩ := bind_eq_read_iff.mp read
  obtain ⟨given, last, taken, made⟩ := bind_eq_read_iff.mp more
  obtain ⟨_, _, opening, _⟩ := bind_eq_read_iff.mp taken
  obtain ⟨same, again⟩ :=
    skip_true_of_solid skipped (solid_of_word (demand_eq_read_iff.mp opening) (by decide))
  obtain ⟨rfl, rfl⟩ := Outcome.read.inj made
  exact ⟨same, rfl, bind_eq_read_iff.mpr ⟨_, start, again,
    bind_eq_read_iff.mpr ⟨given, _, taken, rfl⟩⟩⟩

/-- A name and a call are read in the same way, if a name ends in front of the same blanks. -/
theorem nameOrCall_withBreaks {a : Form × Setting}
    (read : nameOrCall level ⟨false, conditionals⟩ c = .read a next)
    (last : a.2.breaks = false → SameBlanks next) :
    nameOrCall level ⟨true, conditionals⟩ c = .read (a.1, a.2.withBreaks) next := by
  rw [nameOrCall_eq] at read ⊢
  obtain ⟨name, middle, named, read⟩ := bind_eq_read_iff.mp read
  refine bind_eq_read_iff.mpr ⟨name, middle, named, ?_⟩
  -- What is announced is the same if the blanks are.
  suffices again : SameBlanks middle ∧ ∀ sequel,
      nameSequel (afterBlanks false middle).rest = sequel →
        nameBehind level ⟨true, conditionals⟩ name sequel middle =
          .read (a.1, a.2.withBreaks) next by
    dsimp only
    rw [again.1]
    exact again.2 _ rfl
  dsimp only at read
  cases announced : nameSequel (afterBlanks false middle).rest with
  | names =>
    rw [announced] at read
    obtain ⟨more, between, parts, call⟩ := bind_eq_read_iff.mp read
    obtain ⟨_, _, first, _⟩ := bind_eq_read_iff.mp parts
    obtain ⟨there, ended, again⟩ := callBehind_withBreaks call
    refine ⟨(namespacePart_withBreaks first).1, ?_⟩
    rintro _ rfl
    rw [withBreaks_of_breaks ended]
    exact bind_eq_read_iff.mpr ⟨more, between, namespaceParts_withBreaks there parts, again⟩
  | call =>
    rw [announced] at read
    obtain ⟨same, ended, again⟩ := callBehind_withBreaks read
    refine ⟨same, ?_⟩
    rintro _ rfl
    rw [withBreaks_of_breaks ended]
    exact again
  | nothing =>
    rw [announced] at read
    obtain ⟨rfl, rfl⟩ := Outcome.read.inj read
    refine ⟨last rfl, ?_⟩
    rintro _ rfl
    rfl

end Names

/-- What a term is read with reads the same where line breaks are blanks. -/
def FormWidens (p p' : Parser (Form × Setting)) : Prop :=
  ∀ ⦃c a next⦄, p c = .read a next → (a.2.breaks = false → SameBlanks next) →
    p' c = .read (a.1, a.2.withBreaks) next

/-- A term that does not ask for line breaks reads the same with them. -/
theorem formWidens_paired (p : Parser Form) {setting setting' : Setting}
    (same : setting' = setting.withBreaks) :
    FormWidens (do return (← p, setting)) (do return (← p, setting')) := by
  intro c a next read _
  obtain ⟨form, middle, taken, made⟩ := bind_eq_read_iff.mp read
  obtain ⟨rfl, rfl⟩ := Outcome.read.inj made
  exact bind_eq_read_iff.mpr ⟨form, _, taken, by rw [same]; rfl⟩

theorem FormWidens.choice {p p' q q' : Parser (Form × Setting)} (first : FormWidens p p')
    (undone : ∀ {c complaint}, p c = .undone complaint → ∃ complaint, p' c = .undone complaint)
    (second : FormWidens q q') : FormWidens (choice p q) (choice p' q') := by
  intro c a next read last
  rcases choice_eq_read_iff.mp read with read | ⟨⟨_, failed⟩, read⟩
  · exact choice_eq_read_iff.mpr (.inl (first read last))
  · exact choice_eq_read_iff.mpr (.inr ⟨undone failed, second read last⟩)

/-- An object is read in the same way, as its braces settle what counts as a blank. -/
theorem formWidens_object (level : Level) : FormWidens (objectForm level ⟨false, conditionals⟩)
    (objectForm level ⟨true, conditionals⟩) := by
  intro c a next read _
  obtain ⟨_, start, brace, more⟩ := bind_eq_read_iff.mp read
  obtain ⟨result, last, inside, more⟩ := bind_eq_read_iff.mp more
  obtain ⟨_, _, closing, made⟩ := bind_eq_read_iff.mp more
  obtain ⟨rfl, rfl⟩ := Outcome.read.inj made
  refine bind_eq_read_iff.mpr ⟨_, start, brace, bind_eq_read_iff.mpr ⟨_, last, ?_,
    bind_eq_read_iff.mpr ⟨_, _, closing, rfl⟩⟩⟩
  split at inside
  · next starts =>
    rw [if_pos starts]
    obtain ⟨form, _, taken, made⟩ := bind_eq_read_iff.mp inside
    obtain ⟨rfl, rfl⟩ := Outcome.read.inj made
    exact bind_eq_read_iff.mpr ⟨form, _, taken, rfl⟩
  · next other =>
    rw [if_neg other]
    obtain ⟨form, _, taken, made⟩ := bind_eq_read_iff.mp inside
    obtain ⟨rfl, rfl⟩ := Outcome.read.inj made
    exact bind_eq_read_iff.mpr ⟨form, _, taken, rfl⟩

section Terms

variable (widens : level.Widens)
include widens

/-- A sign and the blanks behind it stand in one line anyway. -/
theorem formWidens_signed (sign : Char) (op : UnaryOp) :
    FormWidens (signed level ⟨false, conditionals⟩ sign op)
      (signed level ⟨true, conditionals⟩ sign op) := by
  intro c a next read last
  obtain ⟨_, start, mark, more⟩ := bind_eq_read_iff.mp read
  obtain ⟨_, middle, skipped, more⟩ := bind_eq_read_iff.mp more
  obtain ⟨⟨operand, after⟩, _, taken, made⟩ := bind_eq_read_iff.mp more
  obtain ⟨rfl, rfl⟩ := Outcome.read.inj made
  exact bind_eq_read_iff.mpr ⟨_, start, mark, bind_eq_read_iff.mpr ⟨_, middle, skipped,
    bind_eq_read_iff.mpr ⟨_, _, widens.term taken last, rfl⟩⟩⟩

/-- What a first character opens has its counterpart where line breaks are blanks. -/
theorem exists_formWidens {x : Char} {p : Parser (Form × Setting)}
    (reads : ReadsTerm level ⟨false, conditionals⟩ x p) :
    ∃ p', ReadsTerm level ⟨true, conditionals⟩ x p' ∧ FormWidens p p' := by
  cases reads with
  | quoted => exact ⟨_, .quoted, formWidens_paired _ rfl⟩
  | list => exact ⟨_, .list, formWidens_paired _ rfl⟩
  | object => exact ⟨_, .object, formWidens_object level⟩
  | heredoc => exact ⟨_, .heredoc, formWidens_paired _ rfl⟩
  | parens => exact ⟨_, .parens, formWidens_paired _ rfl⟩
  | negative =>
    refine ⟨_, .negative, (formWidens_paired _ rfl).choice ?_ (formWidens_signed widens _ _)⟩
    intro c complaint undone
    rcases bind_eq_undone_iff.mp undone with failed | ⟨_, _, _, ⟨⟩⟩
    exact ⟨complaint, bind_eq_undone_iff.mpr (.inl failed)⟩
  | negation => exact ⟨_, .negation, formWidens_signed widens _ _⟩
  | number digit => exact ⟨_, .number digit, formWidens_paired _ rfl⟩
  | name start => exact ⟨_, .name start, fun _ _ _ => nameOrCall_withBreaks⟩

/-- A term is read in the same way where line breaks are blanks. -/
theorem termAt_withBreaks {a : Expr × Setting}
    (read : termAt level ⟨false, conditionals⟩ c = .read a next)
    (last : a.2.breaks = false → SameBlanks next) :
    termAt level ⟨true, conditionals⟩ c = .read (a.1, a.2.withBreaks) next := by
  obtain ⟨x, p, first, reads, marked⟩ := exists_readsTerm read
  obtain ⟨p', reads', same⟩ := exists_formWidens widens reads
  obtain ⟨_, offset⟩ := c
  obtain ⟨rest, rfl⟩ := List.head?_eq_some_iff.mp first
  rw [termAt_of_readsTerm reads']
  obtain ⟨form, after, taken, rfl⟩ := markedWith_eq_read_iff.mp marked
  exact markedWith_eq_read_iff.mpr ⟨form, after.withBreaks, same taken last, rfl⟩

end Terms

/-! ## Levels -/

theorem solid_of_termAt {a : Expr × Setting} (read : termAt level setting c = .read a next) :
    ∀ x ∈ c.rest.head?, startsBlank x = false := by
  obtain ⟨x, p, first, reads, _⟩ := exists_readsTerm read
  intro y head
  obtain rfl := Option.some.inj (first.symm.trans head)
  exact startsBlank_of_startsTerm (startsTerm_of_readsTerm reads)

/-- On every level, what is read within a line is read in the same way where line breaks are
blanks. -/
theorem widens_levelWithout (refused : Form → Bool) (depth : Nat) :
    (levelWithout refused depth).Widens := by
  have solid (depth : Nat) {setting : Setting} {c next : Cursor} {a : Expr × Setting}
      (read : (levelWithout refused depth).term setting c = .read a next) :
      ∀ x ∈ c.rest.head?, startsBlank x = false := by
    cases depth with
    | zero => cases read
    | succ depth => exact solid_of_termAt (refusing_eq_read_iff.mp read).1
  induction depth with
  | zero => exact ⟨nofun, nofun, nofun⟩
  | succ depth ih =>
    refine ⟨fun read => ?_, fun read last => ?_, fun read last => ?_⟩
    · obtain ⟨a, _, term, _⟩ := bind_eq_read_iff.mp read
      exact solid depth term
    · obtain ⟨⟨e, breaks, after⟩, middle, term, grows⟩ := bind_eq_read_iff.mp read
      cases breaks with
      | false =>
        obtain ⟨same, again⟩ := extend_withBreaks ih
          (fun text => isSound_levelWithout (isAcquired_isIn text) refused depth) last grows
        exact bind_eq_read_iff.mpr ⟨_, middle, ih.term term fun _ => same, again⟩
      | true => exact bind_eq_read_iff.mpr ⟨_, middle, ih.term term nofun, grows⟩
    · obtain ⟨read, allowed⟩ := refusing_eq_read_iff.mp read
      exact refusing_eq_read_iff.mpr ⟨termAt_withBreaks ih read last, allowed⟩

end Grammar

end HclLint.Hcl
