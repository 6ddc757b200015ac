/-
# Readings within a line

What a parser reads within a line another one may read off the same characters where the text is
cut behind them, or further down the line. Both parsers may differ in whether line breaks are
blanks, since a line has none. The parsers of words bear every cut, and sequences put them together.
What a sequence asks of the text that follows it is asked of its last parser, and what this one
reads tells what follows the first.

## Main definitions

* `ReadsInLine`: a parser that reads within a line what another one reads there.
* `StartsSolid`: a parser that starts with no blank.

## Main statements

* `ReadsInLine.bind`, `ReadsInLine.skip_bind`, `ReadsInLine.many1`: combinations of such parsers.
-/

import HclLint.Proofs.Hcl.Line.Blanks

namespace HclLint.Hcl

open HclLint.Text

namespace Parser

open HclLint.Hcl.Grammar

variable {α β γ : Type} {p p' : Parser α} {f f' : α → Parser β} {gist : α → γ}
  {bound : Nat} {ends before : List Char → Prop} {c next : Cursor} {front kept cut : List Char}
  {a : α}

/-- Off the front of a line the second parser reads what the first one reads there, but for what the
gist leaves out. The text of the second parser may be cut behind what was read, anywhere in the
line. In the first text something may be asked of what follows. -/
structure ReadsInLine (bound : Nat) (ends : List Char → Prop) (gist : α → γ)
    (p p' : Parser α) : Prop where
  advances : ∀ text, Advances text p
  again : ∀ ⦃c a next front kept cut⦄, p c = .read a next → c.Passes front next →
    front.length < bound → next.rest = kept ++ cut → InLine (front ++ kept) → ends next.rest →
      Reads p' (front ++ kept) (gist · = gist a) kept

/-- Less may be asked of the first text if the parser knows more of it. -/
theorem ReadsInLine.imp {ends' : List Char → Prop} (reads : ReadsInLine bound ends gist p p')
    (weaker : ∀ text, ends' text → ends text) : ReadsInLine bound ends' gist p p' :=
  ⟨reads.advances, fun _ _ _ _ _ _ read passes short left line ending =>
    reads.again read passes short left line (weaker _ ending)⟩

/-- What is read off long texts is read off shorter ones. -/
theorem ReadsInLine.mono {less : Nat} (reads : ReadsInLine bound ends gist p p')
    (fewer : less ≤ bound) : ReadsInLine less ends gist p p' :=
  ⟨reads.advances, fun _ _ _ _ _ _ read passes short =>
    reads.again read passes (Nat.lt_of_lt_of_le short fewer)⟩

/-- Nothing is shorter than nothing. -/
theorem readsInLine_zero (advances : ∀ text, Advances text p) : ReadsInLine 0 ends gist p p' :=
  ⟨advances, fun _ _ _ _ _ _ _ _ short => absurd short (Nat.not_lt_zero _)⟩

/-- A parser that bears every cut reads the same again. -/
theorem IsLocal.readsInLine (isLocal : IsLocal p) : ReadsInLine bound ends id p p := by
  refine ⟨fun text c a next _ read => ?_, fun c a next front kept cut read passes _ left _ _ => ?_⟩
  · obtain ⟨between, passes, _⟩ := isLocal read
    exact ⟨⟨between, passes⟩, trivial⟩
  · obtain ⟨between, passes', again⟩ := isLocal read
    obtain rfl := passes.eq passes'
    exact again kept cut left

/-- A value that is given without reading is given again. -/
theorem readsInLine_pure {a a' : α} (same : gist a' = gist a) :
    ReadsInLine bound ends gist (pure a) (pure a') := by
  refine ⟨fun _ => advances_pure a, fun c b next front kept cut read passes _ _ _ _ => ?_⟩
  obtain ⟨rfl, rfl⟩ := Outcome.read.inj read
  obtain rfl := passes.eq (.refl _)
  exact (reads_pure a' kept).imp fun _ given => given ▸ same

/-- A sequence is read within the line if both parsers are, where as much is left to the second one
as the first one leaves. What follows the first one is told by what the second one reads. -/
theorem ReadsInLine.bind_of_le {γ' : Type} {gist' : β → γ'} {less : Nat}
    (first : ReadsInLine bound before gist p p')
    (takes : ∀ ⦃c a next⦄, p c = .read a next →
      next.rest.length + bound ≤ c.rest.length + less)
    (second : ∀ a a', gist a' = gist a → ReadsInLine less ends gist' (f a) (f' a'))
    (link : ∀ ⦃a middle b next⦄, f a middle = .read b next → ends next.rest → before middle.rest) :
    ReadsInLine bound ends gist' (p >>= f) (p' >>= f') := by
  refine ⟨fun text => (first.advances text).bind fun a _ => (second a a rfl).advances text, ?_⟩
  intro c b next front kept cut read passes short left line ending
  obtain ⟨a, middle, taken, more⟩ := bind_eq_read_iff.mp read
  obtain ⟨begun, passed⟩ := leadsTo_of_advances first.advances taken
  obtain ⟨others, onward⟩ := leadsTo_of_advances (second a a rfl).advances more
  obtain rfl := passes.eq (passed.trans onward)
  have fewer := takes taken
  rw [passed.1, List.length_append] at fewer
  rw [List.length_append] at short
  rw [List.append_assoc] at line ⊢
  have behind : middle.rest = (others ++ kept) ++ cut := by
    rw [onward.1, left, List.append_assoc]
  have once := first.again taken passed (by omega) behind line (link more ending)
  exact once.bind fun a' same => (second a a' same).again more onward (by omega) left
    (inLine_append.mp line).2 ending

/-- A sequence is read within the line if both parsers are. -/
theorem ReadsInLine.bind {γ' : Type} {gist' : β → γ'}
    (first : ReadsInLine bound before gist p p')
    (second : ∀ a a', gist a' = gist a → ReadsInLine bound ends gist' (f a) (f' a'))
    (link : ∀ ⦃a middle b next⦄, f a middle = .read b next → ends next.rest → before middle.rest) :
    ReadsInLine bound ends gist' (p >>= f) (p' >>= f') :=
  first.bind_of_le (fun _ _ _ read => Nat.add_le_add_right
    (leadsTo_of_advances first.advances read).length_le bound) second link

/-- Where the first parser takes something of the line, less is left to the second one. -/
theorem ReadsInLine.bind_less {γ' : Type} {gist' : β → γ'}
    (first : ReadsInLine (bound + 1) before gist p p') (takes : TakesSome p)
    (second : ∀ a a', gist a' = gist a → ReadsInLine bound ends gist' (f a) (f' a'))
    (link : ∀ ⦃a middle b next⦄, f a middle = .read b next → ends next.rest → before middle.rest) :
    ReadsInLine (bound + 1) ends gist' (p >>= f) (p' >>= f') :=
  first.bind_of_le (fun c a next read => by have := takes read; omega) second link

/-- What is made of a value does not matter. -/
theorem ReadsInLine.map {γ' : Type} {gist' : β → γ'} (reads : ReadsInLine bound ends gist p p')
    (g g' : α → β) (same : ∀ a a', gist a' = gist a → gist' (g' a') = gist' (g a)) :
    ReadsInLine bound ends gist' (do return g (← p)) (do return g' (← p')) :=
  reads.bind (fun a a' gists => readsInLine_pure (same a a' gists))
    fun a middle b next made ending => by
      obtain ⟨_, rfl⟩ := Outcome.read.inj made
      exact ending

/-! ## Blanks -/

/-- What the parser reads is not nothing and starts with no blank, whatever follows it. -/
def StartsSolid (p : Parser α) : Prop :=
  ∀ ⦃c a next front⦄, p c = .read a next → c.Passes front next →
    front ≠ [] ∧ ∀ rest breaks, IsUndone (blank breaks) (front ++ rest)

/-- The first character tells that a parser starts with no blank. -/
theorem startsSolid_of_head (takes : TakesSome p)
    (solid : ∀ ⦃c a next⦄, p c = .read a next → ∀ x ∈ c.rest.head?, startsBlank x = false) :
    StartsSolid p := by
  intro c a next front read passes
  have less := takes read
  have first := solid read
  rw [passes.1] at less first
  cases front with
  | nil => exact absurd less (Nat.lt_irrefl _)
  | cons x front =>
    exact ⟨List.cons_ne_nil x front, fun rest breaks =>
      isUndone_blank breaks (forall_mem_head?_cons (first x rfl) _)⟩

/-- A sequence starts with no blank if its first parser does. -/
theorem StartsSolid.bind (solid : StartsSolid p) (first : ∀ text, Advances text p)
    (second : ∀ a text, Advances text (f a)) : StartsSolid (p >>= f) := by
  intro c b next front read passes
  obtain ⟨a, middle, taken, more⟩ := bind_eq_read_iff.mp read
  obtain ⟨begun, passed⟩ := leadsTo_of_advances first taken
  obtain ⟨onward, later⟩ := leadsTo_of_advances (second a) more
  obtain rfl := passes.eq (passed.trans later)
  obtain ⟨some, starts⟩ := solid taken passed
  refine ⟨List.append_ne_nil_of_left_ne_nil some _, fun rest breaks => ?_⟩
  rw [List.append_assoc]
  exact starts _ _

/-- What starts with no blank is not nothing. -/
theorem StartsSolid.takesSome (solid : StartsSolid p) (advances : ∀ text, Advances text p) :
    TakesSome p := by
  intro c a next read
  obtain ⟨front, passes⟩ := leadsTo_of_advances advances read
  have some := List.length_pos_iff.mpr (solid read passes).1
  rw [passes.1, List.length_append]
  omega

theorem StartsSolid.demand (solid : StartsSolid p) (complaint : Complaint) :
    StartsSolid (demand complaint p) :=
  fun _ _ _ _ read passes => solid (demand_eq_read_iff.mp read) passes

/-- Behind blanks the same is read, whether line breaks are blanks or not. -/
theorem ReadsInLine.skip_bind (onward : ReadsInLine bound ends gist p p') (solid : StartsSolid p)
    (breaks breaks' : Bool) :
    ReadsInLine bound ends gist (do skip breaks; p) (do skip breaks'; p') := by
  refine ⟨fun text => (advances_skip breaks).bind fun _ _ => onward.advances text, ?_⟩
  intro c a next front kept cut read passes short left line ending
  obtain ⟨_, middle, skipped, more⟩ := bind_eq_read_iff.mp read
  obtain ⟨blanks, passed⟩ := leadsTo_of_advances (fun _ => advances_skip breaks) skipped
  obtain ⟨others, later⟩ := leadsTo_of_advances onward.advances more
  obtain rfl := passes.eq (passed.trans later)
  rw [List.length_append] at short
  rw [List.append_assoc] at line ⊢
  obtain ⟨inBlanks, inRest⟩ := inLine_append.mp line
  obtain ⟨some, starts⟩ := solid more later
  -- Something stands behind the blanks in their line, so none of them is a comment to its end.
  have goesOn : middle.rest ≠ [] := by
    rw [later.1]
    exact List.append_ne_nil_of_left_ne_nil some _
  have are := areBlanks_of_skip skipped passed inBlanks goesOn
  exact (are (starts kept)).bind fun _ _ =>
    onward.again more later (by omega) left inRest ending

/-! ## Two characters -/

/-- Every reading takes at least two characters. -/
def TakesTwo (p : Parser α) : Prop :=
  ∀ ⦃c a next⦄, p c = .read a next → next.rest.length + 2 ≤ c.rest.length

theorem TakesTwo.takesSome (takes : TakesTwo p) : TakesSome p := by
  intro c a next read
  have two := takes read
  omega

/-- A sequence takes two characters if its first parser does. -/
theorem TakesTwo.bind (first : TakesTwo p) (second : ∀ a text, Advances text (f a)) :
    TakesTwo (p >>= f) := by
  intro c b next read
  obtain ⟨a, middle, taken, more⟩ := bind_eq_read_iff.mp read
  have less := (leadsTo_of_advances (second a) more).length_le
  have two := first taken
  omega

/-- So it does if its second parser does. -/
theorem TakesTwo.bind_right (first : ∀ text, Advances text p) (second : ∀ a, TakesTwo (f a)) :
    TakesTwo (p >>= f) := by
  intro c b next read
  obtain ⟨a, middle, taken, more⟩ := bind_eq_read_iff.mp read
  have less := (leadsTo_of_advances first taken).length_le
  have two := second a more
  omega

/-- A sequence takes two characters if both of its parsers take one. -/
theorem TakesSome.bind_takesSome (first : TakesSome p) (second : ∀ a, TakesSome (f a)) :
    TakesTwo (p >>= f) := by
  intro c b next read
  obtain ⟨a, middle, taken, more⟩ := bind_eq_read_iff.mp read
  have one := first taken
  have other := second a more
  omega

theorem TakesTwo.choice {q : Parser α} (first : TakesTwo p) (second : TakesTwo q) :
    TakesTwo (choice p q) := by
  intro c a next read
  rcases choice_eq_read_iff.mp read with read | ⟨_, read⟩
  · exact first read
  · exact second read

/-- Every reading takes at least two characters behind the blanks that come first. -/
def TakesTwoBehind (breaks : Bool) (p : Parser α) : Prop :=
  ∀ ⦃c a next⦄, p c = .read a next → next.rest.length + 2 ≤ (afterBlanks breaks c).rest.length

/-- Blanks may be skipped in front of such a parser. -/
theorem TakesTwo.behind (takes : TakesTwo p) (breaks : Bool) :
    TakesTwoBehind breaks (do skip breaks; p) := by
  intro c a next read
  obtain ⟨_, middle, skipped, more⟩ := bind_eq_read_iff.mp read
  rw [afterBlanks_of_skip skipped]
  exact takes more

theorem TakesTwoBehind.bind {breaks : Bool} (first : TakesTwoBehind breaks p)
    (second : ∀ a text, Advances text (f a)) : TakesTwoBehind breaks (p >>= f) := by
  intro c b next read
  obtain ⟨a, middle, taken, more⟩ := bind_eq_read_iff.mp read
  have less := (leadsTo_of_advances (second a) more).length_le
  have two := first taken
  omega

/-- A parser may be chosen by what is announced behind the blanks, if what it reads there shows it
again. -/
theorem readsInLine_announced {κ : Type} {announce : List Char → κ} {none : κ} {breaks : Bool}
    (announces : Announces announce none) {choices choices' : κ → Parser α}
    (each : ∀ chosen, ReadsInLine bound ends gist (choices chosen) (choices' chosen))
    (takes : ∀ chosen, chosen ≠ none → TakesTwoBehind breaks (choices chosen)) (breaks' : Bool) :
    ReadsInLine bound ends gist (fun c => choices (announce (afterBlanks breaks c).rest) c)
      (fun c => choices' (announce (afterBlanks breaks' c).rest) c) := by
  refine ⟨fun text c a next here read => (each _).advances text here read, ?_⟩
  intro c a next front kept cut read passes short left line ending offset
  have alike : announce (afterBlanks breaks' ⟨front ++ kept, offset⟩).rest =
      announce (afterBlanks breaks c).rest :=
    announces.alike line passes left rfl fun announced => takes _ announced read
  dsimp only
  rw [alike]
  exact (each _).again read passes short left line ending offset

/-! ## Repetition -/

/-- Readings that follow each other are made again, one by one. -/
theorem ReadsInLine.reads_many {as : List α} (once : ReadsInLine bound (fun _ => True) gist p p')
    (takes : TakesSome p)
    (fails : ∀ ⦃kept cut⦄, InLine kept → ends (kept ++ cut) → IsUndone p' kept)
    (repeats : Repeats p c as next) (passes : c.Passes front next) (short : front.length < bound)
    (left : next.rest = kept ++ cut) (line : InLine (front ++ kept)) (ending : ends next.rest) :
    Reads (many p') (front ++ kept) (fun as' => as'.map gist = as.map gist) kept := by
  suffices again : ∀ offset, ∃ as' last, Repeats p' ⟨front ++ kept, offset⟩ as' ⟨kept, last⟩ ∧
      as'.map gist = as.map gist by
    intro offset
    obtain ⟨as', last, repeats', same⟩ := again offset
    exact ⟨as', last, repeats'.many, same⟩
  -- By induction on the readings: behind each of them there is less of the line to read.
  induction repeats generalizing front with
  | @nil c complaint undone =>
    intro offset
    obtain rfl : front = [] := passes.eq (.refl c)
    obtain ⟨complaint', undone'⟩ := fails line (left ▸ ending) offset
    exact ⟨[], offset, .nil undone', rfl⟩
  | @cons c between next a as first _ more ih =>
    intro offset
    obtain ⟨begun, passed⟩ := leadsTo_of_advances once.advances first
    obtain ⟨others, onward⟩ := more.leadsTo once.advances
    obtain rfl := passes.eq (passed.trans onward)
    have some := takes first
    rw [passed.1, List.length_append] at some
    rw [List.length_append] at short
    rw [List.append_assoc] at line ⊢
    have behind : between.rest = (others ++ kept) ++ cut := by
      rw [onward.1, left, List.append_assoc]
    obtain ⟨a', middle, read', same⟩ :=
      once.again first passed (by omega) behind line trivial offset
    obtain ⟨as', last, repeats', sames⟩ :=
      ih onward (by omega) left (inLine_append.mp line).2 ending middle
    refine ⟨a' :: as', last, .cons read' ?_ repeats', by rw [List.map_cons, same, sames]; rfl⟩
    simp only [List.length_append]
    omega

/-- A repetition is read within the line if its parser is and comes to an end there, too. -/
theorem ReadsInLine.many1 (once : ReadsInLine bound (fun _ => True) gist p p') (takes : TakesSome p)
    (empty : IsUndone p [])
    (fails : ∀ ⦃kept cut⦄, InLine kept → ends (kept ++ cut) → IsUndone p' kept) :
    ReadsInLine bound ends (List.map gist) (many1 p) (many1 p') := by
  refine ⟨fun text => (once.advances text).many1.advances, ?_⟩
  intro c as next front kept cut read passes short left line ending
  obtain ⟨a, middle, first, more⟩ := bind_eq_read_iff.mp read
  obtain ⟨as, last, repeated, made⟩ := bind_eq_read_iff.mp more
  obtain ⟨rfl, rfl⟩ := Outcome.read.inj made
  obtain ⟨begun, passed⟩ := leadsTo_of_advances once.advances first
  obtain ⟨others, onward⟩ :=
    leadsTo_of_advances (fun text => (once.advances text).many.advances) repeated
  obtain rfl := passes.eq (passed.trans onward)
  rw [List.length_append] at short
  rw [List.append_assoc] at line ⊢
  have behind : middle.rest = (others ++ kept) ++ cut := by
    rw [onward.1, left, List.append_assoc]
  have many := once.reads_many takes fails (repeats_of_many takes empty repeated) onward (by omega)
    left (inLine_append.mp line).2 ending
  exact (once.again first passed (by omega) behind line trivial).bind fun a' same =>
    many.bind fun as' sames => (reads_pure _ kept).imp fun _ given => by
      rw [given, List.map_cons, List.map_cons, same, sames]

end Parser

end HclLint.Hcl
