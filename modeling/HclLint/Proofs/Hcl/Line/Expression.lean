/-
# Expressions within a line

An expression grows within its line by what it grows by in the whole text, since each step and each
operator takes the characters that announce it. Where the line is cut behind the expression nothing
else is announced: what a line announces is announced in the whole text as well.

A number at the start of an expression may end at a point that is that of a step. It is told from a
number with a fraction only by the exponent that follows, and where nothing that goes on with a
number follows the expression there is none.

## Main definitions

* `GrowsInLine`: two ways to grow within a line that take the same characters.

## Main statements

* `lacksScale_of_extended`: a number that an expression starts with ends where it ends by itself.
* `readsInLine_exprAt`: an expression is read within its line.
* `agreesInLine_levelWithout`: so it is on every level that is deep enough for the line.
* `exists_readExpr_of_inLine`: in a text without heredocs an expression in one line is read alone.
-/

import HclLint.Proofs.Hcl.Line.Step

namespace HclLint.Hcl

open HclLint.Text

/-- A reading leaves what every reading of the text leaves. -/
theorem Parser.Reads.rest_eq {α : Type} {p : Parser α} {text rest : List Char} {holds : α → Prop}
    {c next : Cursor} {a : α} (reads : Reads p text holds rest) (here : c.rest = text)
    (read : p c = .read a next) : next.rest = rest := by
  obtain ⟨_, offset⟩ := c
  obtain rfl : _ = text := here
  obtain ⟨_, _, again, _⟩ := reads offset
  obtain ⟨_, rfl⟩ := Outcome.read.inj (read.symm.trans again)
  rfl

namespace Grammar

open HclLint.Hcl.Parser

variable {bound : Nat} {level level' : Level} {setting setting' : Setting} {conditionals : Bool}
  {breaks : Bool} {c c' first first' next last : Cursor} {front kept cut text : List Char}
  {e e' a : Expr}

/-! ## Where the numbers of an expression end -/

/-- No number goes on with a sign that announces something. -/
theorem endsNumber_of_announced (announced : sequelOf text ≠ .nothing) : EndsNumber text := by
  intro x head
  refine Bool.eq_false_iff.mpr fun goesOn => announced ?_
  have other : ∀ y : Char, goesOnNumber y = false → x ≠ y := by
    rintro y none rfl
    exact Bool.false_ne_true (none.symm.trans goesOn)
  obtain ⟨more, rfl⟩ := List.head?_eq_some_iff.mp head
  cases more with
  | nil => simp [sequelOf]
  | cons y more =>
    simp [sequelOf, other '/' rfl, other '.' rfl, other '=' rfl, other '[' rfl, other '?' rfl,
      other '!' rfl, other '<' rfl, other '>' rfl, other '+' rfl, other '-' rfl, other '*' rfl,
      other '%' rfl, other '&' rfl, other '|' rfl]

/-- Nor with the blanks in front of such a sign. -/
theorem endsNumber_of_sequel (announced : sequelOf (afterBlanks breaks c).rest ≠ .nothing) :
    EndsNumber c.rest :=
  endsNumber_of_skip (skip_eq_read_afterBlanks breaks c) (endsNumber_of_announced announced)

/-- Nor with a step. -/
theorem endsNumber_of_step {a : Step} (read : step level breaks c = .read a next) :
    EndsNumber c.rest := by
  obtain ⟨_, middle, skipped, more⟩ := bind_eq_read_iff.mp read
  obtain ⟨x, head, sign⟩ := head_of_stepRest more
  refine endsNumber_of_skip skipped fun y head' => ?_
  obtain rfl := Option.some.inj (head.symm.trans head')
  rcases sign with rfl | rfl
  · rfl
  · rfl

/-- No exponent starts where no number goes on. -/
theorem isUndone_exponent (ending : EndsNumber text) : IsUndone exponent text := by
  refine (isUndone_satisfy fun x head => ?_).bind _
  have none := ending x head
  simp only [goesOnNumber, Bool.or_eq_false_iff] at none
  simp [none]

section Numbers

variable (sound : ∀ text, level.IsSound text (·.IsIn text))
include sound

/-- Where no number goes on behind an expression, none goes on where the expression started to
grow. -/
theorem endsNumber_of_extended
    (read : extended level first conditionals setting e c = .read a next)
    (ending : EndsNumber next.rest) : EndsNumber c.rest := by
  by_cases announced : sequelOf (afterBlanks setting.breaks c).rest = .nothing
  · have read := (extended_eq_read_iff sound).mp read
    rw [announced] at read
    obtain ⟨_, rfl⟩ := Outcome.read.inj read
    exact ending
  · exact endsNumber_of_sequel announced

/-- Nor behind the first one of several steps. -/
theorem endsNumber_of_many_step {as : List Step}
    (read : many (step level breaks) c = .read as next) (ending : EndsNumber next.rest) :
    EndsNumber c.rest := by
  have empty := isUndone_step level breaks endsReference_nil
  cases repeats_of_many (takesSome_step sound breaks) empty read with
  | nil => exact ending
  | cons first => exact endsNumber_of_step first

end Numbers

/-- The digits of a fraction and what they stand in front of. -/
theorem exists_cons_of_fraction {ds : List Char} (read : fraction c = .read ds next) :
    ∃ d more, ds = d :: more ∧ c.Passes ('.' :: ds) next ∧ (∀ x ∈ ds, x.isDigit = true) ∧
      Reads digits (ds ++ next.rest) (fun _ => True) next.rest := by
  obtain ⟨_, middle, point, taken⟩ := bind_eq_read_iff.mp read
  obtain ⟨d, start, first, more⟩ := bind_eq_read_iff.mp taken
  obtain ⟨run, _, goesOn, made⟩ := bind_eq_read_iff.mp more
  obtain ⟨rfl, rfl⟩ := Outcome.read.inj made
  have passes := (passes_satisfy first).trans (passes_many_satisfy goesOn)
  obtain ⟨between, passes', again⟩ := isLocal_digits taken
  obtain rfl := passes'.eq passes
  exact ⟨d, run, rfl, (passes_char point).trans passes, isDigit_of_digits taken,
    (again _ [] (List.append_nil _).symm).imp fun _ _ => trivial⟩

/-- An index in front of digits takes all of them, or a zero and no other digit. -/
theorem rest_of_legacyIndex {d : Char} {more rest : List Char} {n : Nat} (here : c.rest = d :: more)
    (read : legacyIndex c = .read n next) (all : Reads digits (d :: more) (fun _ => True) rest) :
    next.rest = rest ∨ next.rest = more := by
  rw [legacyIndex_eq_choice] at read
  rcases choice_eq_read_iff.mp read with zero | ⟨_, others⟩
  · obtain ⟨_, _, sign, made⟩ := bind_eq_read_iff.mp zero
    obtain ⟨_, rfl⟩ := Outcome.read.inj made
    have split := (passes_char sign).1
    rw [here] at split
    exact .inr (List.cons.inj split).2.symm
  · obtain ⟨ds, middle, taken, made⟩ := bind_eq_read_iff.mp others
    rcases read_of_ite made with made | stopped
    · obtain ⟨_, rfl⟩ := Outcome.read.inj made
      exact .inl (all.rest_eq here taken)
    · cases stopped

/-- A step in front of a fraction takes all of its digits, or a zero and no other digit. -/
theorem rest_of_step_of_fraction {ds : List Char} {a : Step} (here : c'.rest = c.rest)
    (taken : fraction c' = .read ds last) (read : step level breaks c = .read a next) :
    next.rest = last.rest ∨ ∃ d more, ds = d :: more ∧ next.rest = more ++ last.rest := by
  obtain ⟨d, more, rfl, passes, all, digitsAgain⟩ := exists_cons_of_fraction taken
  have digit := all d List.mem_cons_self
  have same : c.rest = '.' :: d :: (more ++ last.rest) := here.symm.trans passes.1
  obtain ⟨_, start, skipped, step⟩ := bind_eq_read_iff.mp read
  have unskipped : start.rest = c.rest := by
    rw [← afterBlanks_of_skip skipped]
    exact rest_afterBlanks breaks (same ▸ solid_dot _) c.offset
  rw [same] at unskipped
  -- A digit follows the point, so it is no pair of dots, and the step is an index.
  have single : startsDots start.rest = false := by
    have other : d ≠ '.' := by
      rintro rfl
      cases digit
    simp [unskipped, startsDots, other]
  rw [if_neg (Bool.eq_false_iff.mp single)] at step
  rcases choice_eq_read_iff.mp step with step | ⟨_, bracket⟩
  · rw [dotStep_eq] at step
    obtain ⟨_, behind, point, step⟩ := bind_eq_read_iff.mp step
    obtain ⟨_, middle, blanks, step⟩ := bind_eq_read_iff.mp step
    have left : behind.rest = d :: (more ++ last.rest) := by
      have split := (passes_char point).1
      rw [unskipped] at split
      exact (List.cons.inj split).2.symm
    have stays : middle.rest = d :: (more ++ last.rest) := by
      rw [← afterBlanks_of_skip blanks, ← left]
      exact rest_afterBlanks true (left ▸ forall_mem_head?_cons (startsBlank_of_isDigit digit) _)
        behind.offset
    have index : (do return Step.legacyIndex (← legacyIndex) : Parser Step) middle =
        .read a next := by
      have noStar : (d == '*') = false := by
        refine beq_false_of_ne ?_
        rintro rfl
        cases digit
      simpa [dottedRest, stays, dottedStep, noStar, digit] using step
    obtain ⟨_, _, number, made⟩ := bind_eq_read_iff.mp index
    obtain ⟨_, rfl⟩ := Outcome.read.inj made
    rcases rest_of_legacyIndex stays number digitsAgain with rest | rest
    · exact .inl rest
    · exact .inr ⟨d, more, rfl, rest⟩
  · obtain ⟨_, _, sign, _⟩ := bind_eq_read_iff.mp bracket
    have head := (passes_char sign).1
    rw [unskipped] at head
    cases head

/-- A number that an expression starts with has no exponent behind it, and no fraction with one, if
no number goes on behind the expression. -/
theorem lacksScale_of_extended (sound : ∀ text, level.IsSound text (·.IsIn text))
    (read : extended level first conditionals setting e c = .read a next)
    (ending : EndsNumber next.rest) : LacksScale c.rest := by
  refine ⟨isUndone_exponent (endsNumber_of_extended sound read ending), ?_⟩
  intro c' ds last here taken
  obtain ⟨d, more, rfl, passes, all, _⟩ := exists_cons_of_fraction taken
  -- The point of a fraction is one of a step for the expression.
  have text : c.rest = '.' :: d :: (more ++ last.rest) := here.symm.trans passes.1
  have steps : sequelOf (afterBlanks setting.breaks c).rest = .steps := by
    obtain ⟨_, offset⟩ := c
    obtain rfl := text
    have other : ∀ y : Char, y.isDigit = false → d ≠ y := by
      rintro y none rfl
      exact Bool.false_ne_true (none.symm.trans (all d List.mem_cons_self))
    rw [rest_afterBlanks _ (solid_dot _)]
    simp [sequelOf, other '.' rfl]
  have read := (extended_eq_read_iff sound).mp read
  rw [steps] at read
  obtain ⟨path, middle, path', read⟩ := bind_eq_read_iff.mp read
  obtain ⟨_, _, made, read⟩ := bind_eq_read_iff.mp read
  obtain ⟨rfl, rfl⟩ := Outcome.read.inj made
  have behind := endsNumber_of_extended sound ((extended_behind_steps sound path').mp read) ending
  obtain ⟨step, between, first, others⟩ := bind_eq_read_iff.mp path'
  obtain ⟨_, _, repeated, made⟩ := bind_eq_read_iff.mp others
  obtain ⟨_, rfl⟩ := Outcome.read.inj made
  have ended := endsNumber_of_many_step sound repeated behind
  rcases rest_of_step_of_fraction here taken first with rest | ⟨_, others, same, rest⟩
  · exact isUndone_exponent (rest ▸ ended)
  · -- Behind a zero there is no other digit, since a number would go on with it.
    obtain ⟨rfl, rfl⟩ := List.cons.inj same
    rw [rest] at ended
    cases more with
    | nil => exact isUndone_exponent ended
    | cons x more =>
      have digit := all x (List.mem_cons_of_mem _ List.mem_cons_self)
      have none := ended x rfl
      rw [goesOnNumber, digit] at none
      cases none

/-! ## Growing within a line -/

/-- Two ways to grow an expression take the same characters of a line, from cursors that the same
characters lead to. The second text may be cut behind them, anywhere in the line, if no number goes
on there in the first one. What the expressions are then is the same but for its place, if it was
before. -/
def GrowsInLine (bound : Nat) (first first' : Cursor) (p p' : Expr → Parser Expr) : Prop :=
  ∀ ⦃before front kept cut c next e a⦄, first.Passes before c → p e c = .read a next →
    c.Passes front next → front.length < bound → next.rest = kept ++ cut →
    InLine (front ++ kept) → EndsNumber next.rest →
      ∀ ⦃c' e'⦄, c'.rest = front ++ kept → first'.Passes before c' → e'.unplaced = e.unplaced →
        ∃ a' next', p' e' c' = .read a' next' ∧ next'.rest = kept ∧ a'.unplaced = a.unplaced

/-- Two expressions that grow no further have grown the same. -/
theorem growsInLine_pure (first first' : Cursor) : GrowsInLine bound first first' pure pure := by
  intro before front kept cut c next e a _ read passes _ _ _ _ c' e' here _ same
  obtain ⟨rfl, rfl⟩ := Outcome.read.inj read
  obtain rfl : front = [] := passes.eq (.refl _)
  exact ⟨e', c', rfl, here, same⟩

/-- In lines shorter than nothing everything grows the same. -/
theorem growsInLine_zero {p p' : Expr → Parser Expr} : GrowsInLine 0 first first' p p' :=
  fun _ _ _ _ _ _ _ _ _ _ _ short => absurd short (Nat.not_lt_zero _)

/-- An expression grows by a piece that is read within the line, and then goes on there. -/
theorem GrowsInLine.behind {α γ : Type} {gist : α → γ} {ends : List Char → Prop}
    {p p' : Expr → Parser α} {more more' : Expr → Parser Expr} (form : Expr → α → Form)
    (onward : GrowsInLine bound first first' more more')
    (piece : ∀ e e', e'.unplaced = e.unplaced → ReadsInLine (bound + 1) ends gist (p e) (p' e'))
    (takes : ∀ e, TakesSome (p e)) (advances : ∀ e text, Advances text (more e))
    (advances' : ∀ e text, Advances text (p' e))
    (link : ∀ ⦃e middle a next⦄, more e middle = .read a next → EndsNumber next.rest →
      ends middle.rest)
    (builds : ∀ e e' b b', e'.unplaced = e.unplaced → gist b' = gist b →
      (form e' b').unplaced = (form e b).unplaced) :
    GrowsInLine (bound + 1) first first'
      (fun e => do let b ← p e; let e ← grown first (form e b); more e)
      (fun e => do let b ← p' e; let e ← grown first' (form e b); more' e) := by
  intro before front kept cut c next e a start read passes short left line ending c' e' here start'
    same
  obtain ⟨b, between, taken, read⟩ := bind_eq_read_iff.mp read
  obtain ⟨_, _, made, read⟩ := bind_eq_read_iff.mp read
  obtain ⟨rfl, rfl⟩ := Outcome.read.inj made
  obtain ⟨passed, beyond⟩ := leadsTo_of_advances (piece e e rfl).advances taken
  obtain ⟨others, later⟩ := leadsTo_of_advances (advances _) read
  obtain rfl := passes.eq (beyond.trans later)
  have less := takes e taken
  rw [beyond.1, List.length_append] at less
  rw [List.length_append] at short
  rw [List.append_assoc] at line here
  have behind : between.rest = (others ++ kept) ++ cut := by
    rw [later.1, left, List.append_assoc]
  have once := (piece e e' same).again taken beyond (by omega) behind line (link read ending)
  obtain ⟨b', place, taken', sameGist⟩ := once c'.offset
  rw [← here] at taken'
  obtain ⟨passed', beyond'⟩ := leadsTo_of_advances (advances' e') taken'
  obtain rfl : passed = passed' := List.append_cancel_right (here.symm.trans beyond'.1)
  have whole := start'.trans beyond'
  -- Both expressions are made of the same characters.
  have sameExpr : (exprUpTo first' ⟨others ++ kept, place⟩ (form e' b')).unplaced =
      (exprUpTo first between (form e b)).unplaced := by
    refine Expr.unplaced_eq ?_ (builds e e' b b' same sameGist)
    change String.ofList _ = String.ofList _
    rw [upTo_of_passes whole, upTo_of_passes (start.trans beyond)]
  obtain ⟨a', next', read', stays, result⟩ := onward (start.trans beyond) read later (by omega) left
    (inLine_append.mp line).2 ending rfl whole sameExpr
  exact ⟨a', next', bind_eq_read_iff.mpr ⟨b', _, taken', bind_eq_read_iff.mpr ⟨_, _, rfl, read'⟩⟩,
    stays, result⟩

/-- Where no step is announced in the whole text, none is announced in the line. -/
theorem GrowsInLine.unlessSteps {p p' : Expr → Parser Expr} (breaks breaks' : Bool)
    (grows : GrowsInLine bound first first' p p') :
    GrowsInLine bound first first' (fun e => unlessSteps breaks (p e))
      (fun e => unlessSteps breaks' (p' e)) := by
  intro before front kept cut c next e a start read passes short left line ending c' e' here start'
    same
  have read : Grammar.unlessSteps breaks (p e) c = .read a next := read
  rw [Grammar.unlessSteps] at read
  split at read
  · cases read
  next other =>
  have otherwise : ¬ sequelOf (afterBlanks breaks' c').rest = .steps := by
    intro steps
    have whole : sequelOf (afterBlanks breaks c).rest = sequelOf (afterBlanks breaks' c').rest :=
      announces_sequelOf.of_cut line (by rw [passes.1, left, List.append_assoc]) here
        (by rw [steps]; decide)
    exact other (whole.trans steps)
  obtain ⟨a', next', read', result⟩ :=
    grows start read passes short left line ending here start' same
  refine ⟨a', next', ?_, result⟩
  change Grammar.unlessSteps breaks' (p' e') c' = _
  rw [Grammar.unlessSteps, if_neg otherwise]
  exact read'

section Growth

variable (agrees : level.AgreesInLine bound level')
include agrees

/-- What an expression grows by takes the two characters that announce it. -/
theorem takesTwoBehind_growth {more : Setting → Expr → Parser Expr}
    (advances : ∀ setting e text, Advances text (more setting e)) {sequel : Sequel}
    (announced : sequel ≠ .nothing) (goesOn : sequel = .conditional → conditionals = true) :
    TakesTwoBehind setting.breaks (growth level first conditionals more setting e sequel) := by
  cases sequel with
  | nothing => exact absurd rfl announced
  | steps =>
    have step : TakesTwoBehind setting.breaks (step level setting.breaks) :=
      (takesTwo_stepRest agrees.agrees).behind setting.breaks
    have path : TakesTwoBehind setting.breaks (many1 (Grammar.step level setting.breaks)) :=
      step.bind fun _ text => (advances_step (agrees.sound text) _).many.bind fun _ _ =>
        advances_pure _
    exact path.bind fun path text => (advances_grown first _).bind fun e _ =>
      advances_unlessSteps (advances setting e text)
  | conditional =>
    rw [growth, if_pos (goesOn rfl)]
    exact (takesTwoBehind_conditionalRest agrees setting e).bind fun form _ =>
      advances_grown first form
  | operator =>
    exact (takesTwoBehind_announcedRest agrees setting e).bind fun form text =>
      (advances_grown first form).bind fun e _ => advances _ e text

/-- What an expression grows by is announced in the line. Only a question mark that opens no
conditional may be cut off, and then the expression does not grow. -/
theorem growth_of_line {more more' : Setting → Expr → Parser Expr}
    (advances : ∀ setting e text, Advances text (more setting e))
    (read : growth level first conditionals more setting e
      (sequelOf (afterBlanks setting.breaks c).rest) c = .read a next)
    (passes : c.Passes front next) (left : next.rest = kept ++ cut) (line : InLine (front ++ kept))
    (here : c'.rest = front ++ kept) :
    growth level' first' conditionals more' setting' e'
        (sequelOf (afterBlanks setting'.breaks c').rest) =
      growth level' first' conditionals more' setting' e'
        (sequelOf (afterBlanks setting.breaks c).rest) := by
  by_cases idle : sequelOf (afterBlanks setting.breaks c).rest = .conditional ∧ conditionals = false
  · obtain ⟨conditional, rfl⟩ := idle
    by_cases announced : sequelOf (afterBlanks setting'.breaks c').rest = .nothing
    · rw [announced, conditional]
      rfl
    · have whole : c.rest = (front ++ kept) ++ cut := by rw [passes.1, left, List.append_assoc]
      rw [announces_sequelOf.of_cut line whole here announced]
  · have alike : sequelOf (afterBlanks setting'.breaks c').rest =
        sequelOf (afterBlanks setting.breaks c).rest :=
      announces_sequelOf.alike line passes left here fun announced =>
        takesTwoBehind_growth agrees advances announced
          (fun conditional => Bool.eq_true_of_not_eq_false fun other => idle ⟨conditional, other⟩)
          read
    rw [alike]

/-- Whatever an expression grows by, it grows by within the line. -/
theorem growsInLine_growth {less : Nat} (fewer : less ≤ bound)
    (onward : ∀ {setting setting'}, setting'.conditionals = setting.conditionals →
      GrowsInLine less first first' (extended level first conditionals setting)
        (extended level' first' conditionals setting'))
    (alike : setting'.conditionals = setting.conditionals) (sequel : Sequel) :
    GrowsInLine (less + 1) first first'
      (fun e => growth level first conditionals (extended level first conditionals) setting e
        sequel)
      (fun e => growth level' first' conditionals (extended level' first' conditionals) setting' e
        sequel) := by
  have fewer := Nat.succ_le_succ fewer
  cases sequel with
  | nothing => exact growsInLine_pure first first'
  | steps =>
    refine ((onward alike).unlessSteps setting.breaks setting'.breaks).behind .traversal
      (fun _ _ _ => (readsInLine_steps agrees.agrees setting.breaks setting'.breaks).mono fewer)
      (fun _ => (takesSome_step agrees.sound _).many1 fun text =>
        advances_step (agrees.sound text) _)
      (fun e text => advances_unlessSteps
        (advances_extended agrees.sound first conditionals setting e))
      (fun _ text => (advances_step (agrees.sound' text) _).many1.advances)
      (fun e middle a next read _ => ?_) fun e e' path path' same sames => ?_
    · have read : unlessSteps setting.breaks _ middle = .read a next := read
      unfold unlessSteps at read
      split at read
      · cases read
      · next other => exact ⟨middle, rfl, other⟩
    · simp only [Form.unplaced, pathUnplaced_eq_map, same, sames]
  | conditional =>
    cases conditionals with
    | false => exact growsInLine_pure first first'
    | true =>
      have pure : GrowsInLine less first first' pure pure := growsInLine_pure first first'
      refine pure.behind (fun _ form => form)
        (fun _ _ same => (readsInLine_conditionalRest agrees alike same).mono fewer)
        (fun e => takesSome_conditionalRest agrees.sound setting e) (fun e _ => advances_pure e)
        (fun e text => (yields_conditionalRest (agrees.sound' text) setting' e).advances)
        (fun e middle a next read ending => ?_) fun _ _ _ _ _ same => same
      obtain ⟨_, rfl⟩ := Outcome.read.inj read
      exact ending
  | operator =>
    have onward : GrowsInLine less first first'
        (extended level first conditionals setting.withoutConditionals)
        (extended level' first' conditionals setting'.withoutConditionals) := onward rfl
    exact onward.behind (fun _ form => form)
      (fun _ _ same => (readsInLine_announcedRest agrees setting setting' same).mono fewer)
      (fun e => takesSome_announcedRest agrees.sound setting e)
      (fun e _ => advances_extended agrees.sound first conditionals _ e)
      (fun e text => advances_announcedRest (agrees.sound' text) setting' e)
      (fun _ _ _ _ read ending => endsNumber_of_extended agrees.sound read ending)
      fun _ _ _ _ _ same => same

/-- An expression grows within its line. -/
theorem growsInLine_extended (alike : setting'.conditionals = setting.conditionals) {less : Nat}
    (fewer : less ≤ bound + 1) :
    GrowsInLine less first first' (extended level first conditionals setting)
      (extended level' first' conditionals setting') := by
  -- By induction on how much of the line is left: whatever is announced takes two characters of it.
  induction less generalizing setting setting' with
  | zero => exact growsInLine_zero
  | succ less ih =>
    intro before front kept cut c next e a start read passes short left line ending c' e' here
      start' same
    have read := (extended_eq_read_iff agrees.sound).mp read
    have grows (sequel : Sequel) := growsInLine_growth agrees (Nat.le_of_succ_le_succ fewer)
      (fun alike => ih alike (Nat.le_of_succ_le fewer)) alike sequel
    obtain ⟨a', next', read', rest⟩ :=
      grows _ start read passes short left line ending here start' same
    refine ⟨a', next', (extended_eq_read_iff agrees.sound').mpr ?_, rest⟩
    have advances (setting : Setting) (e : Expr) (text : List Char) :
        Advances text (extended level first conditionals setting e) :=
      advances_extended agrees.sound first conditionals setting e
    rwa [growth_of_line agrees advances read passes left line here]

/-- An expression is read within its line, if its first term is. -/
theorem readsInLine_exprAt (alike : setting'.conditionals = setting.conditionals)
    (term : ReadsInLine (bound + 1) LacksScale (fun a => (a.1.unplaced, a.2.conditionals))
      (level.term setting) (level'.term setting')) :
    ReadsInLine (bound + 1) EndsNumber Expr.unplaced (exprAt level setting)
      (exprAt level' setting') := by
  refine ⟨fun text =>
    (yields_exprAt (agrees.sound text) setting (isAcquired_isIn text)).advances, ?_⟩
  intro c a next front kept cut read passes short left line ending offset
  obtain ⟨⟨e, after⟩, middle, taken, grows⟩ := bind_eq_read_iff.mp read
  obtain ⟨before, passed⟩ := leadsTo_of_advances term.advances taken
  obtain ⟨behind, later⟩ := leadsTo_of_advances
    (fun _ => advances_extended agrees.sound c setting.conditionals after e) grows
  obtain rfl := passes.eq (passed.trans later)
  rw [List.length_append] at short
  rw [List.append_assoc] at line ⊢
  have rest : middle.rest = (behind ++ kept) ++ cut := by
    rw [later.1, left, List.append_assoc]
  -- The term may be a number, and what the expression grows by tells where it ends.
  have scale : LacksScale middle.rest := lacksScale_of_extended agrees.sound grows ending
  obtain ⟨⟨e', after'⟩, place, taken', same⟩ :=
    term.again taken passed (by omega) rest line scale offset
  obtain ⟨same, others⟩ := Prod.mk.inj same
  obtain ⟨_, passed'⟩ := leadsTo_of_advances
    (fun text => ((agrees.sound' text).term setting').advances) taken'
  obtain rfl := List.append_cancel_right passed'.1
  obtain ⟨a', ⟨_, place'⟩, grows', rfl, result⟩ := growsInLine_extended agrees others
    (Nat.le_refl _) passed grows later (by omega) left (inLine_append.mp line).2 ending rfl passed'
    same
  refine ⟨a', place', bind_eq_read_iff.mpr ⟨_, _, taken', ?_⟩, result⟩
  rw [alike]
  exact grows'

end Growth

/-! ## Levels -/

section Levels

variable {refused refused' : Form → Bool} {depth depth' : Nat}

/-- No term starts with a blank, on any level. -/
theorem startsBlank_of_term {a : Expr × Setting}
    (read : (levelWithout refused depth).term setting c = .read a next) :
    ∀ x ∈ c.rest.head?, startsBlank x = false := by
  cases depth with
  | zero => cases read
  | succ depth =>
    obtain ⟨x, p, first, reads, _⟩ := exists_readsTerm (refusing_eq_read_iff.mp read).1
    intro y head
    obtain rfl := Option.some.inj (first.symm.trans head)
    exact startsBlank_of_startsTerm (startsTerm_of_readsTerm reads)

/-- Nor does an expression. -/
theorem startsBlank_of_expr
    (read : (levelWithout refused depth).expr setting c = .read e next) :
    ∀ x ∈ c.rest.head?, startsBlank x = false := by
  cases depth with
  | zero => cases read
  | succ depth =>
    obtain ⟨_, _, term, _⟩ := bind_eq_read_iff.mp read
    exact startsBlank_of_term term

/-- A term that starts with a digit is a number, on any level. -/
theorem exists_number_of_term {a : Expr × Setting}
    (read : (levelWithout refused depth).term setting c = .read a next)
    (starts : ∃ x ∈ c.rest.head?, x.isDigit = true) :
    ∃ value last, number c = .read value last := by
  cases depth with
  | zero => cases read
  | succ depth =>
    obtain ⟨x, head, digit⟩ := starts
    obtain ⟨rest, offset⟩ := c
    obtain ⟨more, rfl⟩ := List.head?_eq_some_iff.mp head
    have term := (refusing_eq_read_iff.mp read).1
    rw [termAt_of_readsTerm (.number digit)] at term
    obtain ⟨_, _, form, _⟩ := markedWith_eq_read_iff.mp term
    obtain ⟨_, _, form, _⟩ := bind_eq_read_iff.mp form
    obtain ⟨value, last, taken, _⟩ := bind_eq_read_iff.mp form
    exact ⟨value, last, taken⟩

/-- Levels that are deep enough for a line read the same within it. -/
theorem agreesInLine_levelWithout (empty : ∀ form, form.isEmptyHeredoc = true → refused form = true)
    (weaker : ∀ form form', form'.unplaced = form.unplaced → refused' form' = true →
      refused form = true) (deep : 2 * bound ≤ depth) (deep' : 2 * bound ≤ depth') :
    (levelWithout refused depth).AgreesInLine bound (levelWithout refused' depth') := by
  have sound (refused : Form → Bool) (depth : Nat) (text : List Char) :
      (levelWithout refused depth).IsSound text (·.IsIn text) :=
    isSound_levelWithout (isAcquired_isIn text) refused depth
  -- Only how expressions and terms are read depends on the bound.
  have whole {bound depth depth' : Nat} (deep : 2 * bound ≤ depth) (deep' : 2 * bound ≤ depth')
      (expr : ∀ {setting setting'}, setting'.conditionals = setting.conditionals →
        ReadsInLine bound EndsNumber Expr.unplaced ((levelWithout refused depth).expr setting)
          ((levelWithout refused' depth').expr setting'))
      (term : ∀ {setting setting'}, setting'.conditionals = setting.conditionals →
        ReadsInLine bound LacksScale (fun a => (a.1.unplaced, a.2.conditionals))
          ((levelWithout refused depth).term setting)
          ((levelWithout refused' depth').term setting')) :
      (levelWithout refused depth).AgreesInLine bound (levelWithout refused' depth') := {
    sound := sound refused depth
    sound' := sound refused' depth'
    agrees := fun k => agrees_levelWithout k empty weaker deep deep'
    expr := expr
    term := term
    solidExpr := fun setting => startsSolid_of_head
      ((endsSolid_levelWithout refused depth).expr setting).takesSome
        fun _ _ _ => startsBlank_of_expr
    solidTerm := fun setting => startsSolid_of_head
      ((endsSolid_levelWithout refused depth).term setting).takesSome
        fun _ _ _ => startsBlank_of_term
    number := exists_number_of_term }
  induction bound generalizing depth depth' with
  | zero =>
    exact whole deep deep'
      (fun _ => readsInLine_zero fun text => ((sound _ depth text).expr _).advances)
      fun _ => readsInLine_zero fun text => ((sound _ depth text).term _).advances
  | succ bound ih =>
    obtain ⟨depth, rfl⟩ : ∃ less, depth = less + 2 := ⟨depth - 2, by omega⟩
    obtain ⟨depth', rfl⟩ : ∃ less, depth' = less + 2 := ⟨depth' - 2, by omega⟩
    -- An expression is made of terms of the level below it, and those of parts two levels down.
    have below : (levelWithout refused depth).AgreesInLine bound (levelWithout refused' depth') :=
      ih (by omega) (by omega)
    have next : (levelWithout refused (depth + 1)).AgreesInLine bound
        (levelWithout refused' (depth' + 1)) := ih (by omega) (by omega)
    exact whole deep deep'
      (fun alike => readsInLine_exprAt next alike
        (readsInLine_termAt below (endsSolid_levelWithout refused depth) weaker alike))
      fun alike => readsInLine_termAt next (endsSolid_levelWithout refused (depth + 1)) weaker alike

/-- In a text without a doubled `<`, and so without heredocs, an expression in one line is what its
text alone is read as, if no number goes on behind it. -/
theorem exists_readExpr_of_inLine (lacks : LacksMark c.rest)
    (alike : Setting.line.conditionals = setting.conditionals)
    (deep : 2 * (c.rest.length + 1) ≤ depth)
    (read : (levelOf depth).expr setting c = .read e next) (line : InLine e.text.toList)
    (ending : EndsNumber next.rest) :
    ∃ e', readExpr e.text = .ok e' ∧ e'.form.unplaced = e.form.unplaced := by
  have passes := passes_text_of_expr read
  have length := length_text_le read
  -- Where no heredoc starts none is refused.
  rw [← (((agreesOn_levelWithout depth).expr setting) lacks).1] at read
  have agrees : (levelWithout Form.isEmptyHeredoc depth).AgreesInLine (e.text.toList.length + 1)
      (levelWithout (fun _ => false) (depthOf e.text.toList)) :=
    agreesInLine_levelWithout (fun _ empty => empty) (fun _ _ _ => nofun) (by omega)
      (by rw [depthOf]; omega)
  have again := (agrees.expr alike).again read passes (Nat.lt_succ_self _)
    (show next.rest = [] ++ next.rest from rfl) (by rwa [List.append_nil]) ending
  rw [List.append_nil] at again
  obtain ⟨e', whole, same⟩ := readWithout_of_reads again
  rw [readWithout_false] at whole
  refine ⟨e', whole, ?_⟩
  rw [← Expr.form_unplaced, same, Expr.form_unplaced]

end Levels

end Grammar

end HclLint.Hcl
