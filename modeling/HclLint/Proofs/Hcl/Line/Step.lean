/-
# Steps and operators within a line

Steps, operators and conditionals stand behind blanks, and within a line the blanks are the same
under every setting. Each takes two characters at least, and so a line that was cut off behind them
announces them again. A repetition of steps ends in the line where it ended in the whole text, as
what announces a step in the line announces one there.

## Main definitions

* `EndsPath`: a text in front of which no step is announced.

## Main statements

* `readsInLine_steps`: steps are read within their line.
* `readsInLine_announcedRest`, `readsInLine_conditionalRest`: so are operators and conditionals.
-/

import HclLint.Proofs.Hcl.Line.Term

namespace HclLint.Hcl

open HclLint.Text

namespace Grammar

open HclLint.Hcl.Parser

variable {bound : Nat} {level level' : Level} {ends : List Char → Prop}
  {setting setting' : Setting} {breaks breaks' : Bool} {c next : Cursor}
  {front kept cut text : List Char} {x : Char} {e e' : Expr}

/-! ## Steps -/

theorem isLocal_legacyIndex : IsLocal legacyIndex := by
  rw [legacyIndex_eq_choice]
  exact ((isLocal_satisfy _).bind fun _ => isLocal_pure _).choice
    ((isLocallyUndone_satisfy _).bind_of_never fun _ => isNeverUndone_pure _)
    (isLocal_digits.bind fun _ => .ite (isLocal_pure _) (by rintro c a next ⟨⟩))

/-- What stands behind a dot bears every cut behind it. -/
theorem isLocal_dottedStep (first : Char) : IsLocal (dottedStep first) := by
  unfold dottedStep
  refine .ite ?_ (.ite ?_ (.ite ?_ ?_))
  · exact (isLocal_satisfy _).bind fun _ => isLocal_pure _
  · exact isLocal_legacyIndex.bind fun _ => isLocal_pure _
  · exact isLocal_identifier.bind fun _ => isLocal_pure _
  · rintro c a next ⟨⟩

theorem takesSome_dottedRest : TakesSome dottedRest := by
  intro c a next read
  unfold dottedRest at read
  split at read
  · cases read
  · exact takesSome_dottedStep _ read

/-- The first character behind the dot stays where it is. -/
theorem isLocal_dottedRest : IsLocal dottedRest := by
  intro c a next read
  have less := takesSome_dottedRest read
  unfold dottedRest at read
  split at read
  · cases read
  · next x rest same =>
    obtain ⟨between, passes, again⟩ := isLocal_dottedStep x read
    refine ⟨between, passes, fun kept cut left offset => ?_⟩
    -- The step takes the character that it was chosen by, so a cut behind it leaves the choice.
    rw [passes.1] at less same
    cases between with
    | nil => exact absurd less (Nat.lt_irrefl _)
    | cons y between =>
      obtain rfl : y = x := (List.cons.inj same).1
      exact again kept cut left offset

/-- It starts with no blank, and so the blanks in front of it are told from it. -/
theorem startsSolid_dottedRest : StartsSolid dottedRest :=
  startsSolid_of_head takesSome_dottedRest fun c a next read => by
    unfold dottedRest at read
    split at read
    · cases read
    · next same =>
      rw [same]
      exact forall_mem_head?_cons (startsBlank_of_dottedStep read) _

/-- A step behind a dot is read within its line. -/
theorem readsInLine_dotStep : ReadsInLine bound ends id dotStep dotStep := by
  have dot : ReadsInLine bound (fun _ => True) id (char '.') (char '.') :=
    (isLocal_satisfy _).readsInLine
  have rest : ReadsInLine bound ends id dottedRest dottedRest := isLocal_dottedRest.readsInLine
  rw [dotStep_eq]
  exact dot.bind (fun _ _ _ => rest.skip_bind startsSolid_dottedRest true true)
    fun _ _ _ _ _ _ => trivial

theorem takesTwo_dotStep : TakesTwo dotStep := by
  rw [dotStep_eq]
  exact (takesSome_satisfy _).bind_takesSome fun _ =>
    .bind_right (fun _ => advances_skip true) fun _ => takesSome_dottedRest

theorem startsDots_append (starts : startsDots text = true) (more : List Char) :
    startsDots (text ++ more) = true := by
  unfold startsDots at starts
  split at starts
  · rfl
  · cases starts

/-- A step behind the blanks in front of it. -/
def stepRest (level : Level) : Parser Step := fun c =>
  if startsDots c.rest then .undone .unexpected else choice dotStep (bracketStep level) c

/-- A step starts with its dot or with its bracket. -/
theorem head_of_stepRest {a : Step} (read : stepRest level c = .read a next) :
    ∃ x ∈ c.rest.head?, x = '.' ∨ x = '[' := by
  unfold stepRest at read
  split at read
  · cases read
  rcases choice_eq_read_iff.mp read with read | ⟨_, read⟩
  · obtain ⟨_, _, dot, _⟩ := bind_eq_read_iff.mp read
    exact ⟨'.', by rw [(passes_char dot).1]; rfl, .inl rfl⟩
  · obtain ⟨_, _, bracket, _⟩ := bind_eq_read_iff.mp read
    exact ⟨'[', by rw [(passes_char bracket).1]; rfl, .inr rfl⟩

/-- In front of the text no step is announced. -/
def EndsPath (breaks : Bool) (text : List Char) : Prop :=
  ∃ c : Cursor, c.rest = text ∧ sequelOf (afterBlanks breaks c).rest ≠ .steps

/-- Where no step is announced in the whole text, none is read in the line. -/
theorem isUndone_step_of_endsPath (noExpr : IsUndone (level'.expr .bracket) []) (line : InLine kept)
    (ending : EndsPath breaks (kept ++ cut)) : IsUndone (step level' breaks') kept := by
  obtain ⟨c, here, other⟩ := ending
  intro offset
  refine exists_undone_step noExpr (skip_eq_read_afterBlanks breaks' ⟨kept, offset⟩) fun steps => ?_
  have whole : sequelOf (afterBlanks breaks c).rest =
      sequelOf (afterBlanks breaks' ⟨kept, offset⟩).rest :=
    announces_sequelOf.of_cut line here rfl (by rw [steps]; nofun)
  exact other (whole.trans steps)

section Steps

variable (agrees : ∀ k, level.Agrees k bound level')
include agrees

/-- A step between brackets takes both of them. -/
theorem exists_passes_of_bracketStep {a : Step} (read : bracketStep level c = .read a next) :
    ∃ body, c.Passes ('[' :: (body ++ [']'])) next := by
  have anywhere := agrees (.before (show ']' ∈ closers by decide) [] [])
  have closing : IsSign ']' (demandWord "]") := isSign_demandWord rfl
  rw [bracketStep_eq] at read
  exact exists_passes_of_enclosed (isSign_char '[') closing
    (tracks_bracketInside anywhere).advances read

/-- Every step takes two characters, and these announce it. -/
theorem takesTwo_stepRest : TakesTwo (stepRest level) := by
  have bracket : TakesTwo (bracketStep level) := by
    intro c a next read
    obtain ⟨body, passes⟩ := exists_passes_of_bracketStep agrees read
    rw [passes.1]
    simp only [List.length_cons, List.length_append]
    omega
  intro c a next read
  unfold stepRest at read
  split at read
  · cases read
  · exact (takesTwo_dotStep.choice bracket) read

theorem startsSolid_stepRest : StartsSolid (stepRest level) :=
  startsSolid_of_head (takesTwo_stepRest agrees).takesSome fun c a next read => by
    obtain ⟨x, head, sign⟩ := head_of_stepRest read
    intro y head'
    obtain rfl := Option.some.inj (head.symm.trans head')
    rcases sign with rfl | rfl
    · decide
    · decide

/-- A step is read within its line, be it behind a dot or between brackets. -/
theorem readsInLine_stepRest :
    ReadsInLine (bound + 1) ends Step.unplaced (stepRest level) (stepRest level') := by
  have bracket : ReadsInLine (bound + 1) ends Step.unplaced (bracketStep level)
      (bracketStep level') := by
    rw [bracketStep_eq, bracketStep_eq]
    exact readsInLine_enclosed (by decide) (isSign_char '[') (isSign_demandWord rfl)
      fun k => tracks_bracketInside (agrees k)
  have dot : ReadsInLine (bound + 1) ends id dotStep dotStep := readsInLine_dotStep
  refine ⟨fun text c a next here read => ?_, ?_⟩
  · unfold stepRest at read
    split at read
    · cases read
    · exact ((dot.advances text).choice (bracket.advances text)) here read
  intro c a next front kept cut read passes short left line ending
  unfold stepRest at read
  split at read
  · cases read
  next single =>
  -- Two dots at the start of the line would be two dots at the start of the whole text.
  have single' : ¬ startsDots (front ++ kept) = true := by
    refine fun dots => single ?_
    rw [passes.1, left, ← List.append_assoc]
    exact startsDots_append dots cut
  suffices again : Reads (choice dotStep (bracketStep level')) (front ++ kept)
      (Step.unplaced · = Step.unplaced a) kept by
    intro offset
    rw [stepRest, if_neg single']
    exact again offset
  rcases choice_eq_read_iff.mp read with read | ⟨_, read⟩
  · exact ((dot.again read passes short left line ending).imp
      fun _ same => congrArg Step.unplaced same).choice _
  · refine (bracket.again read passes short left line ending).choice_right ?_
    obtain ⟨body, passes'⟩ := exists_passes_of_bracketStep agrees read
    obtain rfl := passes.eq passes'
    exact (isUndone_char (forall_mem_head?_cons (by decide) _)).bind _

/-- A step is read within its line, behind the same blanks. -/
theorem readsInLine_step (breaks breaks' : Bool) : ReadsInLine (bound + 1) ends Step.unplaced
    (step level breaks) (step level' breaks') :=
  (readsInLine_stepRest agrees).skip_bind (startsSolid_stepRest agrees) breaks breaks'

/-- Steps are read within their line as long as they are announced. -/
theorem readsInLine_steps (breaks breaks' : Bool) : ReadsInLine (bound + 1) (EndsPath breaks)
    (List.map Step.unplaced) (many1 (step level breaks)) (many1 (step level' breaks')) := by
  have anywhere := agrees (.before (show ']' ∈ closers by decide) [] [])
  exact (readsInLine_step agrees breaks breaks').many1 (takesSome_step anywhere.sound breaks)
    (isUndone_step level breaks endsReference_nil)
    fun _ _ => isUndone_step_of_endsPath (anywhere.noExpr .bracket)

end Steps

/-! ## Operators -/

/-- What follows a comparison in the line follows it in the whole text. -/
theorem isLocal_binaryOp : IsLocal binaryOp := by
  intro c op next read
  obtain ⟨sign, passes, again⟩ := exists_sign_of_binaryOp read
  refine ⟨sign, passes, fun kept cut left => again kept fun other => ?_⟩
  cases kept with
  | nil => exact nofun
  | cons y kept =>
    rw [left] at other
    exact other

section Announced

variable {α : Type} {f f' : BinaryOp → Parser α} (takes : ∀ op, TakesSome (f op))
include takes

/-- An operator that is announced stays announced, with the first character behind it. -/
theorem announced_append {a : α} (read : (announcedOp >>= f) c = .read a next)
    (passes : c.Passes front next) (rest : List Char) : sequelOf (front ++ rest) = .operator := by
  obtain ⟨op, middle, taken, more⟩ := bind_eq_read_iff.mp read
  have one := takesSome_announcedOp taken
  have other := takes op more
  unfold announcedOp at taken
  split at taken
  · next operator =>
    rw [passes.1] at operator one
    rw [List.length_append] at one
    -- Two characters announce an operator, and both of them were taken.
    match front, (show 2 ≤ front.length by omega) with
    | x :: y :: front, _ =>
      exact (sequelOf_cons_cons x y (front ++ next.rest) (front ++ rest)).trans operator
  · cases taken

/-- What is announced starts with no blank, and neither does an operator. -/
theorem startsSolid_announcedOp_bind : StartsSolid (announcedOp >>= f) := by
  intro c a next front read passes
  refine ⟨?_, fun rest breaks =>
    isUndone_blank_of_sequel (by rw [announced_append takes read passes rest]; nofun) breaks⟩
  rintro rfl
  have two := takesSome_announcedOp.bind_takesSome takes read
  rw [passes.1] at two
  exact absurd two (Nat.not_le_of_lt (Nat.lt_add_of_pos_right Nat.two_pos))

/-- An operator is read within its line with what follows it, since it is announced there again. -/
theorem readsInLine_announcedOp_bind {γ : Type} {gist : α → γ}
    (behind : ∀ op, ReadsInLine bound ends gist (f op) (f' op)) :
    ReadsInLine (bound + 1) ends gist (announcedOp >>= f) (announcedOp >>= f') := by
  have op : ReadsInLine (bound + 1) (fun _ => True) id binaryOp binaryOp :=
    isLocal_binaryOp.readsInLine
  have whole : ReadsInLine (bound + 1) ends gist (binaryOp >>= f) (binaryOp >>= f') :=
    op.bind_less takesSome_binaryOp (fun op op' same => by
      obtain rfl : op' = op := same
      exact behind op') fun _ _ _ _ _ _ => trivial
  -- Without the look ahead the operator is a word, which bears every cut.
  have unasked {a : α} {c next : Cursor} (read : (announcedOp >>= f) c = .read a next) :
      (binaryOp >>= f) c = .read a next := by
    obtain ⟨op, middle, taken, more⟩ := bind_eq_read_iff.mp read
    unfold announcedOp at taken
    split at taken
    · exact bind_eq_read_iff.mpr ⟨op, middle, taken, more⟩
    · cases taken
  refine ⟨fun text c a next here read => whole.advances text here (unasked read), ?_⟩
  intro c a next front kept cut read passes short left line ending offset
  have operator := announced_append takes read passes kept
  obtain ⟨a', place, read', same⟩ :=
    whole.again (unasked read) passes short left line ending offset
  obtain ⟨op, middle, taken, more⟩ := bind_eq_read_iff.mp read'
  refine ⟨a', place, bind_eq_read_iff.mpr ⟨op, middle, ?_, more⟩, same⟩
  rw [announcedOp, if_pos operator]
  exact taken

end Announced

section Operations

variable (agrees : level.AgreesInLine bound level')
include agrees

/-- An expression takes something of the text. -/
theorem Level.AgreesInLine.takesSome (setting : Setting) : TakesSome (level.expr setting) :=
  (agrees.solidExpr setting).takesSome (agrees.expr rfl).advances

/-- An operator and its operand take two characters behind the blanks in front of them. -/
theorem takesTwoBehind_announcedRest (setting : Setting) (e : Expr) :
    TakesTwoBehind setting.breaks (announcedRest level setting e) :=
  (takesSome_announcedOp.bind_takesSome fun _ => .bind_right (fun _ => advances_skip _) fun _ =>
    (agrees.takesSome _).bind fun _ _ => advances_pure _).behind _

/-- An operator that is announced is read within its line, with the operand behind it. -/
theorem readsInLine_announcedRest (setting setting' : Setting)
    (same : e'.unplaced = e.unplaced) : ReadsInLine (bound + 1) EndsNumber Form.unplaced
      (announcedRest level setting e) (announcedRest level' setting' e') := by
  have right : ReadsInLine bound EndsNumber Expr.unplaced (level.expr setting.withoutConditionals)
      (level'.expr setting'.withoutConditionals) := agrees.expr rfl
  have operand (op : BinaryOp) : ReadsInLine bound EndsNumber Form.unplaced
      (do skip setting.breaks
          let right ← level.expr setting.withoutConditionals
          return Form.binary op e right)
      (do skip setting'.breaks
          let right ← level'.expr setting'.withoutConditionals
          return Form.binary op e' right) := by
    have form : ReadsInLine bound EndsNumber Form.unplaced
        (do return Form.binary op e (← level.expr setting.withoutConditionals))
        (do return Form.binary op e' (← level'.expr setting'.withoutConditionals)) :=
      right.map _ _ fun _ _ same' => by rw [Form.unplaced, Form.unplaced, same, same']
    exact form.skip_bind ((agrees.solidExpr _).bind right.advances fun _ _ => advances_pure _) _ _
  have takes (op : BinaryOp) : TakesSome (do
      skip setting.breaks
      let right ← level.expr setting.withoutConditionals
      return Form.binary op e right) :=
    .bind_right (fun _ => advances_skip _) fun _ =>
      (agrees.takesSome _).bind fun _ _ => advances_pure _
  exact (readsInLine_announcedOp_bind takes operand).skip_bind
    (startsSolid_announcedOp_bind takes) _ _

end Operations

/-! ## Conditionals -/

/-- The second branch of a conditional, behind its colon. -/
def branchBehind (level : Level) (setting : Setting) (test yes : Expr) : Parser Form := do
  skip setting.breaks
  demandWord ":"
  skip setting.breaks
  let no ← level.expr setting
  return .conditional test yes no

/-- A conditional from its question mark on. -/
def branchesBehind (level : Level) (setting : Setting) (test : Expr) : Parser Form := do
  let _ ← char '?'
  skip setting.breaks
  let yes ← level.expr setting
  branchBehind level setting test yes

theorem startsSolid_char (x : Char) (solid : startsBlank x = false) : StartsSolid (char x) :=
  startsSolid_of_head (takesSome_satisfy _) fun c a next read => by
    rw [(passes_char read).1]
    exact forall_mem_head?_cons solid _

/-- In front of the colon no number goes on. -/
theorem endsNumber_of_branchBehind {yes : Expr} {a : Form}
    (read : branchBehind level setting e yes c = .read a next) : EndsNumber c.rest := by
  obtain ⟨_, middle, skipped, more⟩ := bind_eq_read_iff.mp read
  obtain ⟨_, _, colon, _⟩ := bind_eq_read_iff.mp more
  refine endsNumber_of_skip skipped ?_
  rw [((isSign_demandWord rfl : IsSign ':' (demandWord ":")).passes colon).1]
  exact endsNumber_cons rfl _

section Conditionals

variable (agrees : level.AgreesInLine bound level')
include agrees

/-- The second branch of a conditional is read within its line, with the colon in front of it. -/
theorem readsInLine_branchBehind {yes yes' : Expr}
    (alike : setting'.conditionals = setting.conditionals) (same : e'.unplaced = e.unplaced)
    (sameYes : yes'.unplaced = yes.unplaced) : ReadsInLine bound EndsNumber Form.unplaced
      (branchBehind level setting e yes) (branchBehind level' setting' e' yes') := by
  have right : ReadsInLine bound EndsNumber Expr.unplaced (level.expr setting)
      (level'.expr setting') := agrees.expr alike
  have form : ReadsInLine bound EndsNumber Form.unplaced
      (do return Form.conditional e yes (← level.expr setting))
      (do return Form.conditional e' yes' (← level'.expr setting')) :=
    right.map _ _ fun _ _ same' => by rw [Form.unplaced, Form.unplaced, same, sameYes, same']
  have behind : ReadsInLine bound EndsNumber Form.unplaced
      (do skip setting.breaks; return Form.conditional e yes (← level.expr setting))
      (do skip setting'.breaks; return Form.conditional e' yes' (← level'.expr setting')) :=
    form.skip_bind ((agrees.solidExpr _).bind right.advances fun _ _ => advances_pure _) _ _
  have colon : ReadsInLine bound (fun _ => True) id (demandWord ":") (demandWord ":") :=
    ((isLocal_word _).demand _).readsInLine
  have whole : ReadsInLine bound EndsNumber Form.unplaced
      (do demandWord ":"; skip setting.breaks
          return Form.conditional e yes (← level.expr setting))
      (do demandWord ":"; skip setting'.breaks
          return Form.conditional e' yes' (← level'.expr setting')) :=
    colon.bind (fun _ _ _ => behind) fun _ _ _ _ _ _ => trivial
  have solid : StartsSolid (demandWord ":") :=
    (startsSolid_word (List.cons_ne_nil _ _) (by decide)).demand _
  exact whole.skip_bind (solid.bind colon.advances fun _ _ => behind.advances _) _ _

/-- A conditional takes two characters behind its test and the blanks there. -/
theorem takesTwoBehind_conditionalRest (setting : Setting) (e : Expr) :
    TakesTwoBehind setting.breaks (conditionalRest level setting e) := by
  have advances (yes : Expr) (text : List Char) :
      Advances text (branchBehind level setting e yes) :=
    (readsInLine_branchBehind agrees rfl rfl rfl).advances text
  have branches : TakesTwo (branchesBehind level setting e) :=
    (takesSome_satisfy _).bind_takesSome fun _ => .bind_right (fun _ => advances_skip _) fun _ =>
      (agrees.takesSome _).bind advances
  exact branches.behind _

/-- A conditional is read within its line, behind its test. -/
theorem readsInLine_conditionalRest (alike : setting'.conditionals = setting.conditionals)
    (same : e'.unplaced = e.unplaced) : ReadsInLine (bound + 1) EndsNumber Form.unplaced
      (conditionalRest level setting e) (conditionalRest level' setting' e') := by
  have yes : ReadsInLine bound EndsNumber Expr.unplaced (level.expr setting)
      (level'.expr setting') := agrees.expr alike
  have branches : ReadsInLine bound EndsNumber Form.unplaced
      (do branchBehind level setting e (← level.expr setting))
      (do branchBehind level' setting' e' (← level'.expr setting')) :=
    yes.bind (fun _ _ sameYes => readsInLine_branchBehind agrees alike same sameYes)
      fun _ _ _ _ read _ => endsNumber_of_branchBehind read
  have behind : ReadsInLine bound EndsNumber Form.unplaced
      (do skip setting.breaks; branchBehind level setting e (← level.expr setting))
      (do skip setting'.breaks; branchBehind level' setting' e' (← level'.expr setting')) :=
    branches.skip_bind ((agrees.solidExpr _).bind yes.advances fun _ text =>
      (readsInLine_branchBehind agrees rfl rfl rfl).advances text) _ _
  have question : ReadsInLine (bound + 1) (fun _ => True) id (char '?') (char '?') :=
    (isLocal_satisfy _).readsInLine
  have whole : ReadsInLine (bound + 1) EndsNumber Form.unplaced
      (branchesBehind level setting e) (branchesBehind level' setting' e') :=
    question.bind_less (takesSome_satisfy _) (fun _ _ _ => behind) fun _ _ _ _ _ _ => trivial
  exact whole.skip_bind ((startsSolid_char '?' (by decide)).bind question.advances
    fun _ _ => behind.advances _) _ _

end Conditionals

end Grammar

end HclLint.Hcl
