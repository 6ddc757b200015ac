/-
# What an evaluation asks for

The value of an expression may depend on variables that are entered to find it: those that it
looks up, where its steps lead to a token. Everything else about the expression is settled by the
table alone. A variable that cannot be entered passes its failure on, and a cycle is only ever
reported by entering.

Texts and lists are evaluated by different rules, but they depend on entering in the same way, so
that what follows from it is said once for both.

## Main definitions

* `LooksUp`, `AsksFor`: the variables that an expression looks up, and the tokens in them that it
  asks to enter.
* `HingesOn`: how an outcome depends on entering.
* `Evaluator`, `Evaluator.token`: rules of evaluation, and tokens evaluated by them one inside the
  other.

## Main statements

* `HingesOn.congr`, `HingesOn.mono`, `HingesOn.circular`, `HingesOn.lost`: what follows from such a
  dependence.
* `hinges_scalarEvaluator`, `hinges_listEvaluator`: texts and lists depend on entering this way.
* `resolveScalar_eq_token`, `resolveList_eq_token`: resolving a token is such an evaluation.
-/

import HclLint.Proofs.Eval.Derivation

namespace HclLint.Eval

open HclLint.Text HclLint.Hcl HclLint.Model

variable {α β γ : Type} {table : VariableTable}

/-! ## What an expression asks for -/

/-- The expression looks a variable up, with some steps into its value, where its own value is
sought. What is only an argument, an operand or an index is not evaluated. -/
inductive LooksUp (name : String) (steps : List Step) : Expr → Prop where
  | reference (extent rootExtent : Extent) :
      LooksUp name steps
        (.mk extent (.traversal (.mk rootExtent (.variable "var")) (.attribute name :: steps)))
  | parens (extent : Extent) {inner : Expr} (below : LooksUp name steps inner) :
      LooksUp name steps (.mk extent (.parens inner))
  | template (extent : Extent) {parts : List Part} {trim : Trim} {inner : Expr}
      (member : .interpolation trim inner ∈ parts) (below : LooksUp name steps inner) :
      LooksUp name steps (.mk extent (.template parts))
  | heredoc (extent : Extent) (delimiter : String) {parts : List Part} {trim : Trim}
      {inner : Expr} (member : .interpolation trim inner ∈ parts)
      (below : LooksUp name steps inner) :
      LooksUp name steps (.mk extent (.heredoc delimiter parts))

/-- The expression asks to enter a variable with a token: it looks the variable up, and the steps
lead from the current value to that token. -/
def AsksFor (table : VariableTable) (e : Expr) (name : String) (token : Token) : Prop :=
  ∃ steps value, LooksUp name steps e ∧ table.get name = .ok value ∧
    Reaches value steps (.scalar token)

/-- The same for the parts of a template. -/
def PartsAskFor (table : VariableTable) (parts : List Part) (name : String) (token : Token) :
    Prop :=
  ∃ trim inner, .interpolation trim inner ∈ parts ∧ AsksFor table inner name token

/-- Parentheses ask for what their content asks for. -/
theorem AsksFor.parens {inner : Expr} {name : String} {token : Token} (extent : Extent)
    (asked : AsksFor table inner name token) :
    AsksFor table (.mk extent (.parens inner)) name token := by
  obtain ⟨steps, value, below, found⟩ := asked
  exact ⟨steps, value, .parens extent below, found⟩

/-- A template asks for what its parts ask for. -/
theorem PartsAskFor.asksFor_template {parts : List Part} {name : String} {token : Token}
    (extent : Extent) (asked : PartsAskFor table parts name token) :
    AsksFor table (.mk extent (.template parts)) name token := by
  obtain ⟨trim, inner, member, steps, value, below, found⟩ := asked
  exact ⟨steps, value, .template extent member below, found⟩

theorem PartsAskFor.asksFor_heredoc {parts : List Part} {name : String} {token : Token}
    (extent : Extent) (delimiter : String) (asked : PartsAskFor table parts name token) :
    AsksFor table (.mk extent (.heredoc delimiter parts)) name token := by
  obtain ⟨trim, inner, member, steps, value, below, found⟩ := asked
  exact ⟨steps, value, .heredoc extent delimiter member below, found⟩

/-- An interpolation asks for what its expression asks for. -/
theorem partsAskFor_first {inner : Expr} {name : String} {token : Token} (trim : Trim)
    (rest : List Part) (asked : AsksFor table inner name token) :
    PartsAskFor table (.interpolation trim inner :: rest) name token :=
  ⟨trim, inner, List.mem_cons_self, asked⟩

/-- What the parts behind the first ask for, all of them ask for. -/
theorem PartsAskFor.cons {rest : List Part} {name : String} {token : Token} (part : Part)
    (asked : PartsAskFor table rest name token) : PartsAskFor table (part :: rest) name token := by
  obtain ⟨trim, inner, member, asked⟩ := asked
  exact ⟨trim, inner, .tail part member, asked⟩

/-- A reference asks for the token that it finds. -/
theorem asksFor_of_lookup {own name : String} {token : Token} {root : Expr} {path : List Step}
    (extent : Extent) (found : lookup table own root path = .ok (name, .scalar token)) :
    AsksFor table (.mk extent (.traversal root path)) name token := by
  obtain ⟨rootExtent, steps, value, rfl, rfl, current, reached⟩ := lookup_eq_ok_iff.mp found
  exact ⟨steps, value, .reference extent rootExtent, current, reached⟩

/-! ## How an outcome depends on entering -/

/-- What is asked for and entered with success is entered with the same success by another. -/
def KeepsSuccess (asks : String → Token → Prop) (entering other : Entering α) : Prop :=
  ∀ name token, asks name token → ∀ a, entering name token = .ok a → other name token = .ok a

/-- The same way of entering, except that a variable fails when it is to be entered with a token. -/
def Entering.failingAt (entering : Entering α) (name : String) (token : Token)
    (failure : EvalError) : Entering α := fun name' token' =>
  if name' = name ∧ token' = token then .error failure else entering name' token'

/-- Where something fails anyway, failing at it in addition costs no success. -/
theorem KeepsSuccess.failingAt {asks : String → Token → Prop} {entering other : Entering α}
    {name : String} {token : Token} {failure failure' : EvalError}
    (kept : KeepsSuccess asks entering other) (refused : entering name token = .error failure') :
    KeepsSuccess asks entering (other.failingAt name token failure) := by
  intro name' token' asked a entered
  have apart : ¬ (name' = name ∧ token' = token) := by
    rintro ⟨rfl, rfl⟩
    rw [refused] at entered
    cases entered
  exact (if_neg apart).trans (kept name' token' asked a entered)

/-- The outcome is not the report of a cycle. -/
def ReportsNoCycle (outcome : Except EvalError β) : Prop :=
  ∀ names, outcome ≠ .error (.circular names)

/-- The outcome of an evaluation hinges on the variables that it asks to enter: either it is
settled by those that are entered with success, or one of them fails and passes its failure on. -/
inductive HingesOn (asks : String → Token → Prop) (evaluate : Entering α → Except EvalError β)
    (entering : Entering α) : Prop where
  | settled (outcome : Except EvalError β) (acyclic : ReportsNoCycle outcome)
      (same : ∀ other, KeepsSuccess asks entering other → evaluate other = outcome)
  | failed (name : String) (token : Token) (failure : EvalError) (asked : asks name token)
      (refused : entering name token = .error failure)
      (same : ∀ other, KeepsSuccess asks entering other → other name token = .error failure →
        evaluate other = .error failure)

theorem reportsNoCycle_ok (b : β) : ReportsNoCycle (.ok b) := nofun

/-- Any failure but a cycle reports no cycle. -/
theorem reportsNoCycle_error {failure : EvalError} (other : ∀ names, failure ≠ .circular names) :
    ReportsNoCycle (.error failure : Except EvalError β) :=
  fun names same => other names (Except.error.inj same)

/-- A sequence reports a cycle only if one of its two steps does. -/
theorem ReportsNoCycle.bind {x : Except EvalError α} {f : α → Except EvalError β}
    (first : ReportsNoCycle x) (next : ∀ a, ReportsNoCycle (f a)) : ReportsNoCycle (x >>= f) := by
  intro names same
  rcases except_bind_eq_error_iff.mp same with here | ⟨a, _, later⟩
  · exact first names here
  · exact next a names later

namespace HingesOn

variable {asks : String → Token → Prop} {evaluate : Entering α → Except EvalError β}
  {entering other : Entering α}

/-- Entering in the same way keeps what succeeded. -/
theorem keepsSuccess_refl : KeepsSuccess asks entering entering :=
  fun _ _ _ _ entered => entered

/-- Ways of entering that agree on what is asked for have the same outcome. -/
theorem congr (hinges : HingesOn asks evaluate entering)
    (agree : ∀ name token, asks name token → other name token = entering name token) :
    evaluate other = evaluate entering := by
  have kept : KeepsSuccess asks entering other :=
    fun name token asked a entered => (agree name token asked).trans entered
  cases hinges with
  | settled outcome _ same => exact (same other kept).trans (same entering keepsSuccess_refl).symm
  | failed name token failure asked refused same =>
    rw [same other kept ((agree name token asked).trans refused),
      same entering keepsSuccess_refl refused]

/-- A success needs nothing but successes. -/
theorem mono (hinges : HingesOn asks evaluate entering) {b : β}
    (success : evaluate entering = .ok b) (kept : KeepsSuccess asks entering other) :
    evaluate other = .ok b := by
  cases hinges with
  | settled outcome _ same =>
    rw [same entering keepsSuccess_refl] at success
    rw [same other kept, success]
  | failed name token failure asked refused same =>
    rw [same entering keepsSuccess_refl refused] at success
    cases success

/-- A cycle is reported by entering a variable that is asked for. -/
theorem circular (hinges : HingesOn asks evaluate entering) {names : List String}
    (reported : evaluate entering = .error (.circular names)) :
    ∃ name token, asks name token ∧ entering name token = .error (.circular names) := by
  cases hinges with
  | settled outcome acyclic same =>
    exact absurd ((same entering keepsSuccess_refl).symm.trans reported) (acyclic names)
  | failed name token failure asked refused same =>
    obtain rfl := Except.error.inj ((same entering keepsSuccess_refl refused).symm.trans reported)
    exact ⟨name, token, asked, refused⟩

/-- A success is lost only by a variable that is asked for and no longer entered with success, and
then with its failure. -/
theorem lost {b : β} (before : HingesOn asks evaluate entering)
    (after : HingesOn asks evaluate other) (success : evaluate entering = .ok b)
    (back : KeepsSuccess asks other entering) :
    evaluate other = .ok b ∨ ∃ name token a failure, asks name token ∧
      entering name token = .ok a ∧ other name token = .error failure ∧
      evaluate other = .error failure := by
  cases after with
  | settled outcome _ same =>
    left
    rw [same other keepsSuccess_refl, ← same entering back, success]
  | failed name token failure asked refused same =>
    right
    have fails : evaluate other = .error failure := same other keepsSuccess_refl refused
    cases entered : entering name token with
    | ok a => exact ⟨name, token, a, failure, asked, entered, refused, fails⟩
    | error _ =>
      -- It failed before as well, so that the first success would survive its failing like now.
      have survives : evaluate (entering.failingAt name token failure) = .ok b :=
        before.mono success (keepsSuccess_refl.failingAt entered)
      rw [same _ (back.failingAt refused) (if_pos ⟨rfl, rfl⟩)] at survives
      cases survives

/-- An outcome that depends on nothing. -/
theorem const {outcome : Except EvalError β} (acyclic : ReportsNoCycle outcome) :
    HingesOn asks (fun _ => outcome) entering :=
  .settled outcome acyclic fun _ _ => rfl

theorem ok (b : β) : HingesOn asks (fun _ => .ok b) entering :=
  const (reportsNoCycle_ok b)

theorem error {failure : EvalError} (other : ∀ names, failure ≠ .circular names) :
    HingesOn asks (fun _ => (.error failure : Except EvalError β)) entering :=
  const (reportsNoCycle_error other)

/-- Entering a variable that is asked for. -/
theorem enter {name : String} {token : Token} (asked : asks name token) :
    HingesOn asks (fun other : Entering α => other name token) entering := by
  cases entered : entering name token with
  | ok a =>
    exact .settled (.ok a) (reportsNoCycle_ok a)
      fun other kept => kept name token asked a entered
  | error failure => exact .failed name token failure asked entered fun _ _ refused => refused

/-- What hinges on some tokens hinges on more of them. -/
theorem imp {more : String → Token → Prop} (hinges : HingesOn asks evaluate entering)
    (within : ∀ name token, asks name token → more name token) :
    HingesOn more evaluate entering := by
  have kept : ∀ other, KeepsSuccess more entering other → KeepsSuccess asks entering other :=
    fun _ kept name token asked => kept name token (within name token asked)
  cases hinges with
  | settled outcome acyclic same =>
    exact .settled outcome acyclic fun other keeps => same other (kept other keeps)
  | failed name token failure asked refused same =>
    exact .failed name token failure (within name token asked) refused
      fun other keeps => same other (kept other keeps)

/-- One evaluation after the other. -/
theorem bind {next : β → Entering α → Except EvalError γ} (first : HingesOn asks evaluate entering)
    (rest : ∀ b, evaluate entering = .ok b → HingesOn asks (next b) entering) :
    HingesOn asks (fun other => evaluate other >>= fun b => next b other) entering := by
  cases first with
  | failed name token failure asked refused same =>
    exact .failed name token failure asked refused
      fun other kept again => by rw [same other kept again]; rfl
  | settled outcome acyclic same =>
    cases outcome with
    | error failure =>
      have other : ∀ names, failure ≠ .circular names :=
        fun names reported => acyclic names (congrArg Except.error reported)
      exact .settled (.error failure) (reportsNoCycle_error other)
        fun other kept => by rw [same other kept]; rfl
    | ok b =>
      -- The first evaluation succeeds the same way wherever successes are kept.
      have onward : ∀ other, KeepsSuccess asks entering other →
          (evaluate other >>= fun b => next b other) = next b other :=
        fun other kept => by rw [same other kept]; rfl
      cases rest b (same entering keepsSuccess_refl) with
      | settled outcome acyclic same =>
        exact .settled outcome acyclic
          fun other kept => (onward other kept).trans (same other kept)
      | failed name token failure asked refused same =>
        exact .failed name token failure asked refused
          fun other kept again => (onward other kept).trans (same other kept again)

end HingesOn

/-! ## References -/

theorem reportsNoCycle_get (name : String) : ReportsNoCycle (table.get name) := by
  unfold VariableTable.get
  split
  · exact reportsNoCycle_error nofun
  · split
    · exact reportsNoCycle_ok _
    · exact reportsNoCycle_error nofun

theorem reportsNoCycle_stepInto (text : String) (value : Value) (step : Step) :
    ReportsNoCycle (stepInto text value step) := by
  intro names same
  unfold stepInto valueAtKey itemAt at same
  -- Whether the step fits the value or not, its failures say so.
  repeat' split at same
  all_goals cases same

/-- Walking along a path never reports a cycle, since it enters no variable. -/
theorem reportsNoCycle_walk (text : String) (value : Value) (path : List Step) :
    ReportsNoCycle (walk text value path) := by
  induction path generalizing value with
  | nil => exact reportsNoCycle_ok value
  | cons step path ih =>
    rw [walk_cons]
    exact (reportsNoCycle_stepInto text value step).bind ih

theorem reportsNoCycle_lookup (text : String) (root : Expr) (path : List Step) :
    ReportsNoCycle (lookup table text root path) := by
  unfold lookup
  split
  · exact reportsNoCycle_error nofun
  · next name steps _ =>
    exact (reportsNoCycle_get name).bind fun value =>
      (reportsNoCycle_walk text value steps).bind fun _ => reportsNoCycle_ok _

/-- Looking a reference up enters nothing. -/
theorem hingesOn_lookup {asks : String → Token → Prop} {entering : Entering α} (text : String)
    (root : Expr) (path : List Step) :
    HingesOn asks (fun _ => lookup table text root path) entering :=
  .const (reportsNoCycle_lookup text root path)

/-! ## Texts -/

mutual

/-- The value of an expression hinges on the tokens it asks for. The three functions of the
evaluation are treated together, along the syntax tree. -/
theorem hingesOn_scalarExpr (entering : Entering String) (text : String) (e : Expr) :
    HingesOn (AsksFor table e) (fun other => scalarExpr table other text e) entering := by
  match e with
  | .mk extent form =>
    unfold scalarExpr
    exact hingesOn_scalarForm entering text extent form

theorem hingesOn_scalarForm (entering : Entering String) (text : String) (extent : Extent)
    (form : Form) :
    HingesOn (AsksFor table (.mk extent form))
      (fun other => scalarForm table other text extent.text form) entering := by
  match form with
  | .string value => exact .ok value
  | .number _ => exact .ok extent.text
  | .bool value => exact .ok _
  | .parens inner => exact (hingesOn_scalarExpr entering text inner).imp fun _ _ => .parens extent
  | .template parts =>
    exact (hingesOn_scalarParts entering text parts).imp
      fun _ _ => PartsAskFor.asksFor_template extent
  | .heredoc delimiter parts =>
    have below := (hingesOn_scalarParts entering text parts).imp
      fun _ _ => PartsAskFor.asksFor_heredoc extent delimiter
    exact below.bind fun whole _ => .ok (dropFinalBreak whole)
  | .traversal root path =>
    -- What the reference leads to is settled by the table, and only a token is entered.
    refine (hingesOn_lookup extent.text root path).bind fun (name, value) found => ?_
    match value with
    | .scalar token => exact .enter (asksFor_of_lookup extent found)
    | .list _ | .map _ => exact .error nofun
  | .variable _ | .null | .list _ | .object _ | .conditional .. | .call .. | .unary ..
  | .binary .. | .listFor .. | .objectFor .. =>
    exact .error nofun

theorem hingesOn_scalarParts (entering : Entering String) (text : String) (parts : List Part) :
    HingesOn (PartsAskFor table parts) (fun other => scalarParts table other text parts)
      entering := by
  match parts with
  | [] => exact .ok ""
  | .literal value :: rest =>
    have behind := (hingesOn_scalarParts entering text rest).imp
      fun _ _ => PartsAskFor.cons (.literal value)
    exact behind.bind fun others _ => .ok (value ++ others)
  | .interpolation trim inner :: rest =>
    -- The parts behind are not evaluated unless this one has a text.
    have first := (hingesOn_scalarExpr entering text inner).imp
      fun _ _ => partsAskFor_first trim rest
    have behind := (hingesOn_scalarParts entering text rest).imp
      fun _ _ => PartsAskFor.cons (.interpolation trim inner)
    exact first.bind fun value _ => behind.bind fun others _ => .ok (value ++ others)
  | .branch .. :: _ | .loop .. :: _ => exact .error nofun

end

/-! ## Lists -/

theorem reportsNoCycle_itemsOfVariable (name : String) (items : List Value) :
    ReportsNoCycle (items.mapM (itemOfVariable name)) := by
  intro names same
  obtain ⟨_, item, _, _, _, failed⟩ := mapM_eq_error_iff_first.mp same
  cases item with
  | scalar | list | map => cases failed

mutual

/-- The items of an expression hinge on the tokens it asks for, again along the syntax tree. -/
theorem hingesOn_listExpr (entering : Entering (List Token)) (token : Token) (e : Expr) :
    HingesOn (AsksFor table e) (fun other => listExpr table other token e) entering := by
  match e with
  | .mk extent form =>
    unfold listExpr
    exact hingesOn_listForm entering token extent form

theorem hingesOn_listForm (entering : Entering (List Token)) (token : Token) (extent : Extent)
    (form : Form) :
    HingesOn (AsksFor table (.mk extent form))
      (fun other => listForm table other token extent.text form) entering := by
  match form with
  | .list items => exact .ok _
  | .parens inner => exact (hingesOn_listExpr entering token inner).imp fun _ _ => .parens extent
  | .template parts =>
    exact (hingesOn_listParts entering token parts).imp
      fun _ _ => PartsAskFor.asksFor_template extent
  | .traversal root path =>
    refine (hingesOn_lookup extent.text root path).bind fun (name, value) found => ?_
    match value with
    | .scalar token => exact .enter (asksFor_of_lookup extent found)
    | .list items => exact .const (reportsNoCycle_itemsOfVariable name items)
    | .map _ => exact .error nofun
  | .string _ | .number _ | .bool _ | .object _ | .variable _ | .null | .heredoc ..
  | .conditional .. | .call .. | .unary .. | .binary .. | .listFor .. | .objectFor .. =>
    exact .error nofun

theorem hingesOn_listParts (entering : Entering (List Token)) (token : Token)
    (parts : List Part) :
    HingesOn (PartsAskFor table parts) (fun other => listParts table other token parts)
      entering := by
  match parts with
  -- A template with anything beside one interpolation is a text, whatever it asks for.
  | [.interpolation trim inner] =>
    exact (hingesOn_listExpr entering token inner).imp fun _ _ => partsAskFor_first trim []
  | [] | .literal _ :: _ | .branch .. :: _ | .loop .. :: _ | .interpolation .. :: _ :: _ =>
    exact .error nofun

end

/-! ## Tokens one inside the other -/

/-- The rules by which the expression of a token is evaluated, given how variables are
entered. -/
abbrev Evaluator (α : Type) : Type := Entering α → Token → Expr → Except EvalError α

/-- The rules for texts. -/
def scalarEvaluator (table : VariableTable) : Evaluator String :=
  fun entering token e => scalarExpr table entering token.text e

/-- The rules for lists. -/
def listEvaluator (table : VariableTable) : Evaluator (List Token) := listExpr table

/-- Evaluation by some rules depends on entering. -/
def Evaluator.Hinges (table : VariableTable) (evaluate : Evaluator α) : Prop :=
  ∀ entering token e,
    HingesOn (AsksFor table e) (fun other => evaluate other token e) entering

/-- The evaluation of scalars enters a variable only where the expression asks for it. -/
theorem hinges_scalarEvaluator : (scalarEvaluator table).Hinges table :=
  fun entering token e => hingesOn_scalarExpr entering token.text e

theorem hinges_listEvaluator : (listEvaluator table).Hinges table :=
  hingesOn_listExpr

/-- Evaluation of a token by some rules, while variables are being followed, where at most `depth`
tokens are entered one inside the other. -/
def Evaluator.token (evaluate : Evaluator α) : Nat → List String → Token → Except EvalError α
  | 0, followed, _ => .error (.circular followed)
  | depth + 1, followed, token => do
    let e ← parse token.text
    evaluate (enter (evaluate.token depth) followed) token e

/-- The evaluation with a given depth is that of the evaluator for scalars. -/
theorem scalarToken_eq (table : VariableTable) (depth : Nat) :
    scalarToken table depth = (scalarEvaluator table).token depth := by
  induction depth with
  | zero => rfl
  | succ depth ih =>
    funext followed token
    rw [scalarToken, Evaluator.token, ih]
    rfl

theorem listToken_eq (table : VariableTable) (depth : Nat) :
    listToken table depth = (listEvaluator table).token depth := by
  induction depth with
  | zero => rfl
  | succ depth ih =>
    funext followed token
    rw [listToken, Evaluator.token, ih]
    rfl

theorem resolveScalar_eq_token (table : VariableTable) (token : Token) :
    resolveScalar table token = (scalarEvaluator table).token (depthOf table) [] token := by
  rw [resolveScalar, scalarToken_eq]

/-- The items of a list are moved once it has been found. -/
theorem resolveList_eq_token (table : VariableTable) (token : Token) :
    resolveList table token =
      ((listEvaluator table).token (depthOf table) [] token).map
        fun items => items.map (·.movedTo token.position) := by
  rw [resolveList, listToken_eq]
  rfl

/-- The items of a list are those of the evaluator, moved to where the list stands. -/
theorem resolveList_eq_ok_iff_token {token : Token} {items : List Token} :
    resolveList table token = .ok items ↔
      ∃ others, (listEvaluator table).token (depthOf table) [] token = .ok others ∧
        others.map (·.movedTo token.position) = items := by
  rw [resolveList_eq_token]
  cases (listEvaluator table).token (depthOf table) [] token with
  | error failure => simp [Except.map]
  | ok others => simp [Except.map]

end HclLint.Eval
