/-
# Evaluation ends

Nothing gets smaller when a variable is entered: its token is read afresh, and its text may be as
long as any and refer to whatever it likes. What ends an evaluation is that a variable is not
entered while it is being followed. Those being followed are declared and distinct, so that fewer
and fewer are left to be entered.

An evaluation is told here without any bound on its depth, as a finite tree of tokens that are
entered one inside the other. Each table and token have exactly one such tree, and the bound that
the functions go by is never what they stop at.

## Main definitions

* `IsFollowable`: the variables that can be followed at the same time.
* `Evaluation`: a finite evaluation of a token.

## Main statements

* `Evaluation.unique`: a token has one outcome.
* `Evaluator.evaluation_token`: what is computed within a bound is the outcome of an evaluation.
* `evaluation_ends`: every table and token have an evaluation.
-/

import Mathlib.Data.List.Perm.Subperm
import HclLint.Proofs.Entries
import HclLint.Proofs.Eval.Adequacy
import HclLint.Proofs.Eval.Entering

namespace HclLint.Eval

open HclLint.Text HclLint.Hcl HclLint.Model

variable {α : Type} {table : VariableTable} {evaluate : Evaluator α} {followed : List String}

/-! ## What can be followed at the same time -/

/-- There are as many names as variables. -/
theorem VariableTable.length_names (table : VariableTable) :
    table.names.length = table.declared.length :=
  List.length_map _

/-- Variables that can be followed at the same time: declared ones and each of them once, so that
there are no more of them than variables. -/
structure IsFollowable (table : VariableTable) (followed : List String) : Prop where
  distinct : followed.Nodup
  declared : followed ⊆ table.names
  few : followed.length ≤ table.names.length

/-- Declared names without repetition are no more than there are variables. -/
theorem IsFollowable.of_nodup (distinct : followed.Nodup) (declared : followed ⊆ table.names) :
    IsFollowable table followed :=
  ⟨distinct, declared, (List.subperm_of_subset distinct declared).length_le⟩

/-- At the start nothing is being followed. -/
theorem isFollowable_nil : IsFollowable table [] :=
  .of_nodup List.nodup_nil (List.nil_subset _)

/-- What an expression asks to enter is declared. -/
theorem AsksFor.declared {e : Expr} {name : String} {token : Token}
    (asked : AsksFor table e name token) : name ∈ table.names := by
  obtain ⟨_, _, _, current, _⟩ := asked
  exact mem_keys_of_get current

/-- A declared variable that is not being followed can be followed behind the others. -/
theorem IsFollowable.entered {name : String} (followable : IsFollowable table followed)
    (declared : name ∈ table.names) (fresh : name ∉ followed) :
    IsFollowable table (followed ++ [name]) := by
  apply IsFollowable.of_nodup (nodup_append_of_fresh followable.distinct fresh)
  exact List.append_subset.mpr
    ⟨followable.declared, List.cons_subset.mpr ⟨declared, List.nil_subset _⟩⟩

/-! ## Evaluations -/

/-- A finite evaluation of a token by some rules, with its outcome. Each variable that the token's
expression asks to enter is evaluated in turn, behind those being followed, unless it is one of
them. At every point, what is being followed is admitted. -/
inductive Evaluation (table : VariableTable) (evaluate : Evaluator α)
    (admits : List String → Prop) : List String → Token → Except EvalError α → Prop where
  | malformed {followed : List String} {token : Token} {failure : EvalError}
      (here : admits followed) (refused : parse token.text = .error failure) :
      Evaluation table evaluate admits followed token (.error failure)
  | evaluated {followed : List String} {token : Token} {e : Expr} (here : admits followed)
      (parsed : parse token.text = .ok e) (entering : Entering α)
      (entered : ∀ name inner, AsksFor table e name inner → name ∉ followed →
        Evaluation table evaluate admits (followed ++ [name]) inner (entering name inner))
      (refused : ∀ name inner, AsksFor table e name inner → name ∈ followed →
        entering name inner = .error (.circular (followed ++ [name]))) :
      Evaluation table evaluate admits followed token (evaluate entering token e)

/-- A token has one outcome, however evaluations are found and whatever they admit. -/
theorem Evaluation.unique {admits admits' : List String → Prop} {token : Token}
    {outcome other : Except EvalError α} (hinges : evaluate.Hinges table)
    (evaluation : Evaluation table evaluate admits followed token outcome)
    (another : Evaluation table evaluate admits' followed token other) : other = outcome := by
  -- Both read the same text, so that both are of the same kind.
  induction evaluation generalizing other with
  | malformed _ refused =>
    cases another with
    | malformed _ refused' =>
      exact congrArg Except.error (Except.error.inj (refused'.symm.trans refused))
    | evaluated _ parsed' =>
      rw [refused] at parsed'
      cases parsed'
  | @evaluated followed token e _ parsed entering _ refused ih =>
    cases another with
    | malformed _ refused' =>
      rw [parsed] at refused'
      cases refused'
    | evaluated _ parsed' entering' entered' refused' =>
      obtain rfl := Except.ok.inj (parsed.symm.trans parsed')
      -- What is not asked for may be entered differently, and does not matter.
      refine (hinges entering token e).congr fun name inner asked => ?_
      by_cases member : name ∈ followed
      · rw [refused name inner asked member, refused' name inner asked member]
      · exact ih name inner asked member (entered' name inner asked member)

/-- Within a depth for which there are not enough variables, what is computed is the outcome of an
evaluation. -/
theorem Evaluator.evaluation_token {depth : Nat} {token : Token}
    (followable : IsFollowable table followed)
    (enough : table.names.length < followed.length + depth) :
    Evaluation table evaluate (IsFollowable table) followed token
      (evaluate.token depth followed token) := by
  -- The deeper an evaluation is, the more variables are being followed.
  induction depth generalizing followed token with
  | zero => exact absurd followable.few (by omega)
  | succ depth ih =>
    rw [Evaluator.token]
    cases parsed : parse token.text with
    | error failure => exact .malformed followable parsed
    | ok e =>
      refine .evaluated followable parsed _ (fun name inner asked fresh => ?_)
        fun name inner asked member => enter_of_followed member
      rw [enter_of_fresh fresh]
      refine ih (followable.entered asked.declared fresh) ?_
      rw [List.length_append, List.length_singleton]
      omega

/-- Any depth that is enough gives the same outcome. -/
theorem Evaluator.token_eq_of_enough (hinges : evaluate.Hinges table) {depth depth' : Nat}
    {token : Token} (followable : IsFollowable table followed)
    (enough : table.names.length < followed.length + depth)
    (enough' : table.names.length < followed.length + depth') :
    evaluate.token depth followed token = evaluate.token depth' followed token :=
  (evaluate.evaluation_token followable enough').unique hinges
    (evaluate.evaluation_token followable enough)

theorem names_length_lt_depthOf (table : VariableTable) {depth : Nat}
    (enough : depthOf table ≤ depth) : table.names.length < ([] : List String).length + depth := by
  rw [depthOf] at enough
  rw [VariableTable.length_names, List.length_nil]
  omega

/-- By some rules, a token ends with an outcome: there is an evaluation during which only declared
and distinct variables are followed at the same time, no evaluation has another outcome, and every
depth from that of the table on computes it. -/
structure EndsWith (table : VariableTable) (evaluate : Evaluator α) (token : Token)
    (outcome : Except EvalError α) : Prop where
  evaluation : Evaluation table evaluate (IsFollowable table) [] token outcome
  unique : ∀ other, Evaluation table evaluate (fun _ => True) [] token other → other = outcome
  computed : ∀ depth, depthOf table ≤ depth → evaluate.token depth [] token = outcome

/-- Within the depth that is taken for a table, every token comes to an end. -/
theorem Evaluator.endsWith (hinges : evaluate.Hinges table) (token : Token) :
    EndsWith table evaluate token (evaluate.token (depthOf table) [] token) := by
  have enough := names_length_lt_depthOf table (Nat.le_refl _)
  have evaluation : Evaluation table evaluate (IsFollowable table) [] token _ :=
    evaluate.evaluation_token isFollowable_nil enough
  refine ⟨evaluation, fun _ => evaluation.unique hinges, fun depth more => ?_⟩
  exact Evaluator.token_eq_of_enough hinges isFollowable_nil
    (names_length_lt_depthOf table more) enough

theorem endsWith_resolveScalar (table : VariableTable) (token : Token) :
    EndsWith table (scalarEvaluator table) token (resolveScalar table token) := by
  rw [resolveScalar_eq_token]
  exact Evaluator.endsWith hinges_scalarEvaluator token

theorem endsWith_resolveList (table : VariableTable) (token : Token) :
    ∃ outcome, EndsWith table (listEvaluator table) token outcome ∧
      resolveList table token =
        outcome.map fun items => items.map (·.movedTo token.position) :=
  ⟨_, Evaluator.endsWith hinges_listEvaluator token, resolveList_eq_token table token⟩

/-- **Evaluation ends.** Whatever the variables of a table refer to, themselves included, every
token has a finite evaluation, as a text and as a list, and its outcome is what resolving the token
gives. At no point of it is a variable followed twice, and so there are never more being followed
than are declared. -/
theorem evaluation_ends (table : VariableTable) (token : Token) :
    EndsWith table (scalarEvaluator table) token (resolveScalar table token) ∧
      ∃ outcome, EndsWith table (listEvaluator table) token outcome ∧
        resolveList table token =
          outcome.map fun items => items.map (·.movedTo token.position) :=
  ⟨endsWith_resolveScalar table token, endsWith_resolveList table token⟩

end HclLint.Eval
