/-
# References are transparent

A reference to a variable that holds a token denotes what the token denotes, be it a text or a
list. The two evaluations differ in what is being followed: behind the reference, the variable is.

Being followed can only make an evaluation fail, so it does no harm to follow fewer variables. It
does no harm either to follow the variable in an evaluation of its own token that succeeds. Of all
such evaluations the shallowest one never comes back to the variable, for what would then be
evaluated is the same token once more, and less deep.

## Main definitions

* `TextIsReference`: a text that is nothing but a reference to a variable.

## Main statements

* `Evaluator.token_mono`: a success stays one, with more depth and with fewer variables followed.
* `Evaluator.token_behind_iff`: the token of a variable is evaluated alike behind the variable.
* `reference_transparent`: a reference denotes what the variable's token denotes.
-/

import HclLint.Proofs.Eval.Termination
import HclLint.Proofs.Eval.Verbatim

namespace HclLint.Eval

open HclLint.Text HclLint.Hcl HclLint.Hcl.Grammar HclLint.Model

variable {α : Type} {table : VariableTable} {evaluate : Evaluator α} {name : String}
  {own token : Token}

/-! ## Successes -/

/-- A success stays a success, with the same result, where more depth is left and fewer variables
are being followed. -/
theorem Evaluator.token_mono (hinges : evaluate.Hinges table) {depth deeper : Nat}
    {followed fewer : List String} {a : α} (more : depth ≤ deeper) (within : fewer ⊆ followed)
    (success : evaluate.token depth followed token = .ok a) :
    evaluate.token deeper fewer token = .ok a := by
  induction depth generalizing deeper followed fewer token a with
  | zero => cases success
  | succ depth ih =>
    obtain ⟨deeper, rfl⟩ : ∃ less, deeper = less + 1 :=
      Nat.exists_eq_add_one_of_ne_zero (by omega)
    obtain ⟨e, parsed, success⟩ := except_bind_eq_ok.mp success
    refine except_bind_eq_ok.mpr ⟨e, parsed, (hinges _ token e).mono success ?_⟩
    -- What is entered with success here is entered with success there, one level further in.
    intro name inner _ b entered
    obtain ⟨fresh, below⟩ := enter_eq_ok entered
    rw [enter_of_fresh fun member => fresh (within member)]
    apply ih (by omega) _ below
    exact List.append_subset.mpr
      ⟨List.Subset.trans within (List.subset_append_left _ _), List.subset_append_right _ _⟩

/-! ## The token of a variable -/

/-- No step leads out of a token. -/
theorem Reaches.eq_of_scalar {target : Value} {path : List Step}
    (reached : Reaches (.scalar own) path target) : target = .scalar own := by
  cases reached with
  | here => rfl
  | step taken _ => cases taken

/-- A variable that holds a token is entered with that token only. -/
theorem AsksFor.eq_of_scalar {e : Expr} (current : table.get name = .ok (.scalar own))
    (asked : AsksFor table e name token) : token = own := by
  obtain ⟨_, value, _, found, reached⟩ := asked
  obtain rfl := Except.ok.inj (current.symm.trans found)
  exact Value.scalar.inj reached.eq_of_scalar

/-- As long as the variable's own token is evaluated with success at no smaller depth, the variable
can be followed as well: no success comes through it. -/
theorem Evaluator.token_cons (hinges : evaluate.Hinges table)
    (current : table.get name = .ok (.scalar own)) {least depth : Nat}
    (none : ∀ smaller < least, ∀ b, evaluate.token smaller [] own ≠ .ok b) (within : depth ≤ least)
    {followed : List String} {a : α} (success : evaluate.token depth followed token = .ok a) :
    evaluate.token depth (name :: followed) token = .ok a := by
  induction depth generalizing followed token a with
  | zero => cases success
  | succ depth ih =>
    obtain ⟨e, parsed, success⟩ := except_bind_eq_ok.mp success
    refine except_bind_eq_ok.mpr ⟨e, parsed, (hinges _ token e).mono success ?_⟩
    intro other inner asked b entered
    obtain ⟨fresh, below⟩ := enter_eq_ok entered
    have different : other ≠ name := by
      rintro rfl
      -- It would be entered with its own token, which then has a success that is less deep.
      rw [asked.eq_of_scalar current] at below
      have alone := Evaluator.token_mono hinges (Nat.le_refl _) (List.nil_subset _) below
      exact none depth (by omega) b alone
    have unfollowed : other ∉ name :: followed := by
      rw [List.mem_cons]
      exact not_or_intro different fresh
    rw [enter_of_fresh unfollowed]
    exact ih (by omega) below

/-- At any depth, the token of a variable is evaluated with success behind the variable just if it
is on its own. -/
theorem Evaluator.token_behind_iff (hinges : evaluate.Hinges table)
    (current : table.get name = .ok (.scalar own)) (depth : Nat) (a : α) :
    evaluate.token depth [name] own = .ok a ↔ evaluate.token depth [] own = .ok a := by
  constructor
  · exact Evaluator.token_mono hinges (Nat.le_refl _) (List.nil_subset _)
  · intro success
    induction depth using Nat.strongRecOn generalizing a with
    | ind depth ih =>
      by_cases shallower : ∃ smaller < depth, ∃ b, evaluate.token smaller [] own = .ok b
      · obtain ⟨smaller, less, b, before⟩ := shallower
        have deepens {followed : List String} : evaluate.token smaller followed own = .ok b →
            evaluate.token depth followed own = .ok b :=
          Evaluator.token_mono hinges (Nat.le_of_lt less) (List.Subset.refl _)
        obtain rfl := Except.ok.inj ((deepens before).symm.trans success)
        exact deepens (ih smaller less b before)
      · have none : ∀ smaller < depth, ∀ b, evaluate.token smaller [] own ≠ .ok b :=
          fun smaller less b before => shallower ⟨smaller, less, b, before⟩
        exact Evaluator.token_cons hinges current none (Nat.le_refl _) success

/-! ## References -/

/-- The text is nothing but a reference to the variable, with no steps into its value. A name that
is no identifier has no such text. -/
def TextIsReference (name text : String) : Prop :=
  ∃ e, parse text = .ok e ∧ IsReferenceTo name e

theorem textIsReference_of_isIdentifier (known : isIdentifier name = true) :
    TextIsReference name ("var." ++ name) := by
  obtain ⟨e, read, refers⟩ := readExpr_reference known
  exact ⟨e, parse_eq_ok read, refers⟩

theorem lookup_of_isReferenceTo {e : Expr} (refers : IsReferenceTo name e)
    (current : table.get name = .ok (.scalar own)) :
    ∃ extent root path, e = .mk extent (.traversal root path) ∧
      lookup table extent.text root path = .ok (name, .scalar own) := by
  obtain ⟨extent, form⟩ := e
  obtain ⟨⟨rootExtent, rootForm⟩, traversal, isVar⟩ := refers
  obtain rfl : form = .traversal _ [.attribute name] := traversal
  obtain rfl : rootForm = .variable "var" := isVar
  exact ⟨extent, _, _, rfl, lookup_of_reaches _ rootExtent current (.here _)⟩

/-- The rules enter a variable that is referred to, with its token. -/
def Evaluator.EntersReferences (table : VariableTable) (evaluate : Evaluator α) : Prop :=
  ∀ entering token e name own, IsReferenceTo name e → table.get name = .ok (.scalar own) →
    evaluate entering token e = entering name own

theorem entersReferences_scalarEvaluator : (scalarEvaluator table).EntersReferences table := by
  intro entering token e name own refers current
  obtain ⟨extent, root, path, rfl, found⟩ := lookup_of_isReferenceTo refers current
  rw [scalarEvaluator, scalarExpr, scalarForm, found]
  rfl

theorem entersReferences_listEvaluator : (listEvaluator table).EntersReferences table := by
  intro entering token e name own refers current
  obtain ⟨extent, root, path, rfl, found⟩ := lookup_of_isReferenceTo refers current
  rw [listEvaluator, listExpr, listForm, found]
  rfl

/-- Where the rules do nothing but enter a variable, its token is evaluated behind it. -/
theorem Evaluator.token_of_enters (hinges : evaluate.Hinges table) {e : Expr}
    (declared : name ∈ table.names) (parsed : parse token.text = .ok e)
    (enters : ∀ entering, evaluate entering token e = entering name own) :
    evaluate.token (depthOf table) [] token = evaluate.token (depthOf table) [name] own := by
  have followable : IsFollowable table [name] :=
    isFollowable_nil.entered declared List.not_mem_nil
  have entered : evaluate.token (depthOf table) [] token =
      evaluate.token table.declared.length [name] own := by
    rw [depthOf, Evaluator.token, parsed]
    change evaluate _ token e = _
    rw [enters, enter_of_fresh List.not_mem_nil]
    rfl
  -- Behind the variable, the depth that is left is enough.
  rw [entered]
  apply Evaluator.token_eq_of_enough hinges followable
  · rw [VariableTable.length_names, List.length_singleton]
    omega
  · rw [VariableTable.length_names, List.length_singleton, depthOf]
    omega

/-- By either rules, a reference and the token of its variable have the same successes. -/
theorem Evaluator.token_reference_iff (hinges : evaluate.Hinges table)
    (enters : evaluate.EntersReferences table) (current : table.get name = .ok (.scalar own))
    (reference : TextIsReference name token.text) (a : α) :
    evaluate.token (depthOf table) [] token = .ok a ↔
      evaluate.token (depthOf table) [] own = .ok a := by
  obtain ⟨e, parsed, refers⟩ := reference
  rw [Evaluator.token_of_enters hinges (mem_keys_of_get current) parsed
    fun entering => enters entering token e name own refers current]
  exact Evaluator.token_behind_iff hinges current (depthOf table) a

/-- Only the last move of a list shows. -/
theorem map_movedTo_map (items : List Token) (first last : Position) :
    (items.map (·.movedTo first)).map (·.movedTo last) = items.map (·.movedTo last) :=
  List.map_map

/-- **References are transparent.** Take a variable that holds a token. A reference to it denotes a
text just if the token does, the same one, and a list just if the token does, with the same items
but for their positions, which are those of the reference. The same successes come of the token
when the variable is already being followed. What is written `var.` and an identifier is such a
reference. -/
theorem reference_transparent (table : VariableTable) {name : String} {own : Token}
    (current : table.get name = .ok (.scalar own)) :
    (∀ reference : Token, TextIsReference name reference.text →
      (∀ text, resolveScalar table reference = .ok text ↔ resolveScalar table own = .ok text) ∧
      ∀ items, resolveList table reference = .ok items ↔
        ∃ others, resolveList table own = .ok others ∧
          items = others.map (·.movedTo reference.position)) ∧
    (∀ text, scalarToken table (depthOf table) [name] own = .ok text ↔
      scalarToken table (depthOf table) [] own = .ok text) ∧
    (∀ items, listToken table (depthOf table) [name] own = .ok items ↔
      listToken table (depthOf table) [] own = .ok items) ∧
    (isIdentifier name = true → TextIsReference name ("var." ++ name)) := by
  refine ⟨fun reference refers => ⟨fun text => ?_, fun items => ?_⟩, ?_, ?_,
    textIsReference_of_isIdentifier⟩
  · rw [resolveScalar_eq_token, resolveScalar_eq_token]
    exact Evaluator.token_reference_iff hinges_scalarEvaluator entersReferences_scalarEvaluator
      current refers text
  · have same := Evaluator.token_reference_iff hinges_listEvaluator entersReferences_listEvaluator
      current refers
    rw [resolveList_eq_ok_iff_token]
    constructor
    · rintro ⟨others, listed, rfl⟩
      exact ⟨_, resolveList_eq_ok_iff_token.mpr ⟨others, (same others).mp listed, rfl⟩,
        (map_movedTo_map others own.position reference.position).symm⟩
    · rintro ⟨_, resolved, rfl⟩
      obtain ⟨others, listed, rfl⟩ := resolveList_eq_ok_iff_token.mp resolved
      exact ⟨others, (same others).mpr listed,
        (map_movedTo_map others own.position reference.position).symm⟩
  · rw [scalarToken_eq]
    exact Evaluator.token_behind_iff hinges_scalarEvaluator current (depthOf table)
  · rw [listToken_eq]
    exact Evaluator.token_behind_iff hinges_listEvaluator current (depthOf table)

/-- A variable that holds a text, and one that holds a reference to it. -/
def aliasTable : VariableTable :=
  (VariableTable.empty.declare ⟨"region", .unknown, some (.scalar (.ofText "west"))⟩).declare
    ⟨"place", .unknown, some (.scalar ⟨.expression, "var.region", .unknown⟩)⟩

/-- The reference to the second variable denotes the text of the first. -/
theorem reference_transparent_alias :
    aliasTable.get "place" = .ok (.scalar ⟨.expression, "var.region", .unknown⟩) ∧
      TextIsReference "place" "var.place" ∧
      resolveScalar aliasTable ⟨.expression, "var.place", .unknown⟩ = .ok "west" := by
  have current : aliasTable.get "place" =
      .ok (.scalar ⟨.expression, "var.region", .unknown⟩) := rfl
  have target : aliasTable.get "region" = .ok (.scalar (.ofText "west")) := rfl
  have own : resolveScalar aliasTable ⟨.expression, "var.region", .unknown⟩ = .ok "west" :=
    resolveScalar_reference (by decide) target rfl
  obtain ⟨transparent, _, _, refers⟩ := reference_transparent aliasTable current
  have written : TextIsReference "place" "var.place" := refers (by decide)
  have same := transparent ⟨.expression, "var.place", .unknown⟩ written
  exact ⟨current, written, (same.1 "west").mpr own⟩

end HclLint.Eval
