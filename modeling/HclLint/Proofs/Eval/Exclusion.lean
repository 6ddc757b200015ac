/-
# Texts and lists exclude each other

Texts and lists are evaluated by different rules, but both are led along the same chain. They pass
parentheses, a template that holds nothing but one value, and references, each of which leads to
one token. So they come to the same end, and what is found there is of one shape: one evaluation
succeeds with it, and for the other it is of the wrong one.

## Main definitions

* `RefusesList`: the failures that tell that a text was found where a list is sought.

## Main statements

* `ListDerivation.scalarExpr_eq`: what denotes a list fails as a text, since a list was found.
* `Derivation.listExpr_eq`: what denotes a text fails as a list.
* `not_text_and_list`: no token denotes both.
-/

import HclLint.Proofs.Eval.ListDerivation

namespace HclLint.Eval

open HclLint.Text HclLint.Hcl HclLint.Model

variable {table : VariableTable}

/-! ## What denotes a list is no text -/

/-- What denotes a list fails as a text. The same variables are entered, none of them twice, so that
it does not fail on the way but at the list. -/
theorem ListDerivation.scalarExpr_eq {e : Expr} {elements : List Content}
    (d : ListDerivation table e elements) {followed : List String} {depth : Nat} (text : String)
    (distinct : (followed ++ d.entered).Nodup) (enough : d.entered.length ≤ depth) :
    ∃ whole, scalarExpr table (enter (scalarToken table depth) followed) text e =
      .error (.notString whole "list") := by
  induction d generalizing followed depth text with
  | list extent items => exact ⟨text, rfl⟩
  | «variable» extent rootExtent name current reached =>
    have found := lookup_of_reaches extent.text rootExtent current reached
    refine ⟨extent.text, ?_⟩
    rw [scalarExpr, scalarForm, found]
    rfl
  | parens extent below ih => exact ih text distinct enough
  | template extent trim below ih =>
    obtain ⟨whole, failed⟩ := ih text distinct enough
    exact ⟨whole, except_bind_eq_error_iff.mpr (.inl failed)⟩
  | reference extent rootExtent name current reached parsed below ih =>
    -- The depth is not yet used up, since the chain goes through this variable.
    obtain ⟨less, rfl⟩ : ∃ less, depth = less + 1 :=
      Nat.exists_eq_add_one_of_ne_zero (Nat.ne_zero_of_lt enough)
    have fresh := fresh_of_nodup_append distinct
    have behind : ((followed ++ [name]) ++ below.entered).Nodup := by rwa [List.append_assoc]
    obtain ⟨whole, failed⟩ := ih _ behind (Nat.le_of_succ_le_succ enough)
    have found := lookup_of_reaches extent.text rootExtent current reached
    refine ⟨whole, except_bind_eq_error_iff.mpr (.inr ⟨_, found, ?_⟩)⟩
    change enter (scalarToken table (less + 1)) followed name _ = _
    rw [enter_of_fresh fresh]
    exact except_bind_eq_error_iff.mpr (.inr ⟨_, parsed, failed⟩)

/-- A token that denotes a list fails as a text, at the list. -/
theorem resolveScalar_of_list {token : Token} {items : List Token}
    (listed : resolveList table token = .ok items) :
    ∃ whole, resolveScalar table token = .error (.notString whole "list") := by
  obtain ⟨e, parsed, elements, d, distinct, -⟩ :=
    (resolveList_eq_ok_iff table token items).mp listed
  have alone : ([] ++ d.entered).Nodup := distinct
  obtain ⟨whole, failed⟩ := d.scalarExpr_eq token.text alone (d.length_le_of_nodup distinct)
  exact ⟨whole, except_bind_eq_error_iff.mpr (.inr ⟨e, parsed, failed⟩)⟩

/-! ## What denotes a text is no list -/

/-- The failure tells that a text was found where a list is sought: a literal, a template, or a
heredoc, which is no list however it is written. -/
inductive RefusesList : EvalError → Prop where
  | literal (text : String) : RefusesList (.notList text "scalar")
  | template (text : String) : RefusesList (.notList text "string")
  | heredoc (text : String) : RefusesList (.unsupported text .computed)

mutual

/-- What denotes a text fails as a list, and does so where the text is written. -/
theorem Derivation.listExpr_eq {e : Expr} {text : String} (d : Derivation table e text)
    {followed : List String} {depth : Nat} (token : Token)
    (distinct : ∀ branch ∈ d.branches, (followed ++ branch).Nodup)
    (enough : ∀ branch ∈ d.branches, branch.length ≤ depth) :
    ∃ failure, RefusesList failure ∧
      listExpr table (enter (listToken table depth) followed) token e = .error failure := by
  match d with
  | .string _ _ => exact ⟨_, .literal token.text, rfl⟩
  | .number _ _ => exact ⟨_, .literal token.text, rfl⟩
  | .bool _ _ => exact ⟨_, .literal token.text, rfl⟩
  | .heredoc _ _ _ _ => exact ⟨_, .heredoc token.text, rfl⟩
  | .parens _ below => exact below.listExpr_eq token distinct enough
  | .template _ below => exact below.listParts_eq token distinct enough
  | .reference extent rootExtent name current reached parsed below =>
    -- Some branch goes through this variable, so that it is fresh and the depth is not used up.
    obtain ⟨first, member⟩ := List.exists_mem_of_ne_nil _ below.branches_ne_nil
    have behind : name :: first ∈ below.branches.map (name :: ·) := List.mem_map_of_mem member
    obtain ⟨less, rfl⟩ : ∃ less, depth = less + 1 :=
      Nat.exists_eq_add_one_of_ne_zero (Nat.ne_zero_of_lt (enough _ behind))
    have distinctBelow : ∀ branch ∈ below.branches, (followed ++ [name] ++ branch).Nodup := by
      intro branch memberBelow
      rw [List.append_assoc]
      exact distinct _ (List.mem_map_of_mem memberBelow)
    have enoughBelow : ∀ branch ∈ below.branches, branch.length ≤ less := fun branch memberBelow =>
      Nat.le_of_succ_le_succ (enough _ (List.mem_map_of_mem memberBelow))
    obtain ⟨failure, refuses, failed⟩ := below.listExpr_eq _ distinctBelow enoughBelow
    have found := lookup_of_reaches extent.text rootExtent current reached
    refine ⟨failure, refuses, except_bind_eq_error_iff.mpr (.inr ⟨_, found, ?_⟩)⟩
    change enter (listToken table (less + 1)) followed name _ = _
    rw [enter_of_fresh (fresh_of_nodup_append (distinct _ behind))]
    exact except_bind_eq_error_iff.mpr (.inr ⟨_, parsed, failed⟩)

theorem PartsDerivation.listParts_eq {parts : List Part} {text : String}
    (d : PartsDerivation table parts text) {followed : List String} {depth : Nat} (token : Token)
    (distinct : ∀ branch ∈ d.branches, (followed ++ branch).Nodup)
    (enough : ∀ branch ∈ d.branches, branch.length ≤ depth) :
    ∃ failure, RefusesList failure ∧
      listParts table (enter (listToken table depth) followed) token parts = .error failure := by
  match d with
  | .nil => exact ⟨_, .template token.text, rfl⟩
  | .literal _ _ => exact ⟨_, .template token.text, rfl⟩
  | @PartsDerivation.interpolation _ _ _ rest _ _ below _ =>
    -- Only a template that holds nothing else is passed.
    cases rest with
    | nil =>
      exact below.listExpr_eq token (List.forall_mem_append.mp distinct).1
        (List.forall_mem_append.mp enough).1
    | cons => exact ⟨_, .template token.text, rfl⟩

end

/-- A token that denotes a text fails as a list, at the text. -/
theorem resolveList_of_text {token : Token} {text : String}
    (resolved : resolveScalar table token = .ok text) :
    ∃ failure, RefusesList failure ∧ resolveList table token = .error failure := by
  obtain ⟨e, parsed, d, distinct⟩ := (resolveScalar_eq_ok_iff table token text).mp resolved
  have enough : ∀ branch ∈ d.branches, branch.length ≤ table.declared.length :=
    fun branch member => d.length_le_of_nodup member (distinct branch member)
  have alone : ∀ branch ∈ d.branches, ([] ++ branch).Nodup := distinct
  obtain ⟨failure, refuses, failed⟩ := d.listExpr_eq token alone enough
  have computed : listToken table (depthOf table) [] token = .error failure :=
    except_bind_eq_error_iff.mpr (.inr ⟨e, parsed, failed⟩)
  exact ⟨failure, refuses, except_bind_eq_error_iff.mpr (.inl computed)⟩

/-! ## Exclusion -/

/-- **No token is both a text and a list.** Whatever references, parentheses, templates and indexes
a token goes through, resolving it as a text or resolving it as a list fails. If it denotes a list,
its failure as a text says that a list was found, and if it denotes a text, its failure as a list
says that a text was. -/
theorem not_text_and_list (table : VariableTable) (token : Token) :
    (¬ ∃ text items, resolveScalar table token = .ok text ∧ resolveList table token = .ok items) ∧
    (∀ items, resolveList table token = .ok items →
      ∃ whole, resolveScalar table token = .error (.notString whole "list")) ∧
    ∀ text, resolveScalar table token = .ok text →
      ∃ failure, RefusesList failure ∧ resolveList table token = .error failure := by
  refine ⟨?_, fun _ => resolveScalar_of_list, fun _ => resolveList_of_text⟩
  rintro ⟨text, items, resolved, listed⟩
  obtain ⟨whole, failed⟩ := resolveScalar_of_list listed
  rw [resolved] at failed
  cases failed

/-- A variable that holds a list of one text. -/
def letterTable : VariableTable :=
  VariableTable.empty.declare ⟨"letters", .unknown, some (.list [.scalar (.ofText "a")])⟩

/-- Written in a template and in parentheses, the variable is still a list, and its element is a
text. -/
theorem not_text_and_list_letters :
    (resolveList letterTable ⟨.template, "\"$\x7b(var.letters)\x7d\"", .unknown⟩ =
        .ok [.ofText "a"] ∧
      ∃ whole, resolveScalar letterTable ⟨.template, "\"$\x7b(var.letters)\x7d\"", .unknown⟩ =
        .error (.notString whole "list")) ∧
    resolveScalar letterTable ⟨.expression, "(var.letters[0])", .unknown⟩ = .ok "a" ∧
      ∃ failure, RefusesList failure ∧
        resolveList letterTable ⟨.expression, "(var.letters[0])", .unknown⟩ = .error failure := by
  have listed : resolveList letterTable ⟨.template, "\"$\x7b(var.letters)\x7d\"", .unknown⟩ =
      .ok [.ofText "a"] := by decide +kernel
  have resolved : resolveScalar letterTable ⟨.expression, "(var.letters[0])", .unknown⟩ =
      .ok "a" := by decide +kernel
  exact ⟨⟨listed, (not_text_and_list letterTable _).2.1 _ listed⟩, resolved,
    (not_text_and_list letterTable _).2.2 _ resolved⟩

end HclLint.Eval
