/-
# Evaluation by derivations

A token denotes a text exactly if its own text is an expression and the expression has a
derivation of that text in which no variable is entered twice along a branch. Variables may be
entered again on another branch, and in whatever way the values of a table refer to each other,
the variables being followed do nothing but keep a branch from coming back to one of them.

## Main definitions

* `DerivesBehind`: a derivation exists whose branches go on from variables being followed.

## Main statements

* `scalarToken_sound`: what is computed has a derivation.
* `Derivation.scalarExpr_eq`: what has a derivation is computed, where the depth is enough.
* `resolveScalar_eq_ok_iff`: both, for a token of its own.
-/

import Mathlib.Data.List.Perm.Subperm
import HclLint.Proofs.Entries
import HclLint.Proofs.Eval.Derivation

namespace HclLint.Eval

open HclLint.Text HclLint.Hcl HclLint.Model

variable {table : VariableTable} {entering : Entering String} {followed : List String}

/-! ## Variables being followed -/

section Followed

variable {α : Type} {resolve : List String → Token → Except EvalError α}

/-- A variable that is being followed is not entered again, and the cycle is reported. -/
theorem enter_of_followed {name : String} {token : Token} (member : name ∈ followed) :
    enter resolve followed name token = .error (.circular (followed ++ [name])) := by
  unfold enter
  rw [if_pos (by rwa [List.contains_iff_mem])]

/-- Any other variable is entered, with its name behind those that are followed. -/
theorem enter_of_fresh {name : String} {token : Token} (fresh : name ∉ followed) :
    enter resolve followed name token = resolve (followed ++ [name]) token := by
  unfold enter
  rw [if_neg (by rwa [List.contains_iff_mem])]

/-- Where entering succeeded, the variable was new. -/
theorem enter_eq_ok {name : String} {token : Token} {a : α}
    (entered : enter resolve followed name token = .ok a) :
    name ∉ followed ∧ resolve (followed ++ [name]) token = .ok a := by
  by_cases member : name ∈ followed
  · rw [enter_of_followed member] at entered
    cases entered
  · rw [enter_of_fresh member] at entered
    exact ⟨member, entered⟩

end Followed

/-- A new name keeps those that are followed distinct. -/
theorem nodup_append_of_fresh {name : String} (distinct : followed.Nodup)
    (fresh : name ∉ followed) : (followed ++ [name]).Nodup := by
  rw [← List.concat_eq_append]
  exact distinct.concat fresh

theorem fresh_of_nodup_append {name : String} {behind : List String}
    (distinct : (followed ++ name :: behind).Nodup) : name ∉ followed := by
  intro member
  have apart := (List.nodup_append.mp distinct).2.2
  exact apart name member name List.mem_cons_self rfl

/-! ## What is computed has a derivation -/

/-- An expression has a derivation of a text, in which no branch enters a variable twice or one
of those being followed. -/
def DerivesBehind (table : VariableTable) (followed : List String) (e : Expr) (text : String) :
    Prop :=
  ∃ d : Derivation table e text, ∀ branch ∈ d.branches, (followed ++ branch).Nodup

/-- The same for the parts of a template. -/
def PartsDeriveBehind (table : VariableTable) (followed : List String) (parts : List Part)
    (text : String) : Prop :=
  ∃ d : PartsDerivation table parts text, ∀ branch ∈ d.branches, (followed ++ branch).Nodup

/-- Whatever comes of entering a variable has a derivation behind it. -/
def Entering.Sound (table : VariableTable) (followed : List String)
    (entering : Entering String) : Prop :=
  ∀ name token text, entering name token = .ok text →
    ∃ e, parse token.text = .ok e ∧ DerivesBehind table (followed ++ [name]) e text

theorem nodup_behind_leaf (distinct : followed.Nodup) :
    ∀ branch ∈ [([] : List String)], (followed ++ branch).Nodup := by
  intro branch member
  rwa [List.mem_singleton.mp member, List.append_nil]

/-- What a reference was evaluated to is derived by following it, if entering is sound. -/
theorem derivesBehind_of_lookup {own value : String} {extent : Extent} {root : Expr}
    {path : List Step} {name : String} {token : Token} (enters : entering.Sound table followed)
    (found : lookup table own root path = .ok (name, .scalar token))
    (entered : entering name token = .ok value) :
    DerivesBehind table followed (.mk extent (.traversal root path)) value := by
  obtain ⟨rootExtent, steps, start, rfl, rfl, current, reached⟩ := lookup_eq_ok_iff.mp found
  obtain ⟨e, parsed, below, distinct⟩ := enters name token value entered
  refine ⟨.reference extent rootExtent name current reached parsed below, ?_⟩
  intro branch member
  obtain ⟨rest, memberBelow, rfl⟩ := List.mem_map.mp member
  have behind := distinct rest memberBelow
  rwa [List.append_assoc] at behind

mutual

/-- Every value that is computed is derived. The three functions of the evaluation are treated
together, along the syntax tree. -/
theorem scalarExpr_sound (enters : entering.Sound table followed) (distinct : followed.Nodup)
    {text value : String} (e : Expr) (computed : scalarExpr table entering text e = .ok value) :
    DerivesBehind table followed e value := by
  match e with
  | .mk extent form =>
    unfold scalarExpr at computed
    exact scalarForm_sound enters distinct form computed

theorem scalarForm_sound (enters : entering.Sound table followed) (distinct : followed.Nodup)
    {text value : String} {extent : Extent} (form : Form)
    (computed : scalarForm table entering text extent.text form = .ok value) :
    DerivesBehind table followed (.mk extent form) value := by
  match form with
  | .string literal =>
    obtain rfl := Except.ok.inj computed
    exact ⟨.string extent literal, nodup_behind_leaf distinct⟩
  | .number number =>
    obtain rfl := Except.ok.inj computed
    exact ⟨.number extent number, nodup_behind_leaf distinct⟩
  | .bool truth =>
    obtain rfl := Except.ok.inj computed
    exact ⟨.bool extent truth, nodup_behind_leaf distinct⟩
  | .parens inner =>
    obtain ⟨below, behind⟩ := scalarExpr_sound enters distinct inner computed
    exact ⟨.parens extent below, behind⟩
  | .template parts =>
    obtain ⟨below, behind⟩ := scalarParts_sound enters distinct parts computed
    exact ⟨.template extent below, behind⟩
  | .heredoc delimiter parts =>
    obtain ⟨whole, computedParts, kept⟩ := except_bind_eq_ok.mp computed
    obtain rfl := Except.ok.inj kept
    obtain ⟨below, behind⟩ := scalarParts_sound enters distinct parts computedParts
    exact ⟨.heredoc extent delimiter below (losesBreak_dropFinalBreak whole), behind⟩
  | .traversal root path =>
    obtain ⟨⟨name, target⟩, found, entered⟩ := except_bind_eq_ok.mp computed
    match target with
    | .scalar token => exact derivesBehind_of_lookup enters found entered
    | .list items => cases entered
    | .map entries => cases entered

theorem scalarParts_sound (enters : entering.Sound table followed) (distinct : followed.Nodup)
    {text value : String} (parts : List Part)
    (computed : scalarParts table entering text parts = .ok value) :
    PartsDeriveBehind table followed parts value := by
  match parts with
  | [] =>
    obtain rfl := Except.ok.inj computed
    exact ⟨.nil, nodup_behind_leaf distinct⟩
  | .literal literal :: rest =>
    obtain ⟨others, computedRest, kept⟩ := except_bind_eq_ok.mp computed
    obtain rfl := Except.ok.inj kept
    obtain ⟨below, behind⟩ := scalarParts_sound enters distinct rest computedRest
    exact ⟨.literal literal below, behind⟩
  | .interpolation trim inner :: rest =>
    obtain ⟨first, computedFirst, behindIt⟩ := except_bind_eq_ok.mp computed
    obtain ⟨others, computedRest, kept⟩ := except_bind_eq_ok.mp behindIt
    obtain rfl := Except.ok.inj kept
    obtain ⟨below, behindFirst⟩ := scalarExpr_sound enters distinct inner computedFirst
    obtain ⟨beside, behind⟩ := scalarParts_sound enters distinct rest computedRest
    refine ⟨.interpolation trim below beside, fun branch member => ?_⟩
    -- What is being followed is the same for both: no branch of one constrains the other.
    rcases List.mem_append.mp member with member | member
    · exact behindFirst branch member
    · exact behind branch member

end

/-- Entering is sound behind the names that are followed if the evaluation is sound behind one more.
-/
theorem enter_sound {resolve : List String → Token → Except EvalError String}
    (resolves : ∀ name token text, (followed ++ [name]).Nodup →
      resolve (followed ++ [name]) token = .ok text →
        ∃ e, parse token.text = .ok e ∧ DerivesBehind table (followed ++ [name]) e text)
    (distinct : followed.Nodup) : (enter resolve followed).Sound table followed := by
  intro name token text entered
  -- A variable that is being followed is not entered again.
  obtain ⟨fresh, entered⟩ := enter_eq_ok entered
  exact resolves name token text (nodup_append_of_fresh distinct fresh) entered

/-- What a token is computed to denote has a derivation, whatever the depth. -/
theorem scalarToken_sound {depth : Nat} {token : Token} {text : String}
    (distinct : followed.Nodup) (computed : scalarToken table depth followed token = .ok text) :
    ∃ e, parse token.text = .ok e ∧ DerivesBehind table followed e text := by
  -- One level of tokens after the other: what is entered here is resolved one level deeper.
  induction depth generalizing followed token text with
  | zero => cases computed
  | succ depth ih =>
    obtain ⟨e, parsed, computed⟩ := except_bind_eq_ok.mp computed
    have enters : (enter (scalarToken table depth) followed).Sound table followed :=
      enter_sound (fun _ _ _ distinct entered => ih distinct entered) distinct
    exact ⟨e, parsed, scalarExpr_sound enters distinct e computed⟩

/-! ## What has a derivation is computed -/

mutual

/-- Every derivation has a branch. -/
theorem Derivation.branches_ne_nil {e : Expr} {text : String} (d : Derivation table e text) :
    d.branches ≠ [] := by
  match d with
  | .string _ _ => exact List.cons_ne_nil _ _
  | .number _ _ => exact List.cons_ne_nil _ _
  | .bool _ _ => exact List.cons_ne_nil _ _
  | .parens _ below => exact below.branches_ne_nil
  | .template _ below => exact below.branches_ne_nil
  | .heredoc _ _ below _ => exact below.branches_ne_nil
  | .reference _ _ _ _ _ _ below => exact mt List.map_eq_nil_iff.mp below.branches_ne_nil

/-- The derivation of parts has a branch. -/
theorem PartsDerivation.branches_ne_nil {parts : List Part} {text : String}
    (d : PartsDerivation table parts text) : d.branches ≠ [] := by
  match d with
  | .nil => exact List.cons_ne_nil _ _
  | .literal _ behind => exact behind.branches_ne_nil
  | .interpolation _ below behind => exact List.append_ne_nil_of_left_ne_nil below.branches_ne_nil _

end

/-- A variable with a value is declared. -/
theorem mem_keys_of_get {name : String} {value : Value} (current : table.get name = .ok value) :
    name ∈ table.declared.keys := by
  by_contra undeclared
  unfold VariableTable.get at current
  rw [Entries.get?_eq_none_iff.mpr undeclared] at current
  cases current

mutual

/-- The variables along a branch are declared. -/
theorem Derivation.branches_declared {e : Expr} {text : String} (d : Derivation table e text) :
    ∀ branch ∈ d.branches, branch ⊆ table.declared.keys := by
  match d with
  | .string _ _ => exact List.forall_mem_singleton.mpr (List.nil_subset _)
  | .number _ _ => exact List.forall_mem_singleton.mpr (List.nil_subset _)
  | .bool _ _ => exact List.forall_mem_singleton.mpr (List.nil_subset _)
  | .parens _ below => exact below.branches_declared
  | .template _ below => exact below.branches_declared
  | .heredoc _ _ below _ => exact below.branches_declared
  | .reference _ _ name current _ _ below =>
    intro branch member
    obtain ⟨rest, memberBelow, rfl⟩ := List.mem_map.mp member
    exact List.cons_subset.mpr ⟨mem_keys_of_get current, below.branches_declared rest memberBelow⟩

/-- All names on the branches of a derivation are declared. -/
theorem PartsDerivation.branches_declared {parts : List Part} {text : String}
    (d : PartsDerivation table parts text) :
    ∀ branch ∈ d.branches, branch ⊆ table.declared.keys := by
  match d with
  | .nil => exact List.forall_mem_singleton.mpr (List.nil_subset _)
  | .literal _ behind => exact behind.branches_declared
  | .interpolation _ below behind =>
    exact List.forall_mem_append.mpr ⟨below.branches_declared, behind.branches_declared⟩

end

mutual

/-- What has a derivation is computed, if no branch enters a variable twice or one of those being
followed and the depth is that of the longest branch. -/
theorem Derivation.scalarExpr_eq {e : Expr} {value : String} (d : Derivation table e value)
    {followed : List String} {depth : Nat} (text : String)
    (distinct : ∀ branch ∈ d.branches, (followed ++ branch).Nodup)
    (enough : ∀ branch ∈ d.branches, branch.length ≤ depth) :
    scalarExpr table (enter (scalarToken table depth) followed) text e = .ok value := by
  match d with
  | .string _ _ => rfl
  | .number _ _ => rfl
  | .bool _ _ => rfl
  | .parens _ below => exact below.scalarExpr_eq text distinct enough
  | .template _ below => exact below.scalarParts_eq text distinct enough
  | .heredoc _ _ below loses =>
    have whole := below.scalarParts_eq text distinct enough
    refine except_bind_eq_ok.mpr ⟨_, whole, ?_⟩
    rw [loses.dropFinalBreak_eq]
    rfl
  | .reference extent rootExtent name current reached parsed below =>
    refine except_bind_eq_ok.mpr ⟨_, lookup_of_reaches _ rootExtent current reached, ?_⟩
    -- Some branch goes through this variable, so that the depth is not yet used up.
    obtain ⟨first, member⟩ := List.exists_mem_of_ne_nil _ below.branches_ne_nil
    have behind : name :: first ∈ below.branches.map (name :: ·) := List.mem_map_of_mem member
    obtain ⟨less, rfl⟩ : ∃ less, depth = less + 1 :=
      Nat.exists_eq_add_one_of_ne_zero (Nat.ne_zero_of_lt (enough _ behind))
    -- A variable that is not being followed is entered one level deeper.
    change enter (scalarToken table (less + 1)) followed name _ = .ok value
    rw [enter_of_fresh (fresh_of_nodup_append (distinct _ behind))]
    refine except_bind_eq_ok.mpr ⟨_, parsed, below.scalarExpr_eq _ ?_ ?_⟩
    · intro branch memberBelow
      have here := distinct _ (List.mem_map_of_mem memberBelow)
      rwa [List.append_assoc]
    · intro branch memberBelow
      exact Nat.le_of_succ_le_succ (enough _ (List.mem_map_of_mem memberBelow))

/-- Parts that are derived are evaluated accordingly, provided that no branch repeats a name and
that the depth suffices for each. -/
theorem PartsDerivation.scalarParts_eq {parts : List Part} {value : String}
    (d : PartsDerivation table parts value) {followed : List String} {depth : Nat} (text : String)
    (distinct : ∀ branch ∈ d.branches, (followed ++ branch).Nodup)
    (enough : ∀ branch ∈ d.branches, branch.length ≤ depth) :
    scalarParts table (enter (scalarToken table depth) followed) text parts = .ok value := by
  match d with
  | .nil => rfl
  | .literal _ behind =>
    exact except_bind_eq_ok.mpr ⟨_, behind.scalarParts_eq text distinct enough, rfl⟩
  | .interpolation _ below behind =>
    obtain ⟨distinctBelow, distinctBehind⟩ := List.forall_mem_append.mp distinct
    obtain ⟨enoughBelow, enoughBehind⟩ := List.forall_mem_append.mp enough
    have first := below.scalarExpr_eq text distinctBelow enoughBelow
    have rest := behind.scalarParts_eq text distinctBehind enoughBehind
    exact except_bind_eq_ok.mpr ⟨_, first, except_bind_eq_ok.mpr ⟨_, rest, rfl⟩⟩

end

/-- The variables along a branch are declared and distinct, so that the depth of a table is
enough. -/
theorem Derivation.length_le_of_nodup {e : Expr} {text : String} (d : Derivation table e text)
    {branch : List String} (member : branch ∈ d.branches) (distinct : branch.Nodup) :
    branch.length ≤ table.declared.length := by
  have fits := (List.subperm_of_subset distinct (d.branches_declared branch member)).length_le
  rwa [Entries.keys, List.length_map] at fits

/-- What has a derivation that enters no variable twice along a branch is resolved. -/
theorem Derivation.resolveScalar_eq {e : Expr} {token : Token} {text : String}
    (parsed : parse token.text = .ok e) (d : Derivation table e text)
    (distinct : ∀ branch ∈ d.branches, branch.Nodup) :
    resolveScalar table token = .ok text := by
  have enough : ∀ branch ∈ d.branches, branch.length ≤ table.declared.length :=
    fun branch member => d.length_le_of_nodup member (distinct branch member)
  exact except_bind_eq_ok.mpr ⟨e, parsed, d.scalarExpr_eq token.text distinct enough⟩

/-- **Evaluation is sound and complete.** A token denotes a text exactly if the token's own text
is an expression that has a derivation of it, in which no branch enters a variable twice. -/
theorem resolveScalar_eq_ok_iff (table : VariableTable) (token : Token) (text : String) :
    resolveScalar table token = .ok text ↔
      ∃ e, parse token.text = .ok e ∧
        ∃ d : Derivation table e text, ∀ branch ∈ d.branches, branch.Nodup := by
  constructor
  · exact scalarToken_sound List.nodup_nil
  · rintro ⟨e, parsed, d, distinct⟩
    exact d.resolveScalar_eq parsed distinct

/-! ## Expressions of one form -/

/-- A token resolves to a text exactly if its expression derives the text. -/
theorem resolveScalar_eq_ok_iff_derivesBehind {token : Token} {e : Expr} {text : String}
    (parsed : parse token.text = .ok e) :
    resolveScalar table token = .ok text ↔ DerivesBehind table [] e text := by
  rw [resolveScalar_eq_ok_iff]
  constructor
  · rintro ⟨other, parsed', derives⟩
    obtain rfl := Except.ok.inj (parsed.symm.trans parsed')
    exact derives
  · exact fun derives => ⟨e, parsed, derives⟩

/-- A template derives what its parts derive. -/
theorem derivesBehind_template_iff {extent : Extent} {parts : List Part} {text : String} :
    DerivesBehind table [] (.mk extent (.template parts)) text ↔
      PartsDeriveBehind table [] parts text := by
  constructor
  · rintro ⟨d, distinct⟩
    cases d with
    | template _ below => exact ⟨below, distinct⟩
  · rintro ⟨below, distinct⟩
    exact ⟨.template extent below, distinct⟩

/-- A heredoc derives what its parts derive, without the last line break. -/
theorem derivesBehind_heredoc_iff {extent : Extent} {delimiter : String} {parts : List Part}
    {text : String} :
    DerivesBehind table [] (.mk extent (.heredoc delimiter parts)) text ↔
      ∃ whole, PartsDeriveBehind table [] parts whole ∧ text = dropFinalBreak whole := by
  constructor
  · rintro ⟨d, distinct⟩
    cases d with
    | heredoc _ _ below loses => exact ⟨_, ⟨below, distinct⟩, loses.dropFinalBreak_eq.symm⟩
  · rintro ⟨whole, ⟨below, distinct⟩, rfl⟩
    exact ⟨.heredoc extent delimiter below (losesBreak_dropFinalBreak whole), distinct⟩

end HclLint.Eval
