/-
# Lists by derivations

A token denotes a list where a chain leads from its expression to one. Parentheses are passed, and
so is a template that holds nothing but one value. A reference leads on to the expression of the
token that its steps reach. The chain ends at a list that is written out, or at a reference to a
list that a value holds, if all its items are tokens.

Where the chain has led through does not show in the result. The elements keep their kinds and
their texts, and all stand where the token stands that was resolved.

## Main definitions

* `contentOf`, `elementAt`: a token without its position, and put at one.
* `ListDerivation`: a chain that ends at the elements of a list.
* `ListDerivation.entered`: the variables entered along the chain.

## Main statements

* `listToken_sound`: a list that is computed has a derivation.
* `ListDerivation.listExpr_eq`: what has a derivation is computed, where the depth is enough.
* `resolveList_eq_ok_iff`: both, for a token of its own, with the elements at its position.
-/

import HclLint.Proofs.Eval.Termination

namespace HclLint.Eval

open HclLint.Text HclLint.Hcl HclLint.Model

variable {table : VariableTable} {followed : List String}

/-- What is left of an element without its position: its kind and its text. -/
abbrev Content : Type := Token.Kind × String

/-- The kind and the text of a token. -/
def contentOf (token : Token) : Content := (token.kind, token.text)

/-- The token of an element that stands at a position. -/
def elementAt (position : Position) (content : Content) : Token :=
  ⟨content.1, content.2, position⟩

/-- A chain from an expression to a list, with the elements of the list. -/
inductive ListDerivation (table : VariableTable) : Expr → List Content → Type where
  /-- The list is written out, and its elements are as they are written. -/
  | list (extent : Extent) (items : List Expr) :
      ListDerivation table (.mk extent (.list items))
        (items.map fun item => (.ofExpr item, item.text))
  /-- The reference denotes a list of tokens. -/
  | variable (extent rootExtent : Extent) (name : String) {steps : List Step} {value : Value}
      {tokens : List Token} (current : table.get name = .ok value)
      (reached : Reaches value steps (.list (tokens.map .scalar))) :
      ListDerivation table
        (.mk extent (.traversal (.mk rootExtent (.variable "var")) (.attribute name :: steps)))
        (tokens.map contentOf)
  | parens (extent : Extent) {inner : Expr} {elements : List Content}
      (below : ListDerivation table inner elements) :
      ListDerivation table (.mk extent (.parens inner)) elements
  | template (extent : Extent) (trim : Trim) {inner : Expr} {elements : List Content}
      (below : ListDerivation table inner elements) :
      ListDerivation table (.mk extent (.template [.interpolation trim inner])) elements
  /-- The variable is entered: the chain goes on with the token that the steps lead to. -/
  | reference (extent rootExtent : Extent) (name : String) {steps : List Step} {value : Value}
      {token : Token} {e : Expr} {elements : List Content} (current : table.get name = .ok value)
      (reached : Reaches value steps (.scalar token)) (parsed : parse token.text = .ok e)
      (below : ListDerivation table e elements) :
      ListDerivation table
        (.mk extent (.traversal (.mk rootExtent (.variable "var")) (.attribute name :: steps)))
        elements

/-- The variables that are entered along the chain. A list that a variable holds ends the chain
without its being entered. -/
def ListDerivation.entered {e : Expr} {elements : List Content} :
    ListDerivation table e elements → List String
  | .list _ _ | .variable .. => []
  | .parens _ below => below.entered
  | .template _ _ below => below.entered
  | .reference _ _ name _ _ _ below => name :: below.entered

/-! ## What is computed has a derivation -/

/-- An expression has a derivation of a list that enters no variable twice, nor one of those being
followed. -/
def ListDerivesBehind (table : VariableTable) (followed : List String) (e : Expr)
    (elements : List Content) : Prop :=
  ∃ d : ListDerivation table e elements, (followed ++ d.entered).Nodup

/-- A chain that enters nothing can go on from whatever is being followed. -/
theorem derivesBehind_of_leaf {e : Expr} {elements : List Content}
    (d : ListDerivation table e elements) (leaf : d.entered = []) (distinct : followed.Nodup) :
    ListDerivesBehind table followed e elements :=
  ⟨d, by rwa [leaf, List.append_nil]⟩

/-- Whatever comes of entering a variable has a derivation behind it. -/
def Entering.SoundForLists (table : VariableTable) (followed : List String)
    (entering : Entering (List Token)) : Prop :=
  ∀ name token items, entering name token = .ok items →
    ∃ e, parse token.text = .ok e ∧
      ListDerivesBehind table (followed ++ [name]) e (items.map contentOf)

theorem itemOfVariable_eq_ok_iff {name : String} {item : Value} {token : Token} :
    itemOfVariable name item = .ok token ↔ item = .scalar token := by
  cases item with
  | scalar => rw [itemOfVariable, Except.ok.injEq, Value.scalar.injEq]
  | list | map => constructor <;> nofun

/-- Items are tokens just if all of them are scalars. -/
theorem mapM_itemOfVariable_eq_ok_iff {name : String} {items : List Value} {tokens : List Token} :
    items.mapM (itemOfVariable name) = .ok tokens ↔ items = tokens.map .scalar := by
  rw [mapM_eq_ok_iff]
  simp only [itemOfVariable_eq_ok_iff]
  rw [← List.forall₂_map_right_iff, List.forall₂_eq_eq_eq]

section Sound

variable {entering : Entering (List Token)} {token : Token} {items : List Token}

mutual

theorem listExpr_sound (enters : entering.SoundForLists table followed)
    (distinct : followed.Nodup) (e : Expr)
    (computed : listExpr table entering token e = .ok items) :
    ListDerivesBehind table followed e (items.map contentOf) := by
  match e with
  | .mk extent form =>
    unfold listExpr at computed
    exact listForm_sound enters distinct form computed

theorem listForm_sound (enters : entering.SoundForLists table followed)
    (distinct : followed.Nodup) {extent : Extent} (form : Form)
    (computed : listForm table entering token extent.text form = .ok items) :
    ListDerivesBehind table followed (.mk extent form) (items.map contentOf) := by
  match form with
  | .list members =>
    obtain rfl := Except.ok.inj computed
    have same : (members.map (itemToken token.position)).map contentOf =
        members.map fun item => (.ofExpr item, item.text) := List.map_map
    rw [same]
    exact derivesBehind_of_leaf (.list extent members) rfl distinct
  | .parens inner =>
    obtain ⟨below, behind⟩ := listExpr_sound enters distinct inner computed
    exact ⟨.parens extent below, behind⟩
  | .template parts => exact listParts_sound enters distinct parts computed
  | .traversal root path =>
    obtain ⟨⟨name, target⟩, found, computed⟩ := except_bind_eq_ok.mp computed
    obtain ⟨rootExtent, steps, value, rfl, rfl, current, reached⟩ := lookup_eq_ok_iff.mp found
    match target with
    | .list values =>
      obtain rfl := mapM_itemOfVariable_eq_ok_iff.mp computed
      exact derivesBehind_of_leaf (.variable extent rootExtent name current reached) rfl distinct
    | .scalar inner =>
      obtain ⟨e, parsed, below, behind⟩ := enters name inner items computed
      refine ⟨.reference extent rootExtent name current reached parsed below, ?_⟩
      rwa [List.append_assoc] at behind
    | .map entries => cases computed

theorem listParts_sound (enters : entering.SoundForLists table followed)
    (distinct : followed.Nodup) {extent : Extent} (parts : List Part)
    (computed : listParts table entering token parts = .ok items) :
    ListDerivesBehind table followed (.mk extent (.template parts)) (items.map contentOf) := by
  match parts with
  | [.interpolation trim inner] =>
    obtain ⟨below, behind⟩ := listExpr_sound enters distinct inner computed
    exact ⟨.template extent trim below, behind⟩

end

end Sound

/-- What a token is computed to list has a derivation, whatever the depth. -/
theorem listToken_sound {depth : Nat} {token : Token} {items : List Token}
    (distinct : followed.Nodup) (computed : listToken table depth followed token = .ok items) :
    ∃ e, parse token.text = .ok e ∧
      ListDerivesBehind table followed e (items.map contentOf) := by
  induction depth generalizing followed token items with
  | zero => cases computed
  | succ depth ih =>
    obtain ⟨e, parsed, computed⟩ := except_bind_eq_ok.mp computed
    refine ⟨e, parsed, listExpr_sound (fun name inner items entered => ?_) distinct e computed⟩
    -- A variable that is entered is fresh, so that those being followed stay distinct.
    obtain ⟨fresh, below⟩ := enter_eq_ok entered
    exact ih (nodup_append_of_fresh distinct fresh) below

/-! ## What has a derivation is computed -/

/-- The variables along a chain are declared. -/
theorem ListDerivation.entered_declared {e : Expr} {elements : List Content}
    (d : ListDerivation table e elements) : d.entered ⊆ table.names := by
  induction d with
  | list | «variable» => exact List.nil_subset _
  | parens _ _ ih => exact ih
  | template _ _ _ ih => exact ih
  | reference _ _ name current _ _ _ ih =>
    exact List.cons_subset.mpr ⟨mem_keys_of_get current, ih⟩

/-- What has a derivation is computed, if it enters no variable twice nor one of those being
followed and the depth is that of the chain. -/
theorem ListDerivation.listExpr_eq {e : Expr} {elements : List Content}
    (d : ListDerivation table e elements) {followed : List String} {depth : Nat} (token : Token)
    (distinct : (followed ++ d.entered).Nodup) (enough : d.entered.length ≤ depth) :
    ∃ items, listExpr table (enter (listToken table depth) followed) token e = .ok items ∧
      items.map contentOf = elements := by
  induction d generalizing followed depth token with
  | list extent items => exact ⟨_, rfl, List.map_map⟩
  | «variable» extent rootExtent name current reached =>
    have found := lookup_of_reaches extent.text rootExtent current reached
    refine ⟨_, except_bind_eq_ok.mpr ⟨_, found, ?_⟩, rfl⟩
    exact mapM_itemOfVariable_eq_ok_iff.mpr rfl
  | parens extent below ih => exact ih token distinct enough
  | template extent trim below ih => exact ih token distinct enough
  | reference extent rootExtent name current reached parsed below ih =>
    -- The depth is not yet used up, since the chain goes through this variable.
    obtain ⟨less, rfl⟩ : ∃ less, depth = less + 1 :=
      Nat.exists_eq_add_one_of_ne_zero (Nat.ne_zero_of_lt enough)
    have fresh := fresh_of_nodup_append distinct
    have behind : ((followed ++ [name]) ++ below.entered).Nodup := by rwa [List.append_assoc]
    obtain ⟨items, computed, same⟩ := ih _ behind (Nat.le_of_succ_le_succ enough)
    have found := lookup_of_reaches extent.text rootExtent current reached
    refine ⟨items, except_bind_eq_ok.mpr ⟨_, found, ?_⟩, same⟩
    change enter (listToken table (less + 1)) followed name _ = .ok items
    rw [enter_of_fresh fresh]
    exact except_bind_eq_ok.mpr ⟨_, parsed, computed⟩

/-- The variables along a chain that enters none twice are no more than there are. -/
theorem ListDerivation.length_le_of_nodup {e : Expr} {elements : List Content}
    (d : ListDerivation table e elements) (distinct : d.entered.Nodup) :
    d.entered.length ≤ table.declared.length := by
  have few := (IsFollowable.of_nodup distinct d.entered_declared).few
  rwa [VariableTable.length_names] at few

theorem map_elementAt_contentOf (position : Position) (items : List Token) :
    (items.map contentOf).map (elementAt position) = items.map (·.movedTo position) :=
  List.map_map

/-- **Resolving a list is sound and complete.** A token denotes a list exactly if its own text is an
expression from which a chain leads to one, without entering a variable twice. The items are then
the elements of that list in order, each with its own kind and text, and all of them at the position
of the token. -/
theorem resolveList_eq_ok_iff (table : VariableTable) (token : Token) (items : List Token) :
    resolveList table token = .ok items ↔
      ∃ e, parse token.text = .ok e ∧
        ∃ elements, ∃ d : ListDerivation table e elements, d.entered.Nodup ∧
          items = elements.map (elementAt token.position) := by
  rw [resolveList_eq_ok_iff_token, ← listToken_eq]
  constructor
  · rintro ⟨others, computed, rfl⟩
    obtain ⟨e, parsed, d, distinct⟩ := listToken_sound List.nodup_nil computed
    exact ⟨e, parsed, _, d, distinct, (map_elementAt_contentOf token.position others).symm⟩
  · rintro ⟨e, parsed, elements, d, distinct, rfl⟩
    have alone : ([] ++ d.entered).Nodup := distinct
    obtain ⟨others, computed, rfl⟩ := d.listExpr_eq token alone (d.length_le_of_nodup distinct)
    refine ⟨others, ?_, (map_elementAt_contentOf token.position others).symm⟩
    exact except_bind_eq_ok.mpr ⟨e, parsed, computed⟩

end HclLint.Eval
