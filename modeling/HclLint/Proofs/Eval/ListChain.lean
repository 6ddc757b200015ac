/-
# Where a token's chain leads

A chain of parentheses, templates that hold one value, and references leads from a token to a list:
one that is written out in a token, or one that a variable holds. What is resolved is the same for
both as long as the items are tokens. They differ in what else the items may be. The items that are
written in a token are expressions, and each of them becomes a token, whatever it is. A list that a
variable holds is made of values, and one of them that is no token spoils the list.

## Main definitions

* `ListEnd`: a list at the end of a chain, and `ListEnd.elements` for what comes of it.
* `ListChain`: a chain to such a list, with the variables that are entered along it.
* `TokenDenotes`: a token has a chain that enters no variable twice.

## Main statements

* `TokenDenotes.resolveList_eq`: resolving the token is taking the elements at its position.
-/

import HclLint.Proofs.Eval.ListDerivation

namespace HclLint.Eval

open HclLint.Text HclLint.Hcl HclLint.Model

variable {table : VariableTable}

/-- A list at the end of a chain: it is written out in a token, or a variable holds it. -/
inductive ListEnd where
  | written (items : List Expr)
  | held (name : String) (values : List Value)

/-- What is left of an item without its place in a text. -/
def itemContent (item : Expr) : Content := (.ofExpr item, item.text)

/-- The elements that come of a list. A value that is no token spoils the list it is in. -/
def ListEnd.elements : ListEnd → Except EvalError (List Content)
  | .written items => .ok (items.map itemContent)
  | .held name values => (values.mapM (itemOfVariable name)).map (·.map contentOf)

/-- A chain from an expression to a list, with the variables entered along it. A list that a
variable holds ends the chain without the variable's being entered. -/
inductive ListChain (table : VariableTable) : Expr → List String → ListEnd → Prop where
  | written (extent : Extent) (items : List Expr) :
      ListChain table (.mk extent (.list items)) [] (.written items)
  | held (extent rootExtent : Extent) (name : String) {steps : List Step} {value : Value}
      {values : List Value} (current : table.get name = .ok value)
      (reached : Reaches value steps (.list values)) :
      ListChain table
        (.mk extent (.traversal (.mk rootExtent (.variable "var")) (.attribute name :: steps)))
        [] (.held name values)
  | parens (extent : Extent) {inner : Expr} {entered : List String} {ending : ListEnd}
      (below : ListChain table inner entered ending) :
      ListChain table (.mk extent (.parens inner)) entered ending
  | template (extent : Extent) (trim : Trim) {inner : Expr} {entered : List String}
      {ending : ListEnd} (below : ListChain table inner entered ending) :
      ListChain table (.mk extent (.template [.interpolation trim inner])) entered ending
  /-- The variable is entered: the chain goes on with the token that the steps lead to. -/
  | reference (extent rootExtent : Extent) (name : String) {steps : List Step} {value : Value}
      {token : Token} {e : Expr} {entered : List String} {ending : ListEnd}
      (current : table.get name = .ok value) (reached : Reaches value steps (.scalar token))
      (parsed : parse token.text = .ok e) (below : ListChain table e entered ending) :
      ListChain table
        (.mk extent (.traversal (.mk rootExtent (.variable "var")) (.attribute name :: steps)))
        (name :: entered) ending

/-- The variables along a chain are declared. -/
theorem ListChain.entered_declared {e : Expr} {entered : List String} {ending : ListEnd}
    (chain : ListChain table e entered ending) : entered ⊆ table.names := by
  induction chain with
  | written | held => exact List.nil_subset _
  | parens _ _ ih => exact ih
  | template _ _ _ ih => exact ih
  | reference _ _ name current _ _ _ ih =>
    exact List.cons_subset.mpr ⟨mem_keys_of_get current, ih⟩

/-- What is computed along a chain is what comes of the list at its end, success or failure, if no
variable is entered twice and the depth is that of the chain. -/
theorem ListChain.listExpr_eq {e : Expr} {entered : List String} {ending : ListEnd}
    (chain : ListChain table e entered ending) {followed : List String} {depth : Nat}
    (token : Token) (distinct : (followed ++ entered).Nodup) (enough : entered.length ≤ depth) :
    (listExpr table (enter (listToken table depth) followed) token e).map (·.map contentOf) =
      ending.elements := by
  induction chain generalizing followed depth token with
  | written extent items => exact congrArg Except.ok List.map_map
  | held extent rootExtent name current reached =>
    rw [listExpr, listForm, lookup_of_reaches extent.text rootExtent current reached]
    rfl
  | parens extent below ih => exact ih token distinct enough
  | template extent trim below ih => exact ih token distinct enough
  | @reference extent rootExtent name steps value inner e entered ending current reached parsed
      below ih =>
    -- The depth is not yet used up, since the chain goes through this variable.
    obtain ⟨less, rfl⟩ : ∃ less, depth = less + 1 :=
      Nat.exists_eq_add_one_of_ne_zero (Nat.ne_zero_of_lt enough)
    have behind : ((followed ++ [name]) ++ entered).Nodup := by rwa [List.append_assoc]
    rw [listExpr, listForm, lookup_of_reaches extent.text rootExtent current reached]
    change (enter (listToken table (less + 1)) followed name inner).map _ = _
    rw [enter_of_fresh (fresh_of_nodup_append distinct), listToken, parsed]
    exact ih inner behind (Nat.le_of_succ_le_succ enough)

/-- A token denotes the list at the end of a chain from its own text, on which no variable is
entered twice. -/
def TokenDenotes (table : VariableTable) (token : Token) (ending : ListEnd) : Prop :=
  ∃ e entered, parse token.text = .ok e ∧ ListChain table e entered ending ∧ entered.Nodup

/-- Resolving a token is taking the elements of the list that it denotes, at the position of the
token. -/
theorem TokenDenotes.resolveList_eq {token : Token} {ending : ListEnd}
    (denotes : TokenDenotes table token ending) :
    resolveList table token = ending.elements.map (·.map (elementAt token.position)) := by
  obtain ⟨e, entered, parsed, chain, distinct⟩ := denotes
  have few := (IsFollowable.of_nodup distinct chain.entered_declared).few
  rw [VariableTable.length_names] at few
  have alone : ([] ++ entered).Nodup := distinct
  have computed := chain.listExpr_eq token alone few
  rw [← computed, resolveList, depthOf, listToken, parsed]
  change (listExpr table _ token e).map _ = _
  cases listExpr table (enter (listToken table table.declared.length) []) token e with
  | error failure => rfl
  | ok items => exact congrArg Except.ok (map_elementAt_contentOf token.position items).symm

end HclLint.Eval
