/-
# Evaluation does not ask where an expression stands

What a token denotes is told by its expression. Neither the places that the expression and its
parts have in the token's text nor the text as a whole play any part in it: the text is quoted when
the evaluation fails, and nothing else. So two tokens whose expressions are the same but for their
places denote the same.

## Main definitions

* `textOf`, `contentsOf`: the text and the elements that an expression denotes by itself.

## Main statements

* `lookup_unplaced`: a reference denotes the same value wherever it stands.
* `toOption_scalarExpr_unplaced`, `contents_listExpr_unplaced`: so does every expression.
* `toOption_resolveScalar`, `contents_resolveList`: a token denotes what its expression denotes.
-/

import HclLint.Proofs.Hcl.Unplaced
import HclLint.Proofs.Eval.ListDerivation

namespace HclLint.Eval

open HclLint.Text HclLint.Hcl HclLint.Hcl.Grammar HclLint.Model

variable {table : VariableTable} {e e' : Expr} {position : Position}

/-! ## References -/

/-- Where a step leads does not depend on where it is written. -/
theorem stepInto_unplaced (text : String) (value : Value) (step : Step) :
    stepInto text value step.unplaced = stepInto text value step := by
  cases step with
  | index key =>
    cases value with
    | scalar => rfl
    | list | map =>
      rw [Step.unplaced, stepInto, stepInto, Expr.form_unplaced]
      cases key.form <;> rfl
  | _ => rfl

theorem walk_unplaced (text : String) (value : Value) (path : List Step) :
    walk text value (path.map Step.unplaced) = walk text value path := by
  rw [walk, walk, List.foldlM_map]
  simp only [stepInto_unplaced]

/-- Without its places, a reference to a variable names the same variable. -/
theorem variableReference?_unplaced (root : Expr) (path : List Step) :
    variableReference? root.unplaced (path.map Step.unplaced) =
      (variableReference? root path).map fun found => (found.1, found.2.map Step.unplaced) := by
  obtain ⟨extent, form⟩ := root
  cases form with
  | «variable» name =>
    unfold variableReference?
    by_cases isVar : name = "var"
    · subst isVar
      rcases path with _ | ⟨step, steps⟩
      · rfl
      · cases step <;> simp [Expr.unplaced, Expr.form, Form.unplaced, Step.unplaced]
    · simp [Expr.unplaced, Expr.form, Form.unplaced, isVar]
  | _ => rfl

/-- A reference denotes the same value wherever it stands. -/
theorem lookup_unplaced (text : String) (root : Expr) (path : List Step) :
    lookup table text root.unplaced (path.map Step.unplaced) = lookup table text root path := by
  rw [lookup, lookup, variableReference?_unplaced]
  cases variableReference? root path with
  | none => rfl
  | some found => simp only [Option.map_some, walk_unplaced]

/-! ## Texts -/

theorem toOption_map_pure {α β ε : Type} (x : Except ε α) (f : α → β) :
    (do return f (← x) : Except ε β).toOption = x.toOption.map f := by
  cases x <;> rfl

theorem toOption_bind {α β ε : Type} (x : Except ε α) (f : α → Except ε β) :
    (x >>= f).toOption = x.toOption.bind fun a => (f a).toOption := by
  cases x <;> rfl

section Texts

variable {entering : Entering String}

mutual

/-- What an expression denotes does not depend on where it stands, nor on the text around it. -/
theorem toOption_scalarExpr_unplaced (text text' : String) : ∀ e : Expr,
    (scalarExpr table entering text' e.unplaced).toOption =
      (scalarExpr table entering text e).toOption
  | .mk extent form => toOption_scalarForm_unplaced text text' extent.text form

/-- The text of a form does not depend on where the form stands. Of failures only the fact is
compared, since their messages quote the source. -/
theorem toOption_scalarForm_unplaced (text text' own : String) : ∀ form : Form,
    (scalarForm table entering text' own form.unplaced).toOption =
      (scalarForm table entering text own form).toOption
  | .string _ | .number _ | .bool _ | .variable _ | .null | .list _ | .object _
  | .conditional .. | .call .. | .unary .. | .binary .. | .listFor .. | .objectFor .. => rfl
  | .parens inner => toOption_scalarExpr_unplaced text text' inner
  | .template parts => by
    rw [Form.unplaced, partsUnplaced_eq_map]
    exact toOption_scalarParts_unplaced text text' parts
  | .heredoc _ parts => by
    rw [Form.unplaced, partsUnplaced_eq_map, scalarForm, scalarForm, toOption_map_pure,
      toOption_map_pure, toOption_scalarParts_unplaced text text' parts]
  | .traversal root path => by
    rw [Form.unplaced, pathUnplaced_eq_map, scalarForm, scalarForm, lookup_unplaced]

theorem toOption_scalarParts_unplaced (text text' : String) : ∀ parts : List Part,
    (scalarParts table entering text' (parts.map Part.unplaced)).toOption =
      (scalarParts table entering text parts).toOption
  | [] | .branch .. :: _ | .loop .. :: _ => rfl
  | .literal value :: rest => by
    rw [List.map_cons, Part.unplaced, scalarParts, scalarParts, toOption_map_pure,
      toOption_map_pure, toOption_scalarParts_unplaced text text' rest]
  | .interpolation _ inner :: rest => by
    rw [List.map_cons, Part.unplaced, scalarParts, scalarParts, toOption_bind, toOption_bind,
      toOption_scalarExpr_unplaced text text' inner]
    simp only [toOption_map_pure, toOption_scalarParts_unplaced text text' rest]

end

end Texts

/-! ## Lists -/

/-- The kind of a token does not depend on where the parts of its expression stand. -/
theorem ofForm_unplaced (form : Form) : Token.Kind.ofForm form.unplaced = .ofForm form := by
  cases form <;> rfl

/-- The kind of a token is told from the form of its expression. -/
theorem ofExpr_unplaced (e : Expr) : Token.Kind.ofExpr e.unplaced = .ofExpr e := by
  obtain ⟨extent, form⟩ := e
  exact ofForm_unplaced form

/-- The elements of a list, without their positions, if there is one. -/
def contents (items : Except EvalError (List Token)) : Option (List Content) :=
  items.toOption.map (List.map contentOf)

section Lists

variable {entering : Entering (List Token)}

mutual

/-- The elements that an expression denotes do not depend on where it stands, nor on the token. -/
theorem contents_listExpr_unplaced (token token' : Token) : ∀ e : Expr,
    contents (listExpr table entering token' e.unplaced) =
      contents (listExpr table entering token e)
  | .mk extent form => contents_listForm_unplaced token token' extent.text form

/-- The elements of a form do not depend on where it stands either, up to their positions. -/
theorem contents_listForm_unplaced (token token' : Token) (own : String) : ∀ form : Form,
    contents (listForm table entering token' own form.unplaced) =
      contents (listForm table entering token own form)
  | .string _ | .number _ | .bool _ | .variable _ | .null | .object _ | .heredoc ..
  | .conditional .. | .call .. | .unary .. | .binary .. | .listFor .. | .objectFor .. => rfl
  | .list items => by
    rw [Form.unplaced, itemsUnplaced_eq_map]
    refine congrArg some ?_
    simp [contentOf, itemToken, ofExpr_unplaced]
  | .parens inner => contents_listExpr_unplaced token token' inner
  | .template parts => by
    rw [Form.unplaced, partsUnplaced_eq_map]
    exact contents_listParts_unplaced token token' parts
  | .traversal root path => by
    rw [Form.unplaced, pathUnplaced_eq_map, listForm, listForm, lookup_unplaced]

theorem contents_listParts_unplaced (token token' : Token) : ∀ parts : List Part,
    contents (listParts table entering token' (parts.map Part.unplaced)) =
      contents (listParts table entering token parts)
  | [.interpolation _ inner] => contents_listExpr_unplaced token token' inner
  | [] | [.literal _] | [.branch ..] | [.loop ..] => rfl
  | first :: _ :: _ => by cases first <;> rfl

end

end Lists

/-! ## Tokens -/

/-- The text that an expression denotes by itself: while no variable is being followed. -/
def textOf (table : VariableTable) (e : Expr) : Option String :=
  (scalarExpr table (enter (scalarToken table table.declared.length) []) "" e).toOption

/-- The elements that an expression denotes by itself. -/
def contentsOf (table : VariableTable) (e : Expr) : Option (List Content) :=
  contents (listExpr table (enter (listToken table table.declared.length) []) default e)

/-- Expressions that differ in places denote one text. -/
theorem textOf_congr (same : e'.unplaced = e.unplaced) : textOf table e' = textOf table e := by
  rw [textOf, textOf, ← toOption_scalarExpr_unplaced "" "" e', same,
    toOption_scalarExpr_unplaced "" "" e]

theorem contentsOf_congr (same : e'.unplaced = e.unplaced) :
    contentsOf table e' = contentsOf table e := by
  rw [contentsOf, contentsOf, ← contents_listExpr_unplaced default default e', same,
    contents_listExpr_unplaced default default e]

/-- A token denotes the text of its expression. -/
theorem toOption_resolveScalar {token : Token} (parsed : parse token.text = .ok e) :
    (resolveScalar table token).toOption = textOf table e := by
  rw [resolveScalar, depthOf, scalarToken, parsed, textOf,
    ← toOption_scalarExpr_unplaced "" "" e, toOption_scalarExpr_unplaced token.text "" e]
  rfl

/-- A token denotes the elements of its expression. -/
theorem contents_resolveList {token : Token} (parsed : parse token.text = .ok e) :
    contents (resolveList table token) = contentsOf table e := by
  have moved : (List.map contentOf) ∘ (List.map (·.movedTo token.position)) =
      List.map contentOf := by
    funext items
    simp [contentOf, Function.comp_def]
  rw [resolveList, contents, toOption_map_pure, Option.map_map, moved, depthOf, listToken, parsed,
    contentsOf, ← contents_listExpr_unplaced default default e,
    contents_listExpr_unplaced token default e]
  rfl

end HclLint.Eval
