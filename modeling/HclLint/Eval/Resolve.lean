/-
# Resolving tokens

The text or the list that a token stands for, as far as literals and references to
variables tell. A reference to a variable whose value is a token is followed into that
token, and a variable is not entered while it is being followed.

## Main definitions

* `scalarExpr`, `listExpr`: the value of an expression, given how variables are entered.
* `enter`: enters a variable unless it is being followed already.
* `resolveScalar`, `resolveList`, `resolveListAttribute`: the value of a token or of an
  attribute.
-/

import HclLint.Eval.Reference

namespace HclLint.Eval

open HclLint.Text HclLint.Hcl HclLint.Model

/-- The expression that a token's text consists of. -/
def parse (text : String) : Except EvalError Expr :=
  (readExpr text).mapError fun refusal => .malformed text refusal.complaint

/-- A text without one line break at its end. -/
def dropFinalBreak (text : String) : String :=
  match text.toList.reverse with
  | '\n' :: '\r' :: rest => String.ofList rest.reverse
  | '\n' :: rest => String.ofList rest.reverse
  | _ => text

/-- How a variable's token is resolved, under the variable's name. -/
abbrev Entering (α : Type) : Type := String → Token → Except EvalError α

mutual

/-- The text that an expression of a token denotes. Failures quote the whole token, except
for those of references. -/
def scalarExpr (table : VariableTable) (entering : Entering String) (text : String) :
    Expr → Except EvalError String
  | .mk extent form => scalarForm table entering text extent.text form

/-- The text that a form denotes, where `own` is the expression's own text. -/
def scalarForm (table : VariableTable) (entering : Entering String) (text own : String) :
    Form → Except EvalError String
  | .string value => .ok value
  | .number _ => .ok own
  | .bool value => .ok (if value then "true" else "false")
  | .parens inner => scalarExpr table entering text inner
  | .template parts => scalarParts table entering text parts
  | .heredoc _ parts => do return dropFinalBreak (← scalarParts table entering text parts)
  | .traversal root path => do
    match ← lookup table own root path with
    | (name, .scalar token) => entering name token
    | (_, value) => .error (.notString own value.typeName)
  | .variable _ => .error (.unsupported text .bareName)
  | .null => .error (.unsupported text .null)
  | .list _ => .error (.notString text "list")
  | .object _ => .error (.notString text "map")
  | _ => .error (.unsupported text .computed)

/-- The text of a template's parts, one after the other. -/
def scalarParts (table : VariableTable) (entering : Entering String) (text : String) :
    List Part → Except EvalError String
  | [] => .ok ""
  | .literal value :: rest => do return value ++ (← scalarParts table entering text rest)
  | .interpolation _ inner :: rest => do
    let value ← scalarExpr table entering text inner
    return value ++ (← scalarParts table entering text rest)
  | _ :: _ => .error (.unsupported text .directive)

end

/-- The token of an expression that is an item of a list. -/
def itemToken (position : Position) (e : Expr) : Token := ⟨.ofExpr e, e.text, position⟩

/-- The token of a value that is an item of a variable's list. -/
def itemOfVariable (name : String) : Value → Except EvalError Token
  | .scalar token => .ok token
  | value => .error (.notString s!"element of var.{name}" value.typeName)

mutual

/-- The items of the list that an expression of a token denotes. -/
def listExpr (table : VariableTable) (entering : Entering (List Token)) (token : Token) :
    Expr → Except EvalError (List Token)
  | .mk extent form => listForm table entering token extent.text form

/-- The items of the list that a form denotes, where `own` is the expression's own text. -/
def listForm (table : VariableTable) (entering : Entering (List Token)) (token : Token)
    (own : String) : Form → Except EvalError (List Token)
  | .list items => .ok (items.map (itemToken token.position))
  | .parens inner => listExpr table entering token inner
  | .template parts => listParts table entering token parts
  | .traversal root path => do
    match ← lookup table own root path with
    | (name, .list items) => items.mapM (itemOfVariable name)
    | (name, .scalar inner) => entering name inner
    | (_, .map _) => .error (.notList own "map")
  | .string _ | .number _ | .bool _ => .error (.notList token.text "scalar")
  | .object _ => .error (.notList token.text "map")
  | _ => .error (.unsupported token.text .computed)

/-- The items of the list that a template denotes, which is a list only as a single
interpolation. -/
def listParts (table : VariableTable) (entering : Entering (List Token)) (token : Token) :
    List Part → Except EvalError (List Token)
  | [.interpolation _ inner] => listExpr table entering token inner
  | _ => .error (.notList token.text "string")

end

/-- Enters a variable behind those being followed, and fails where it is one of them. -/
def enter {α : Type} (resolve : List String → Token → Except EvalError α)
    (followed : List String) : Entering α := fun name token =>
  if followed.contains name then .error (.circular (followed ++ [name]))
  else resolve (followed ++ [name]) token

/-- The text that a token denotes, while some variables are being followed. At most `depth`
tokens are entered one inside the other. -/
def scalarToken (table : VariableTable) : Nat → List String → Token → Except EvalError String
  | 0, followed, _ => .error (.circular followed)
  | depth + 1, followed, token => do
    let e ← parse token.text
    scalarExpr table (enter (scalarToken table depth) followed) token.text e

/-- The items of the list that a token denotes, while some variables are being
followed. -/
def listToken (table : VariableTable) :
    Nat → List String → Token → Except EvalError (List Token)
  | 0, followed, _ => .error (.circular followed)
  | depth + 1, followed, token => do
    let e ← parse token.text
    listExpr table (enter (listToken table depth) followed) token e

/-- A depth that following variables never exceeds: those being followed are declared and
distinct. -/
def depthOf (table : VariableTable) : Nat := table.declared.length + 1

/-- The text that a token denotes. -/
def resolveScalar (table : VariableTable) (token : Token) : Except EvalError String :=
  scalarToken table (depthOf table) [] token

/-- The items of the list that a token denotes, each at the position of the token. -/
def resolveList (table : VariableTable) (token : Token) : Except EvalError (List Token) := do
  return (← listToken table (depthOf table) [] token).map (·.movedTo token.position)

/-- The token of a value that is an item of a literal list. -/
def itemOfList (position : Position) : Value → Except EvalError Token
  | .scalar token => .ok token
  | value => .error (.notString s!"list element at {position.toText}" value.typeName)

/-- The items of the list that an attribute is first given as. Those of a literal list keep
their own positions. -/
def resolveListAttribute (table : VariableTable) (a : Attribute) :
    Except EvalError (List Token) :=
  match a.first.value with
  | .scalar token => resolveList table token
  | .list items => items.mapM (itemOfList a.first.position)
  | .map _ => .error (.notList s!"attribute at {a.first.position.toText}" "map")

end HclLint.Eval
