/-
# Tokens

An expression as the model keeps it: its text, its kind, and where it was written. A text
given without a file becomes the token of a string literal that denotes it.
-/

import HclLint.Text.Position
import HclLint.Text.Quoted
import HclLint.Hcl.Expression

namespace HclLint.Model

open HclLint.Text HclLint.Hcl

/-- What kind of expression a token holds. -/
inductive Token.Kind where
  | string | number | bool | null
  /-- A template between quotes, or a heredoc. -/
  | template
  /-- Any other expression. -/
  | expression
  deriving DecidableEq, Repr, Inhabited

/-- The text of an expression, its kind and its position. -/
structure Token where
  kind : Token.Kind
  text : String
  position : Position
  deriving DecidableEq, Repr, Inhabited

namespace Token

/-- The kind of a form: literals by what they denote, templates between quotes and in
heredocs alike. -/
def Kind.ofForm : Form → Kind
  | .string _ => .string
  | .number _ => .number
  | .bool _ => .bool
  | .null => .null
  | .template _ | .heredoc .. => .template
  | _ => .expression

/-- The kind of an expression. -/
def Kind.ofExpr (e : Expr) : Kind := ofForm e.form

/-- The same token at another position. -/
def movedTo (token : Token) (position : Position) : Token := { token with position }

/-- A text with its template markers doubled, so that they stand for themselves. -/
def doubleMarkers : List Char → List Char
  | [] => []
  | '$' :: '\x7b' :: rest => '$' :: '$' :: '\x7b' :: doubleMarkers rest
  | '%' :: '\x7b' :: rest => '%' :: '%' :: '\x7b' :: doubleMarkers rest
  | c :: rest => c :: doubleMarkers rest

/-- The token of the string literal that denotes a text. -/
def ofText (value : String) : Token where
  kind := .string
  text := quote (String.ofList (doubleMarkers value.toList))
  position := .unknown

/-- Whether a kind is that of literals, which refer to nothing. -/
def Kind.isLiteral : Kind → Bool
  | .string | .number | .bool | .null => true
  | .template | .expression => false

@[simp]
theorem movedTo_text (token : Token) (position : Position) :
    (token.movedTo position).text = token.text := rfl

@[simp]
theorem movedTo_kind (token : Token) (position : Position) :
    (token.movedTo position).kind = token.kind := rfl

@[simp]
theorem movedTo_position (token : Token) (position : Position) :
    (token.movedTo position).position = position := rfl

end Token

end HclLint.Model
