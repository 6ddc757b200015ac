/-
# What an expression is read from

The rules for lists, calls, templates and the like only say how smaller expressions are put
together. Each takes the readers of the smaller ones as a `Level`, and one recursion at the
top ties them up.

Two settings travel down from an expression to its parts. They say whether line breaks
count as blanks, and whether a question mark still opens a conditional.
-/

import HclLint.Hcl.Grammar.Text

namespace HclLint.Hcl.Grammar

/-- The settings an expression is read under. -/
structure Setting where
  /-- Line breaks are blanks. -/
  breaks : Bool
  /-- A question mark opens a conditional. -/
  conditionals : Bool
  deriving DecidableEq, Repr, Inhabited

namespace Setting

/-- The setting of an expression that ends with its line. -/
def line : Setting := ⟨false, true⟩

/-- The setting of an expression between brackets. -/
def bracket : Setting := ⟨true, true⟩

/-- The setting in which line breaks are blanks. -/
def withBreaks (s : Setting) : Setting := { s with breaks := true }

/-- The setting in which question marks end the expression. -/
def withoutConditionals (s : Setting) : Setting := { s with conditionals := false }

end Setting

/-- The readers of smaller expressions, terms and parts of templates. A term also answers
the setting for the rest of the expression that it starts. -/
structure Level where
  expr : Setting → Parser Expr
  term : Setting → Parser (Expr × Setting)
  part : Quoting → Parser Part

/-- The level on which nothing can be read. -/
def Level.bottom : Level where
  expr _ := Parser.fail
  term _ := Parser.fail
  part _ := Parser.fail

end HclLint.Hcl.Grammar
