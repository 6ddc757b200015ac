/-
# Failures of evaluation

Why an expression has no value that can be told without running anything.
-/

import HclLint.Hcl.Complaint

namespace HclLint.Eval

open HclLint.Hcl

/-- What rules out an expression. -/
inductive Reason where
  /-- Only literals and variables are evaluated. -/
  | computed
  /-- A bare name is not a value. -/
  | bareName
  /-- A null has no text. -/
  | null
  /-- A directive is not evaluated. -/
  | directive
  /-- Only references to variables are resolved. -/
  | otherReference
  /-- An index into a list must be a whole number. -/
  | badIndex
  /-- A step does not fit the value that it is taken into. -/
  | badStep
  deriving DecidableEq, Repr

/-- The wording of a reason. -/
def Reason.message : Reason → String
  | .computed => "only literals and variables are evaluated"
  | .bareName => "bare identifiers are not values"
  | .null => "null has no string value"
  | .directive => "template directives are not evaluated"
  | .otherReference => "only var.* references are resolved"
  | .badIndex => "list index must be a non-negative integer"
  | .badStep => "unsupported index into variable"

/-- A failure of evaluation. -/
inductive EvalError where
  | undeclared (name : String)
  | noValue (name : String)
  | unsupported (text : String) (reason : Reason)
  /-- A string was wanted, and something of another shape was found. -/
  | notString (text found : String)
  /-- A list was wanted, and something of another shape was found. -/
  | notList (text found : String)
  /-- Following variables came back to one that was being followed. -/
  | circular (names : List String)
  | outOfRange (text : String) (index size : Nat)
  | missingKey (text key : String)
  /-- The text is no expression. -/
  | malformed (text : String) (complaint : Complaint)
  deriving DecidableEq, Repr

/-- The wording of a failure. -/
def EvalError.message : EvalError → String
  | .undeclared name => s!"variable '{name}' is not declared"
  | .noValue name => s!"variable '{name}' has no default and no assigned value"
  | .unsupported text reason => s!"cannot statically evaluate '{text}': {reason.message}"
  | .notString text found => s!"'{text}' evaluates to a {found}, expected a string"
  | .notList text found => s!"'{text}' evaluates to a {found}, expected a list"
  | .circular names => "circular variable reference: " ++ String.intercalate " -> " names
  | .outOfRange text index size =>
    s!"index {index} is out of range for '{text}' ({size} elements)"
  | .missingKey text key => s!"key '{key}' does not exist in '{text}'"
  | .malformed text complaint => s!"invalid expression '{text}': {complaint.message}"

end HclLint.Eval
