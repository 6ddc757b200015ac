/-
# References to variables

A reference names a variable, `var.NAME`, and may step into its value: by an attribute or a
string into a map, by a number into a list.

## Main definitions

* `stepInto`: one step into a value.
* `walk`: the steps of a path, one after the other.
* `lookup`: the value that a reference denotes.
-/

import HclLint.Eval.Variables

namespace HclLint.Eval

open HclLint.Text HclLint.Hcl HclLint.Model

/-- The value under a key. The text is that of the reference. -/
def valueAtKey (text key : String) (entries : Entries Value) : Except EvalError Value :=
  match entries.get? key with
  | some value => .ok value
  | none => .error (.missingKey text key)

/-- The item with an index. The text is that of the reference. -/
def itemAt (text : String) (index : Nat) (items : List Value) : Except EvalError Value :=
  match items[index]? with
  | some value => .ok value
  | none => .error (.outOfRange text index items.length)

/-- One step into a value. -/
def stepInto (text : String) : Value → Step → Except EvalError Value
  | .map entries, .attribute key => valueAtKey text key entries
  | .map entries, .index key =>
    match key.form with
    | .string name => valueAtKey text name entries
    | _ => .error (.unsupported text .badStep)
  | .list items, .legacyIndex index => itemAt text index items
  | .list items, .index key =>
    match key.form with
    | .number value =>
      match value.toIndex? with
      | some index => itemAt text index items
      | none => .error (.unsupported text .badIndex)
    | _ => .error (.unsupported text .badStep)
  | _, _ => .error (.unsupported text .badStep)

/-- The value at the end of a path. -/
def walk (text : String) (value : Value) (path : List Step) : Except EvalError Value :=
  path.foldlM (stepInto text) value

/-- The variable that a traversal refers to, and the steps into its value. -/
def variableReference? (root : Expr) (path : List Step) : Option (String × List Step) :=
  match root.form, path with
  | .variable "var", .attribute name :: steps => some (name, steps)
  | _, _ => none

/-- The variable that a traversal refers to and the value that it denotes. -/
def lookup (table : VariableTable) (text : String) (root : Expr) (path : List Step) :
    Except EvalError (String × Value) :=
  match variableReference? root path with
  | none => .error (.unsupported text .otherReference)
  | some (name, steps) => do
    let value ← walk text (← table.get name) steps
    return (name, value)

@[simp]
theorem walk_nil (text : String) (value : Value) : walk text value [] = .ok value := rfl

/-- A path is walked step by step. -/
theorem walk_cons (text : String) (value : Value) (step : Step) (path : List Step) :
    walk text value (step :: path) = (stepInto text value step).bind (walk text · path) := by
  simp [walk, List.foldlM_cons, bind, Except.bind]

end HclLint.Eval
