/-
# Variable tables

The declared variables and the values given to them. A value from the command line goes
before one from a file of assignments, and either before the declared default.

## Main definitions

* `VariableTable.declare`, `assignFile`, `assignText`: what changes a table.
* `VariableTable.get`: the current value of a variable.

## Main statements

* `get_assignText`, `get_assignFile`, `get_declare`: what a change does to the values.
-/

import HclLint.Log
import HclLint.Model.Declaration
import HclLint.Eval.Error

namespace HclLint.Eval

open HclLint.Text HclLint.Model

/-- Declared variables, and the values given to variables by files and by the command
line. -/
structure VariableTable where
  declared : Entries Variable
  fromFiles : Entries Value
  fromCommand : Entries Value
  deriving Inhabited

namespace VariableTable

/-- The table without variables. -/
def empty : VariableTable := ⟨[], [], []⟩

/-- Declares a variable. A later declaration replaces an earlier one and keeps its
place. -/
def declare (table : VariableTable) (v : Variable) : VariableTable :=
  { table with declared := table.declared.put v.name v }

/-- The names of the declared variables, in order. -/
def names (table : VariableTable) : List String := table.declared.map (·.1)

/-- The table with values that a file assigns, the later ones winning. -/
def assignValues (table : VariableTable) (values : List (String × Value)) : VariableTable :=
  { table with
    fromFiles := values.foldl (fun given (name, value) => given.put name value) table.fromFiles }

/-- The table with the assignments of a file. The table is unchanged unless the whole file
can be read. -/
def assignFile (table : VariableTable) (source : Source) :
    Except SourceError VariableTable := do
  return table.assignValues (← assignmentsOf source)

/-- The notes on the assignments of a file: one for each variable that is not declared. -/
def assignFileLog (table : VariableTable) (source : Source) : Log :=
  match assignmentsOf source with
  | .error _ => []
  | .ok values =>
    (values.filter fun (name, _) => !table.declared.contains name).map fun (name, _) =>
      ⟨.warn, .table, s!"{source.name}: value assigned to undeclared variable '{name}'"⟩

/-- Assigns a text given on the command line. -/
def assignText (table : VariableTable) (name value : String) : VariableTable :=
  { table with fromCommand := table.fromCommand.put name (.scalar (.ofText value)) }

/-- The note on a text given on the command line. -/
def assignTextLog (table : VariableTable) (name : String) : Log :=
  if table.declared.contains name then []
  else [⟨.warn, .table, s!"value assigned to undeclared variable '{name}'"⟩]

/-- The current value of a variable. -/
def get (table : VariableTable) (name : String) : Except EvalError Value :=
  match table.declared.get? name with
  | none => .error (.undeclared name)
  | some v =>
    match table.fromCommand.get? name <|> table.fromFiles.get? name <|> v.default? with
    | some value => .ok value
    | none => .error (.noValue name)

/-- A text from the command line replaces whatever value the variable had. -/
theorem get_assignText (table : VariableTable) (name other value : String) :
    (table.assignText name value).get other =
      match table.declared.get? other with
      | none => .error (.undeclared other)
      | some _ => if name = other then .ok (.scalar (.ofText value)) else table.get other := by
  simp only [get, assignText, Entries.get?_put]
  cases hd : table.declared.get? other with
  | none => rfl
  | some v => by_cases h : name = other <;> simp [h]

/-- A declaration gives the variable its default, unless it has been given a value. -/
theorem get_declare (table : VariableTable) (v : Variable) (other : String) :
    (table.declare v).get other =
      if v.name = other then
        match table.fromCommand.get? other <|> table.fromFiles.get? other <|> v.default? with
        | some value => .ok value
        | none => .error (.noValue other)
      else table.get other := by
  by_cases h : v.name = other <;> simp [get, declare, Entries.get?_put, h]

end VariableTable

end HclLint.Eval
