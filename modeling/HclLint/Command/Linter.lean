/-
# Linting a workspace

A check loads the sources of a directory, gives values to its variables, asks for the state
of the account, and runs the built-in detectors.

## Main definitions

* `assignVariables`: the values from files, then those of the command line.
* `connect`: the client for the account. An account that cannot be read counts as none.
* `lint`: the report of a check.
-/

import HclLint.Command.Settings
import HclLint.Command.Workspace
import HclLint.Cloud.Snapshot
import HclLint.Lint.Rules
import HclLint.Model.Configuration

namespace HclLint.Command

open HclLint.Text HclLint.Files HclLint.Model HclLint.Eval HclLint.Cloud HclLint.Lint

/-- The configuration that the sources of a directory declare. -/
def loadConfiguration (settings : Settings) : Task Failure Configuration := do
  let sources ← Workspace.load settings.directory
  let configuration ←
    Task.ofExcept ((Configuration.load settings.precedence sources).mapError .malformed)
  Task.noteAll (Configuration.loadLog settings.precedence sources)
  return configuration

/-- The table with the assignments of the file at a path. -/
def assignFromFile (directory : String) (table : VariableTable) (path : String) :
    Task Failure VariableTable := do
  let source : Source := ⟨displayName directory path, ← readFile path⟩
  let assigned ← Task.ofExcept ((table.assignFile source).mapError .malformed)
  Task.noteAll (table.assignFileLog source)
  return assigned

/-- The table with a value of the command line. -/
def assignFromCommand (table : VariableTable) (assignment : String × String) :
    Task Failure VariableTable := do
  let (name, value) := assignment
  Task.noteAll (table.assignTextLog name)
  return table.assignText name value

/-- The table with the values of files and of the command line. -/
def assignVariables (settings : Settings) (table : VariableTable) :
    Task Failure VariableTable := do
  let table ← settings.varFiles.foldlM (assignFromFile settings.directory) table
  settings.assignments.foldlM assignFromCommand table

/-- The client for the account, if a snapshot is wanted and can be read. -/
def connect (cloudState? : Option String) : Task Failure (Option CloudClient) :=
  match cloudState? with
  | none => pure none
  | some path => do
    match ← (Snapshot.load path).attempt with
    | .ok snapshot => return some snapshot.client
    | .error error => .note ⟨.error, .linter, error.message⟩ (pure none)

/-- The detectors that are to be ignored. -/
def Settings.ignored (settings : Settings) : List DetectorId :=
  settings.ignoredRules.map DetectorId.ofName

/-- The notes on rules that are to be ignored and do not exist. -/
def unknownRulesLog (settings : Settings) : Log :=
  (settings.ignoredRules.filter fun rule =>
      !builtinRegistry.detectors.any (·.id == .ofName rule)).map fun rule =>
    ⟨.warn, .linter, s!"ignored rule '{rule}' does not match any detector"⟩

/-- The report of a check. -/
def lint (settings : Settings) : Task Failure Lint.Report := do
  let configuration ← loadConfiguration settings
  let table ← assignVariables settings configuration.table
  let cloud? ← connect settings.cloudState?
  Task.noteAll (unknownRulesLog settings)
  let run := builtinRegistry.run configuration.templates ⟨table, cloud?⟩
    ⟨settings.deepCheck, settings.ignored⟩
  Task.noteAll run.log
  return run.report

end HclLint.Command
