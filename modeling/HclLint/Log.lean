/-
# Log entries

What the program notes while it works. Entries are values, returned beside the results in
the order in which they arise.
-/

namespace HclLint

/-- How important an entry is. -/
inductive LogLevel where
  | debug | warn | error
  deriving DecidableEq, Repr

/-- The name of a level. -/
def LogLevel.name : LogLevel → String
  | .debug => "DEBUG"
  | .warn => "WARN"
  | .error => "ERROR"

/-- The part of the program that an entry comes from. -/
inductive LogOrigin where
  | merge | table | detector | rules | cloud | config | workspace | linter | command
  deriving DecidableEq, Repr

/-- The name under which a part of the program logs. -/
def LogOrigin.name : LogOrigin → String
  | .merge => "tfcheck_core::schema"
  | .table => "tfcheck_core::eval::variables"
  | .detector => "tfcheck_core::detector"
  | .rules => "tfcheck_core::detector::rules"
  | .cloud => "tfcheck_core::cloud"
  | .config => "tfcheck::cli::linter::config"
  | .workspace => "tfcheck::cli::linter::workspace"
  | .linter => "tfcheck::cli::linter"
  | .command => "tfcheck::cli"

/-- One note. -/
structure LogEntry where
  level : LogLevel
  origin : LogOrigin
  text : String
  deriving DecidableEq, Repr

/-- The notes of a piece of work, in order. -/
abbrev Log : Type := List LogEntry

end HclLint
