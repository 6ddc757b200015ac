/-
# The program

What a command line leads to: an exit status, and what is written. A check exits with zero
unless issues are to count as a failure; a failure is noted and exits with one; a misused
command line exits with two.

## Main definitions

* `Outcome`: what a run leaves.
* `Request.task`: the work that a request asks for.
* `run`: the outcome of a command line on a tree of files.
-/

import HclLint.Command.Linter
import HclLint.Command.LogFilter

namespace HclLint.Command

open HclLint.Text HclLint.Files HclLint.Lint

/-- What a run leaves: its exit status, its output, and what it writes about errors. -/
structure Outcome where
  status : Nat
  output : String
  errors : String
  deriving DecidableEq, Repr

/-- The version of the program. -/
def versionText : String := "tfcheck-cli 0.1.0\n"

/-- The help on the program. -/
def helpText : String :=
  String.join [
    "Command line linter for Terraform configurations\n\n",
    "Usage: tfcheck <COMMAND>\n\n",
    "Commands:\n",
    "  lint   Check the Terraform configuration of a directory\n",
    "  rules  List the available detectors\n",
    "  help   Print this message\n\n",
    "Options of lint:\n",
    "      --deep               Run detectors that query live cloud state\n",
    "  -f, --format <FORMAT>    Output format: stylish, compact or json\n",
    "      --var-file <PATH>    Variable definitions file, repeatable, later files win\n",
    "      --var <NAME=VALUE>   Set a variable, overriding variable files\n",
    "      --cloud-state <PATH> JSON snapshot of the account state used by deep checks\n",
    "      --ignore-rule <ID>   Detector to skip, repeatable\n",
    "  -c, --config <PATH>      Configuration file, .tfcheck.yml in the directory by default\n",
    "      --error-with-issues  Exit with status 2 when issues are found\n",
    "      --debug              Enable debug logging\n",
    "  -h, --help               Print help\n",
    "  -V, --version            Print version\n"]

/-- The outcome of a command line that starts no work. -/
def UsageError.outcome : UsageError → Outcome
  | .helpWanted => ⟨0, helpText, ""⟩
  | .versionWanted => ⟨0, versionText, ""⟩
  | .noCommand => ⟨2, "", helpText⟩
  | error => ⟨2, "", "error: " ++ error.message ++ "\n\nFor more information, try '--help'.\n"⟩

/-- The outcome of a failure. -/
def Failure.outcome (failure : Failure) : Outcome := ⟨1, "", "Error: " ++ failure.message ++ "\n"⟩

/-- The outcome of a report. -/
def reportOutcome (colour : Bool) (settings : Settings) (report : Lint.Report) : Outcome where
  status := if settings.errorWithIssues && !report.issues.isEmpty then 2 else 0
  output := Report.render settings.format colour report
  errors := ""

/-- A detector in the list of the detectors. -/
def ruleLine {μ : Type} (d : Detector μ) : String :=
  String.intercalate " " [
    padRight 44 d.id.name, padRight 30 d.target, padRight 8 d.severity.name,
    padRight 5 (if d.isDeep then "deep" else ""), d.id.description?.getD ""] ++ "\n"

/-- The list of the built-in detectors. -/
def rulesText : String := String.join (builtinRegistry.detectors.map ruleLine)

namespace Request

/-- The work that a request asks for, which may fail. -/
def perform (colour : Bool) : Request → Task Failure Outcome
  | .lint arguments => do
    let settings ← Settings.load arguments
    return reportOutcome colour settings (← Command.lint settings)
  | .rules => pure ⟨0, rulesText, ""⟩

/-- The work that a request asks for. A failure is noted. -/
def task (colour : Bool) (request : Request) : Task Empty Outcome := do
  match ← (request.perform colour).attempt with
  | .ok outcome => return outcome
  | .error failure => .note ⟨.error, .command, failure.message⟩ (pure failure.outcome)

/-- Whether all notes are to be shown. -/
def isVerbose : Request → Bool
  | .lint arguments => arguments.debug
  | .rules => false

/-- What is written about the notes of a run, under the filter that a text describes. -/
def showLog (request : Request) (filterText : String) (log : Log) : String :=
  let (filter, faults) := LogFilter.ofText filterText
  let filter := if request.isVerbose then filter.withDebug else filter
  String.join (faults.map fun fault => s!"warning: {fault}, ignoring it\n") ++ filter.render log

/-- The outcome of a request's work with what is written about its notes. -/
def finish (request : Request) (filterText : String) : Except Empty Outcome × Log → Outcome
  | (.ok outcome, log) =>
    { outcome with errors := request.showLog filterText log ++ outcome.errors }

end Request

/-- The outcome of a command line on a tree of files. -/
def run (tree : FileTree) (colour : Bool) (filterText : String) (words : List String) : Outcome :=
  match Request.ofWords words with
  | .error error => error.outcome
  | .ok request => request.finish filterText ((request.task colour).run tree)

end HclLint.Command
