/-
# Report formats

How a report is written: grouped by file for readers, one line an issue, or as JSON.

## Main definitions

* `stylish`: the issues of each file under the file's name, and a summary.
* `compact`: one line an issue.
* `json`: the issues and the states of the detectors.
-/

import HclLint.Lint.Registry
import HclLint.Json.Printer
import HclLint.Report.Style

namespace HclLint.Report

open HclLint.Lint

/-- The formats of a report. -/
inductive Format where
  | stylish | compact | json
  deriving DecidableEq, Repr, Inhabited

namespace Format

/-- The name of a format. -/
def name : Format → String
  | .stylish => "stylish"
  | .compact => "compact"
  | .json => "json"

/-- The format with a name. -/
def ofName? (name : String) : Option Format :=
  [stylish, compact, json].find? (·.name == name)

end Format

/-- The file of an issue as it is shown. -/
def shownFile (issue : Issue) : String := if issue.file.isEmpty then "<unknown>" else issue.file

/-- The colour of a severity. -/
def severityFace : Severity → Face
  | .error => .red
  | .warning => .yellow
  | .notice => .blue

/-- The files of some issues as they are shown, each once, in the order of their bytes. -/
def shownFiles (issues : List Issue) : List String :=
  ((issues.map shownFile).eraseDups).mergeSort (· ≤ ·)

/-- The line of an issue under its file. -/
def entryLine (colour : Bool) (issue : Issue) : String :=
  String.intercalate "  "
    ["", styled colour [.dimmed] (toString issue.line ++ ":" ++ toString issue.column),
      styled colour [.bold, severityFace issue.severity] issue.severity.label, issue.message,
      styled colour [.dimmed] issue.detector.name] ++ "\n"

/-- The issues of a file under its name. -/
def fileGroup (colour : Bool) (issues : List Issue) (file : String) : String :=
  styled colour [.underlined] file ++ "\n" ++
    String.join ((issues.filter (shownFile · == file)).map (entryLine colour)) ++ "\n"

/-- The number of issues of a severity. -/
def countOf (severity : Severity) (issues : List Issue) : Nat :=
  issues.countP (·.severity == severity)

/-- How many issues there are, in all and by severity. -/
def summary (issues : List Issue) : String :=
  s!"Found {issues.length} issue(s): {countOf .error issues} error(s), " ++
    s!"{countOf .warning issues} warning(s), {countOf .notice issues} notice(s)"

/-- The report for readers. -/
def stylish (colour : Bool) (issues : List Issue) : String :=
  if issues.isEmpty then styled colour [.green] "✓ No issues found!" ++ "\n"
  else
    String.join ((shownFiles issues).map (fileGroup colour issues)) ++
      styled colour [.bold, .red] (summary issues) ++ "\n"

/-- An issue on one line. -/
def compactLine (issue : Issue) : String :=
  shownFile issue ++ ":" ++ toString issue.line ++ ":" ++ toString issue.column ++ ": " ++
    issue.severity.label ++ ": " ++ issue.message ++ " (" ++ issue.detector.name ++ ")\n"

/-- The report with one line an issue. -/
def compact (issues : List Issue) : String := String.join (issues.map compactLine)

/-- An issue as JSON. -/
def issueJson (issue : Issue) : Json.Value :=
  .ofMembers [("type", .ofText issue.severity.name), ("message", .ofText issue.message),
    ("file", .ofText issue.file), ("line", .ofNat issue.line), ("column", .ofNat issue.column),
    ("detector", .ofText issue.detector.name)]

/-- A detector's state as JSON. -/
def stateJson (state : DetectorState) : Json.Value :=
  .ofMembers (("state", .ofText state.name) ::
    (state.reason?.map fun reason => ("reason", Json.Value.ofText reason)).toList)

/-- A detector with its state as JSON. -/
def detectorJson (id : DetectorId) (state : DetectorState) : Json.Value :=
  .ofMembers [("id", .ofText id.name), ("state", stateJson state)]

/-- The report as JSON. -/
def json (report : Lint.Report) : String :=
  Json.write 0 (.ofMembers [("issues", .array (report.issues.map issueJson)),
    ("detectors", .array (report.states.map fun (id, state) => detectorJson id state))]) ++ "\n"

/-- A report in a format. -/
def render (format : Format) (colour : Bool) (report : Lint.Report) : String :=
  match format with
  | .stylish => stylish colour report.issues
  | .compact => compact report.issues
  | .json => json report

end HclLint.Report
