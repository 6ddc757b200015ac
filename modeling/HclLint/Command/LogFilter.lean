/-
# Log filters

Which notes are shown. A filter is written as directives between commas, each of them a
level, a target, or a target with its level. Of the directives whose targets start the name
of a note's origin the longest decides. Behind a slash stands a text that a note has to
contain.

## Main definitions

* `LogFilter.ofText`: the filter that a text describes.
* `LogFilter.shows`: whether a note is shown.
* `LogFilter.render`: the lines of the notes that are shown.
-/

import HclLint.Log
import HclLint.Text.Blank
import HclLint.Text.Pieces

namespace HclLint.Command

open HclLint.Text

/-- How much is shown. -/
inductive Verbosity where
  | off | error | warn | info | debug | trace
  deriving DecidableEq, Repr

namespace Verbosity

/-- The verbosities, from the least to the greatest. -/
def all : List Verbosity := [off, error, warn, info, debug, trace]

/-- The name of a verbosity. -/
def name : Verbosity → String
  | off => "OFF"
  | error => "ERROR"
  | warn => "WARN"
  | info => "INFO"
  | debug => "DEBUG"
  | trace => "TRACE"

/-- The verbosity with a name in letters of any case. -/
def ofText? (text : List Char) : Option Verbosity :=
  all.find? fun v => v.name.toList == text.map Char.toUpper

/-- Whether notes of a level are shown. -/
def shows : Verbosity → LogLevel → Bool
  | off, _ => false
  | error, level => level == .error
  | warn, level | info, level => level != .debug
  | debug, _ | trace, _ => true

end Verbosity

/-- How much is shown of a target, or of all targets. -/
structure Directive where
  target? : Option String
  verbosity : Verbosity
  deriving DecidableEq, Repr

namespace Directive

/-- Whether a directive is about an origin. -/
def covers (d : Directive) (origin : String) : Bool :=
  d.target?.all fun target => target.toList.isPrefixOf origin.toList

/-- The size of a directive's target in bytes. -/
def weight (d : Directive) : Nat := (d.target?.map String.utf8ByteSize).getD 0

/-- Reads a directive, or else the part of it that is at fault. -/
def ofText (text : List Char) : Except String Directive :=
  match split '=' text with
  | [word] =>
    match Verbosity.ofText? word with
    | some verbosity => .ok ⟨none, verbosity⟩
    | none => .ok ⟨some (String.ofList word), .trace⟩
  | [target, level] =>
    if (trim level).isEmpty then .ok ⟨some (String.ofList target), .trace⟩
    else
      match Verbosity.ofText? (trim level) with
      | some verbosity => .ok ⟨some (String.ofList target), verbosity⟩
      | none => .error (String.ofList (trim level))
  | _ => .error (String.ofList text)

end Directive

/-- Directives, and a text that a note has to contain. -/
structure LogFilter where
  directives : List Directive
  contained : List Char

namespace LogFilter

/-- The directives with one more, which replaces that about the same target. -/
def put (d : Directive) : List Directive → List Directive
  | [] => [d]
  | first :: rest => if first.target? = d.target? then d :: rest else first :: put d rest

/-- Reads the directives between commas, and the parts that are at fault. -/
def readDirectives (text : List Char) : List Directive × List String :=
  (((split ',' text).map trim).filter (!·.isEmpty)).foldl
    (fun (directives, faults) part =>
      match Directive.ofText part with
      | .ok d => (put d directives, faults)
      | .error fault => (directives, faults ++ [s!"invalid logging spec '{fault}'"]))
    ([], [])

/-- The filter that a text describes, and what is wrong with the text. -/
def ofText (text : String) : LogFilter × List String :=
  match split '/' text.toList with
  | [directives] =>
    let (directives, faults) := readDirectives directives
    (⟨directives, []⟩, faults)
  | [directives, contained] =>
    let (directives, faults) := readDirectives directives
    (⟨directives, contained⟩, faults)
  | _ => (⟨[], []⟩, [s!"invalid logging spec '{text}' (too many '/'s)"])

/-- The filter that shows at least all notes of targets without a directive. -/
def withDebug (filter : LogFilter) : LogFilter :=
  { filter with directives := put ⟨none, .debug⟩ filter.directives }

/-- The directive that decides about an origin: the longest one, and the last of those. -/
def deciding? (filter : LogFilter) (origin : String) : Option Directive :=
  (filter.directives.filter (·.covers origin)).foldl
    (fun best d =>
      match best with
      -- Of equally long targets the later directive decides.
      | some b => if b.weight ≤ d.weight then some d else some b
      | none => some d)
    none

/-- How much is shown of an origin: errors alone where there are no directives at all. -/
def verbosity (filter : LogFilter) (origin : String) : Verbosity :=
  if filter.directives.isEmpty then .error
  else ((filter.deciding? origin).map (·.verbosity)).getD .off

/-- Whether a text stands somewhere in another. -/
def isWithin (part : List Char) : List Char → Bool
  | [] => part.isEmpty
  | c :: rest => part.isPrefixOf (c :: rest) || isWithin part rest

/-- Whether a note is shown. -/
def shows (filter : LogFilter) (entry : LogEntry) : Bool :=
  (filter.verbosity entry.origin.name).shows entry.level &&
    isWithin filter.contained entry.text.toList

/-- A text whose further lines are set in. -/
def indented (text : String) : String :=
  String.ofList (text.toList.flatMap fun c => if c = '\n' then "\n    ".toList else [c])

/-- A note as it is shown. -/
def line (entry : LogEntry) : String :=
  "[" ++ padRight 5 entry.level.name ++ " " ++ entry.origin.name ++ "] " ++
    indented entry.text ++ "\n"

/-- The lines of the notes that are shown. -/
def render (filter : LogFilter) (log : Log) : String :=
  String.join ((log.filter filter.shows).map line)

end LogFilter

example : (LogFilter.ofText "warn, a=debug").1.directives =
    [⟨none, .warn⟩, ⟨some "a", .debug⟩] := by decide +kernel

end HclLint.Command
