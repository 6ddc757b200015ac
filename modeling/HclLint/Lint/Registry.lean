/-
# Registries

A registry holds detectors in the order in which they were registered, each with the state
that it has reached. A run takes every detector back to its start, prepares those that are
neither ignored nor in need of a deep check that is not wanted, and lets the prepared ones
inspect the resources.

## Main definitions

* `DetectorState`: how far a detector has come.
* `Registry.register`, `Registry.prepare`, `Registry.inspect`, `Registry.run`.
* `Happening`: what a detector is asked to do and what it notes; an `Account` lists the
  happenings of a phase, detector by detector.
-/

import HclLint.Lint.Detector

namespace HclLint.Lint

open HclLint.Text HclLint.Model HclLint.Eval HclLint.Cloud

/-- How far a detector has come. -/
inductive DetectorState where
  | unstarted
  | skipped (reason : String)
  | prepared
  /-- The preparation failed, for the given reason. -/
  | failed (reason : String)
  | done
  deriving DecidableEq, Repr

namespace DetectorState

/-- The name of a state. -/
def name : DetectorState → String
  | .unstarted => "unstarted"
  | .skipped _ => "skipped"
  | .prepared => "pre_processed"
  | .failed _ => "pre_process_failed"
  | .done => "done"

/-- The reason of a state, where it has one. -/
def reason? : DetectorState → Option String
  | .skipped reason | .failed reason => some reason
  | .unstarted | .prepared | .done => none

/-- The state of a detector that is to be ignored. -/
def ignored : DetectorState := .skipped "ignored by configuration"

/-- The state of a detector that needs a deep check where none is wanted. -/
def needsDeepCheck : DetectorState := .skipped "requires deep check"

end DetectorState

/-- What is wanted of a run. -/
structure RunOptions where
  deepCheck : Bool
  ignored : List DetectorId
  deriving Inhabited

/-- What happens to a detector in a phase. -/
inductive Happening where
  /-- It is asked to prepare itself. -/
  | preparation
  /-- It is asked to inspect a resource. -/
  | visit (resource : Resource)
  | note (entry : LogEntry)

/-- The happenings of a phase, one list for each detector. -/
abbrev Account : Type := List (List Happening)

/-- The notes of an account. -/
def Account.log (account : Account) : Log :=
  account.flatten.filterMap fun
    | .note entry => some entry
    | _ => none

/-- A registered detector, the state it has reached and what it remembers. -/
structure Slot (μ : Type) where
  detector : Detector μ
  state : DetectorState
  memory : μ

namespace Slot

variable {μ : Type}

/-- The detector's name behind which a note of a phase stands. -/
def note (s : Slot μ) (level : LogLevel) (text : String) : Happening :=
  .note ⟨level, .detector, s.detector.id.name ++ ": " ++ text⟩

/-- The same detector at its start. -/
def restart (s : Slot μ) : Slot μ := { s with state := .unstarted }

/-- Skips or prepares a detector that has not started. -/
def prepare (options : RunOptions) (context : Context) (s : Slot μ) :
    Slot μ × List Happening :=
  if s.state ≠ .unstarted then (s, [])
  else if s.detector.id ∈ options.ignored then
    ({ s with state := .ignored }, [s.note .debug "ignored"])
  else if s.detector.isDeep && !options.deepCheck then
    ({ s with state := .needsDeepCheck }, [s.note .debug "deep check disabled"])
  else
    match s.detector.prepare context s.memory with
    | (.ok _, memory) => ({ s with state := .prepared, memory }, [.preparation])
    | (.error error, memory) =>
      ({ s with state := .failed error.message, memory },
        [.preparation, s.note .error ("disabled: " ++ error.message)])

/-- The resources that a detector inspects, in order. -/
def visited (templates : List Template) (s : Slot μ) : List Resource :=
  templates.flatMap (·.ofType s.detector.target)

/-- What a detector remarks on a resource. -/
def remarks (context : Context) (s : Slot μ) (resource : Resource) : List Remark :=
  s.detector.inspect context s.memory resource

/-- The happenings of a visit. -/
def visit (context : Context) (s : Slot μ) (resource : Resource) : List Happening :=
  .visit resource :: (s.remarks context resource).filterMap fun
    | .note entry => some (.note entry)
    | .finding .. => none

/-- Lets a prepared detector inspect its resources. -/
def inspect (templates : List Template) (context : Context) (s : Slot μ) :
    Slot μ × List Issue × List Happening :=
  if s.state ≠ .prepared then (s, [], [])
  else
    ({ s with state := .done },
      (s.visited templates).flatMap fun r => s.detector.issuesOf (s.remarks context r),
      (s.visited templates).flatMap (s.visit context))

end Slot

/-- The outcome of a run: the issues, and the state of each detector. -/
structure Report where
  issues : List Issue
  states : List (DetectorId × DetectorState)
  deriving DecidableEq, Repr

namespace Report

/-- The state of the first detector with an identity. -/
def stateOf? (report : Report) (id : DetectorId) : Option DetectorState :=
  (report.states.find? (·.1 == id)).map (·.2)

/-- Whether one of the issues is an error. -/
def hasErrors (report : Report) : Bool := report.issues.any (·.severity == .error)

end Report

/-- Detectors in order, with their states. -/
structure Registry (μ : Type) where
  slots : List (Slot μ)

namespace Registry

variable {μ : Type}

/-- The registry without detectors. -/
def empty : Registry μ := ⟨[]⟩

/-- Adds a detector at the end, with a memory to start from. -/
def register (registry : Registry μ) (detector : Detector μ) (memory : μ) : Registry μ :=
  ⟨registry.slots ++ [⟨detector, .unstarted, memory⟩]⟩

/-- The registry of some detectors, which start from the same memory. -/
def ofList (detectors : List (Detector μ)) (memory : μ) : Registry μ :=
  ⟨detectors.map fun detector => ⟨detector, .unstarted, memory⟩⟩

/-- The number of detectors. -/
def size (registry : Registry μ) : Nat := registry.slots.length

/-- The detectors in order. -/
def detectors (registry : Registry μ) : List (Detector μ) := registry.slots.map (·.detector)

/-- The identity and the state of each detector. -/
def states (registry : Registry μ) : List (DetectorId × DetectorState) :=
  registry.slots.map fun s => (s.detector.id, s.state)

/-- Takes all detectors back to their start. -/
def restart (registry : Registry μ) : Registry μ := ⟨registry.slots.map Slot.restart⟩

/-- Skips or prepares every detector that has not started. -/
def prepare (registry : Registry μ) (options : RunOptions) (context : Context) :
    Registry μ × Account :=
  let results := registry.slots.map (Slot.prepare options context)
  (⟨results.map (·.1)⟩, results.map (·.2))

/-- Lets every prepared detector inspect its resources. Issues come in the order of the
detectors, then of the resources. -/
def inspect (registry : Registry μ) (templates : List Template) (context : Context) :
    Registry μ × List Issue × Account :=
  let results := registry.slots.map (Slot.inspect templates context)
  (⟨results.map (·.1)⟩, results.flatMap (·.2.1), results.map (·.2.2))

/-- A finished run: the registry it leaves, its report, and what happened in its two
phases. -/
structure Run (μ : Type) where
  registry : Registry μ
  report : Report
  preparation : Account
  inspection : Account

/-- The notes of a run. -/
def Run.log (r : Run μ) : Log := r.preparation.log ++ r.inspection.log

/-- Runs all detectors from their start. -/
def run (registry : Registry μ) (templates : List Template) (context : Context)
    (options : RunOptions) : Run μ :=
  let (prepared, preparation) := registry.restart.prepare options context
  let (finished, issues, inspection) := prepared.inspect templates context
  ⟨finished, ⟨issues, finished.states⟩, preparation, inspection⟩

end Registry

end HclLint.Lint
