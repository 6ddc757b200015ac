/-
# What a run of a registry comes to

A run deals with every detector by itself. What becomes of one is decided by its identity, by
the options and by its own preparation, whatever state it was in before. The report lists these
outcomes in the order of registration, and the findings of the detectors that were prepared, each
of them inspecting the resources of its type in the order of the templates.

## Main definitions

* `Slot.verdict`, `Slot.findings`: what becomes of a detector in a run, and what it contributes.
* `Run.calls`: what the detectors are asked to do, in the order in which they are asked.

## Main statements

* `run_append`: detectors that are run together are run as each would be without the others.
* `run_equals_reference`: the states, the issues and the calls of every run.
-/

import HclLint.Proofs.Lint.Phase
import Mathlib.Data.List.Basic

namespace HclLint.Lint

open HclLint.Model

variable {μ : Type}

namespace Slot

/-- What becomes of a detector in a run. -/
def verdict (options : RunOptions) (context : Context) (s : Slot μ) : DetectorState :=
  if s.detector.id ∈ options.ignored then .skipped "ignored by configuration"
  else if s.detector.isDeep = true ∧ options.deepCheck = false then .skipped "requires deep check"
  else
    match (s.detector.prepare context s.memory).1 with
    | .ok _ => .done
    | .error error => .failed error.message

/-- What a detector remembers after a run: what its one preparation left behind, if it had
one. -/
def memoryAfter (options : RunOptions) (context : Context) (s : Slot μ) : μ :=
  if s.IsPassedOver options then s.memory else (s.detector.prepare context s.memory).2

/-- The resources that a detector inspects in a run, in the order of the templates. -/
def inspected (templates : List Template) (context : Context) (options : RunOptions)
    (s : Slot μ) : List Resource :=
  if s.verdict options context = .done then
    templates.flatMap fun t => t.resources.filter (·.key.type == s.detector.target)
  else []

/-- The issues that a detector contributes to a run: what it finds in the resources that it
inspects, under its identity and its severity. -/
def findings (templates : List Template) (context : Context) (options : RunOptions)
    (s : Slot μ) : List Issue :=
  (s.inspected templates context options).flatMap fun r =>
    (s.detector.inspect context (s.memoryAfter options context) r).filterMap fun
      | .finding position message =>
        some { severity := s.detector.severity, message, file := position.file,
               line := position.line, column := position.column, detector := s.detector.id }
      | .note _ => none

/-! ## One detector in a run -/

/-- A detector after the first phase of a run. -/
def afterPreparation (options : RunOptions) (context : Context) (s : Slot μ) : Slot μ where
  detector := s.detector
  state := if s.verdict options context = .done then .prepared else s.verdict options context
  memory := s.memoryAfter options context

/-- A detector after a run. -/
def afterRun (options : RunOptions) (context : Context) (s : Slot μ) : Slot μ where
  detector := s.detector
  state := s.verdict options context
  memory := s.memoryAfter options context

/-- What a detector is asked to do in the first phase of a run. -/
def preparations (options : RunOptions) (s : Slot μ) : List Happening :=
  if s.IsPassedOver options then [] else [.preparation]

section OneRun

variable (templates : List Template) (context : Context) (options : RunOptions) (s : Slot μ)

variable {context options s} in
/-- A detector that is not passed over is done or failed as its preparation says. -/
theorem verdict_of_not_isPassedOver (wanted : ¬ s.IsPassedOver options) :
    s.verdict options context =
      match (s.detector.prepare context s.memory).1 with
      | .ok _ => .done
      | .error error => .failed error.message := by
  rw [verdict, if_neg fun listed => wanted (.inl listed), if_neg fun deep => wanted (.inr deep)]

/-- A run leaves no detector where it started, or half done. -/
theorem verdict_settled :
    s.verdict options context ≠ .unstarted ∧ s.verdict options context ≠ .prepared := by
  unfold verdict
  split
  · simp
  · split
    · simp
    · split
      · simp
      · simp

/-- A run starts with the preparation of each slot as if it were new. -/
theorem prepare_restart :
    (s.restart.prepare options context).1 = s.afterPreparation options context ∧
      callsOf (s.restart.prepare options context).2 = s.preparations options := by
  have phase := prepares_prepare options context s.restart
  generalize (s.restart.prepare options context).1 = after at phase ⊢
  generalize callsOf (s.restart.prepare options context).2 = calls at phase ⊢
  -- Which case it is decides the tests that the verdict makes.
  unfold afterPreparation preparations memoryAfter
  cases phase with
  | idle started => exact absurd rfl started
  | ignored _ listed =>
    have passed : s.IsPassedOver options := .inl listed
    have verdict : s.verdict options context = .ignored := if_pos listed
    rw [if_pos passed, if_pos passed, verdict]
    exact ⟨rfl, rfl⟩
  | needsDeepCheck _ wanted deep shallow =>
    have passed : s.IsPassedOver options := .inr ⟨deep, shallow⟩
    have verdict : s.verdict options context = .needsDeepCheck :=
      (if_neg wanted).trans (if_pos ⟨deep, shallow⟩)
    rw [if_pos passed, if_pos passed, verdict]
    exact ⟨rfl, rfl⟩
  | prepared _ wanted result =>
    have wanted : ¬ s.IsPassedOver options := wanted
    rw [if_neg wanted, if_neg wanted, verdict_of_not_isPassedOver wanted]
    have result : s.detector.prepare context s.memory = _ := result
    rw [result]
    exact ⟨rfl, rfl⟩
  | failed _ wanted result =>
    have wanted : ¬ s.IsPassedOver options := wanted
    rw [if_neg wanted, if_neg wanted, verdict_of_not_isPassedOver wanted]
    have result : s.detector.prepare context s.memory = _ := result
    rw [result]
    exact ⟨rfl, rfl⟩

/-- The inspection in a run finds what the specification says and leaves the slot as it says. -/
theorem inspect_afterPreparation :
    ((s.afterPreparation options context).inspect templates context).1 =
        s.afterRun options context ∧
      ((s.afterPreparation options context).inspect templates context).2.1 =
        s.findings templates context options ∧
      callsOf ((s.afterPreparation options context).inspect templates context).2.2 =
        (s.inspected templates context options).map .visit := by
  unfold findings inspected
  by_cases done : s.verdict options context = .done
  · have ready : (s.afterPreparation options context).state = .prepared := if_pos done
    rw [inspect_of_prepared ready, callsOf_flatMap_visit, if_pos done]
    refine ⟨?_, rfl, rfl⟩
    rw [afterRun, done]
    rfl
  · have settled : (s.afterPreparation options context).state = s.verdict options context :=
      if_neg done
    have other : (s.afterPreparation options context).state ≠ .prepared :=
      settled ▸ (s.verdict_settled context options).2
    rw [inspect_of_ne other, if_neg done]
    refine ⟨?_, rfl, rfl⟩
    rw [afterPreparation, if_neg done]
    rfl

end OneRun

end Slot

/-! ## All detectors in a run -/

/-- The calls of a phase, each behind the number of the detector that it is made to. -/
def Account.calls (account : Account) : List (Nat × Happening) :=
  account.zipIdx.flatMap fun (happenings, i) => (callsOf happenings).map (i, ·)

theorem calls_map {slots : List (Slot μ)} {happenings expected : Slot μ → List Happening}
    (each : ∀ s, callsOf (happenings s) = expected s) :
    Account.calls (slots.map happenings) =
      slots.zipIdx.flatMap fun (s, i) => (expected s).map (i, ·) := by
  unfold Account.calls
  rw [List.zipIdx_map, List.flatMap_map]
  exact List.flatMap_congr fun (s, i) _ => congrArg (List.map (i, ·)) (each s)

namespace Registry

/-- The calls of a run: those of its first phase, and then those of its second. -/
def Run.calls (run : Run μ) : List (Nat × Happening) :=
  run.preparation.calls ++ run.inspection.calls

variable (registry : Registry μ) (templates : List Template) (context : Context)
  (options : RunOptions)

/-- A run, detector by detector. -/
theorem run_eq :
    registry.run templates context options =
      { registry := ⟨registry.slots.map (·.afterRun options context)⟩
        report :=
          ⟨registry.slots.flatMap (·.findings templates context options),
            registry.slots.map fun s => (s.detector.id, s.verdict options context)⟩
        preparation := registry.slots.map fun s => (s.restart.prepare options context).2
        inspection := registry.slots.map fun s =>
          ((s.afterPreparation options context).inspect templates context).2.2 } := by
  have prepared : ∀ s : Slot μ,
      (s.restart.prepare options context).1 = s.afterPreparation options context :=
    fun s => (s.prepare_restart context options).1
  have finished : ∀ s : Slot μ,
      ((s.afterPreparation options context).inspect templates context).1 =
        s.afterRun options context :=
    fun s => (s.inspect_afterPreparation templates context options).1
  have found : ∀ s : Slot μ,
      ((s.afterPreparation options context).inspect templates context).2.1 =
        s.findings templates context options :=
    fun s => (s.inspect_afterPreparation templates context options).2.1
  simp [run, restart, prepare, inspect, states, Function.comp_def, List.flatMap_map, prepared,
    finished, found, Slot.afterRun]

/-- In a run all preparations come before all visits. -/
theorem run_calls :
    (registry.run templates context options).calls =
      (registry.slots.zipIdx.flatMap fun (s, i) => (s.preparations options).map (i, ·)) ++
        registry.slots.zipIdx.flatMap fun (s, i) =>
          (s.inspected templates context options).map fun r => (i, .visit r) := by
  rw [run_eq, Run.calls, calls_map fun s => (s.prepare_restart context options).2,
    calls_map fun s => (s.inspect_afterPreparation templates context options).2.2]
  simp only [List.map_map]
  rfl

/-- Detectors that are run together are run as each would be without the others. -/
theorem run_append (front back : List (Slot μ)) :
    (run ⟨front ++ back⟩ templates context options).report =
      ⟨(run ⟨front⟩ templates context options).report.issues ++
          (run ⟨back⟩ templates context options).report.issues,
        (run ⟨front⟩ templates context options).report.states ++
          (run ⟨back⟩ templates context options).report.states⟩ := by
  simp [run_eq]

/-- The report of a registry with one detector. -/
theorem run_singleton (s : Slot μ) :
    (run ⟨[s]⟩ templates context options).report =
      ⟨s.findings templates context options, [(s.detector.id, s.verdict options context)]⟩ := by
  simp [run_eq]

/-- **A run equals its reference semantics.** Every detector gets its verdict, in the order of
registration, and is left with what its one preparation made it remember. The issues are what
the detectors whose verdict is `done` find, in the same order. Of the calls those that prepare
come first, one to each detector that is not passed over; then those detectors that are done
visit their resources. Wherever a detector joins the others, it adds its own verdict and its own
findings, none unless it is done, and changes nothing about theirs. -/
theorem run_equals_reference :
    let run := registry.run templates context options
    run.report.states =
        registry.slots.map (fun s => (s.detector.id, s.verdict options context)) ∧
      run.registry.slots = registry.slots.map (·.afterRun options context) ∧
      (∀ s ∈ run.registry.slots, s.state ≠ .unstarted ∧ s.state ≠ .prepared) ∧
      run.report.issues = registry.slots.flatMap (·.findings templates context options) ∧
      run.calls =
        (registry.slots.zipIdx.flatMap fun (s, i) =>
          if s.IsPassedOver options then [] else [(i, .preparation)]) ++
        (registry.slots.zipIdx.flatMap fun (s, i) =>
          (s.inspected templates context options).map fun r => (i, .visit r)) ∧
      ∀ i newcomer,
        let front := (Registry.run ⟨registry.slots.take i⟩ templates context options).report
        let back := (Registry.run ⟨registry.slots.drop i⟩ templates context options).report
        let more := (Registry.run ⟨registry.slots.take i ++ newcomer :: registry.slots.drop i⟩
          templates context options).report
        run.report = ⟨front.issues ++ back.issues, front.states ++ back.states⟩ ∧
          more = ⟨front.issues ++ newcomer.findings templates context options ++ back.issues,
            front.states ++
              (newcomer.detector.id, newcomer.verdict options context) :: back.states⟩ ∧
          (newcomer.verdict options context ≠ .done →
            newcomer.findings templates context options = []) := by
  intro run
  have eq : run = _ := run_eq registry templates context options
  refine ⟨by rw [eq], by rw [eq], ?_, by rw [eq], ?_, fun i newcomer => ⟨?_, ?_, ?_⟩⟩
  · rw [eq]
    refine List.forall_mem_map.mpr fun s _ => ?_
    exact s.verdict_settled context options
  · rw [run_calls]
    congr 1
    refine List.flatMap_congr fun (s, i) _ => ?_
    by_cases passed : s.IsPassedOver options
    · simp [Slot.preparations, passed]
    · simp [Slot.preparations, passed]
  · rw [← run_append, List.take_append_drop]
  · have single := run_append templates context options [newcomer] (registry.slots.drop i)
    rw [run_singleton] at single
    rw [run_append, ← List.singleton_append, single, List.append_assoc]
    rfl
  · intro other
    rw [Slot.findings, Slot.inspected, if_neg other]
    rfl

end Registry

end HclLint.Lint
