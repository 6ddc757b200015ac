/-
# Episodes in the life of a detector

Seen from one detector, what is done to a registry is a succession of phases. In most of them
nothing happens to it, and in the others it takes one step of its life. A detector has one
preparation and one inspection before it; steps use them up, and only a restart gives them back.

## Main definitions

* `Phase`: one phase in the life of a registry.
* `Slot.Makes`: what a phase can do to a detector.
* `Episode`: what one phase was for one detector; `Slot.episodes` lists them.

## Main statements

* `makes_enter`: each phase takes a detector one step further, or leaves it as it is.
* `Makes.preparations_le`, `Makes.inspections_le`: what a step uses up.
* `preparations_le`, `inspections_le`: what the phases up to the next restart use up.
-/

import HclLint.Proofs.Lint.Phase
import Mathlib.Data.List.Basic

namespace HclLint.Lint

open HclLint.Model HclLint.Cloud

variable {μ : Type}

/-- One phase in the life of a registry. -/
inductive Phase (μ : Type) where
  | register (detector : Detector μ) (memory : μ)
  | restart
  | prepare (options : RunOptions) (context : Context)
  | inspect (templates : List Template) (context : Context)

/-- Whether a phase takes the detectors back to their start. -/
def Phase.isRestart : Phase μ → Bool
  | .restart => true
  | .register .. | .prepare .. | .inspect .. => false

/-- Whether a phase prepares the detectors. -/
def Phase.isPreparation : Phase μ → Bool
  | .prepare .. => true
  | .register .. | .restart | .inspect .. => false

/-! ## A phase seen from one detector -/

namespace Happening

/-- Whether the detector was asked to prepare itself. -/
def isPreparation : Happening → Bool
  | .preparation => true
  | .visit _ | .note _ => false

/-- Whether the detector was asked to inspect a resource. -/
def isVisit : Happening → Bool
  | .visit _ => true
  | .preparation | .note _ => false

end Happening

/-- What a phase was for a detector. -/
structure Episode (μ : Type) where
  phase : Phase μ
  before : Slot μ
  after : Slot μ
  happenings : List Happening

namespace Episode

/-- What the detector was asked to do. -/
def calls (e : Episode μ) : List Happening := callsOf e.happenings

/-- Whether the detector visited a resource. -/
def hasVisits (e : Episode μ) : Bool := e.calls.any Happening.isVisit

/-- The detector was prepared, and the preparation succeeded. -/
def IsSuccessfulPreparation (e : Episode μ) : Prop :=
  ∃ options context, e.phase = .prepare options context ∧ e.calls = [.preparation] ∧
    (e.before.detector.prepare context e.before.memory).1 = .ok ⟨⟩

end Episode

namespace Slot

/-- A detector after a phase, and what happened to it. -/
def enter (s : Slot μ) : Phase μ → Slot μ × List Happening
  | .register .. => (s, [])
  | .restart => (s.restart, [])
  | .prepare options context => s.prepare options context
  | .inspect templates context =>
    ((s.inspect templates context).1, (s.inspect templates context).2.2)

/-- A phase that does not concern a detector in its state. -/
def IsIdleIn (s : Slot μ) : Phase μ → Prop
  | .register .. => True
  | .restart => False
  | .prepare .. => s.state ≠ .unstarted
  | .inspect .. => s.state ≠ .prepared

/-- What a phase can do to a detector: the detector after it, and the calls. -/
inductive Makes (s : Slot μ) : Phase μ → Slot μ → List Happening → Prop where
  | idle {phase : Phase μ} (idle : s.IsIdleIn phase) : Makes s phase s []
  | restart : Makes s .restart { s with state := .unstarted } []
  | ignore {options : RunOptions} {context : Context} (fresh : s.state = .unstarted)
      (listed : s.detector.id ∈ options.ignored) :
      Makes s (.prepare options context) { s with state := .ignored } []
  | skip {options : RunOptions} {context : Context} (fresh : s.state = .unstarted)
      (unlisted : s.detector.id ∉ options.ignored) (deep : s.detector.isDeep = true)
      (shallow : options.deepCheck = false) :
      Makes s (.prepare options context) { s with state := .needsDeepCheck } []
  | prepare {options : RunOptions} {context : Context} {memory : μ}
      (fresh : s.state = .unstarted) (wanted : ¬ s.IsPassedOver options)
      (result : s.detector.prepare context s.memory = (.ok ⟨⟩, memory)) :
      Makes s (.prepare options context) { s with state := .prepared, memory } [.preparation]
  | fail {options : RunOptions} {context : Context} {memory : μ} {error : CloudError}
      (fresh : s.state = .unstarted) (wanted : ¬ s.IsPassedOver options)
      (result : s.detector.prepare context s.memory = (.error error, memory)) :
      Makes s (.prepare options context) { s with state := .failed error.message, memory }
        [.preparation]
  | inspect {templates : List Template} {context : Context} (ready : s.state = .prepared) :
      Makes s (.inspect templates context) { s with state := .done }
        ((templates.flatMap (·.ofType s.detector.target)).map .visit)

/-- **What a phase does to a detector.** -/
theorem makes_enter (s : Slot μ) (phase : Phase μ) :
    s.Makes phase (s.enter phase).1 (callsOf (s.enter phase).2) := by
  cases phase with
  | register => exact .idle trivial
  | restart => exact .restart
  | prepare options context =>
    have step := prepares_prepare options context s
    rw [enter]
    generalize (s.prepare options context).1 = after at step ⊢
    generalize callsOf (s.prepare options context).2 = calls at step ⊢
    cases step with
    | idle started => exact .idle started
    | ignored fresh listed => exact .ignore fresh listed
    | needsDeepCheck fresh unlisted deep shallow => exact .skip fresh unlisted deep shallow
    | prepared fresh wanted result => exact .prepare fresh wanted result
    | failed fresh wanted result => exact .fail fresh wanted result
  | inspect templates context =>
    rw [enter]
    by_cases ready : s.state = .prepared
    · rw [inspect_of_prepared ready, callsOf_flatMap_visit]
      exact .inspect ready
    · rw [inspect_of_ne ready]
      exact .idle ready

/-- What a phase is for a detector. -/
def episode (s : Slot μ) (phase : Phase μ) : Episode μ :=
  ⟨phase, s, (s.enter phase).1, (s.enter phase).2⟩

/-- The episodes of a detector in some phases. -/
def episodes (s : Slot μ) : List (Phase μ) → List (Episode μ)
  | [] => []
  | phase :: phases => s.episode phase :: (s.enter phase).1.episodes phases

/-- A detector after some phases. -/
def enterAll (s : Slot μ) (phases : List (Phase μ)) : Slot μ :=
  phases.foldl (fun s phase => (s.enter phase).1) s

variable {s next : Slot μ} {phase : Phase μ} {phases : List (Phase μ)} {calls : List Happening}

theorem episodes_eq_append {front back : List (Episode μ)}
    (same : s.episodes phases = front ++ back) :
    ∃ before after, phases = before ++ after ∧ front = s.episodes before ∧
      back = (s.enterAll before).episodes after := by
  induction front generalizing s phases with
  | nil => exact ⟨[], phases, rfl, rfl, same.symm⟩
  | cons e front ih =>
    cases phases with
    | nil => cases same
    | cons phase phases =>
      obtain ⟨rfl, rest⟩ := List.cons.inj same
      obtain ⟨before, after, rfl, rfl, rfl⟩ := ih rest
      exact ⟨phase :: before, after, rfl, rfl, rfl⟩

/-- A part of a detector's episodes is again the episodes of a detector. -/
theorem exists_episodes_of_infix {segment : List (Episode μ)}
    (part : segment <:+: s.episodes phases) :
    ∃ (s' : Slot μ) (phases' : List (Phase μ)), segment = s'.episodes phases' := by
  obtain ⟨front, back, same⟩ := part
  rw [List.append_assoc] at same
  obtain ⟨_, _, _, _, later⟩ := episodes_eq_append same.symm
  obtain ⟨before, _, _, here, _⟩ := episodes_eq_append later.symm
  exact ⟨_, before, here⟩

end Slot

/-! ## What a step preserves -/

namespace DetectorState

/-- Whether only a restart leads out of a state. -/
def isFinal : DetectorState → Bool
  | .skipped _ | .failed _ | .done => true
  | .unstarted | .prepared => false

/-- How often a detector in a state can be prepared before the next restart. -/
def preparationsLeft : DetectorState → Nat
  | .unstarted => 1
  | .skipped _ | .prepared | .failed _ | .done => 0

/-- How often a detector in a state can inspect resources before the next restart. -/
def inspectionsLeft : DetectorState → Nat
  | .unstarted | .prepared => 1
  | .skipped _ | .failed _ | .done => 0

theorem preparationsLeft_le_one (state : DetectorState) : state.preparationsLeft ≤ 1 := by
  cases state <;> simp [preparationsLeft]

theorem inspectionsLeft_le_one (state : DetectorState) : state.inspectionsLeft ≤ 1 := by
  cases state <;> simp [inspectionsLeft]

end DetectorState

namespace Slot

variable {s next : Slot μ} {phase : Phase μ} {calls : List Happening}

theorem IsIdleIn.isRestart (idle : s.IsIdleIn phase) : phase.isRestart = false := by
  cases phase with
  | restart => cases idle
  | register | prepare | inspect => rfl

theorem Makes.detector_eq (step : s.Makes phase next calls) : next.detector = s.detector := by
  cases step <;> rfl

/-- A detector that is skipped, disabled or done stays so, and is asked nothing, until the next
restart. -/
theorem Makes.eq_of_isFinal (step : s.Makes phase next calls) (onward : phase.isRestart = false)
    (final : s.state.isFinal = true) : next = s ∧ calls = [] := by
  cases step with
  | idle => exact ⟨rfl, rfl⟩
  | restart => cases onward
  | ignore fresh | skip fresh | prepare fresh | fail fresh =>
    rw [fresh] at final
    cases final
  | inspect ready =>
    rw [ready] at final
    cases final

/-- A preparation uses up the one that a detector has before the next restart. -/
theorem Makes.preparations_le (step : s.Makes phase next calls)
    (onward : phase.isRestart = false) :
    calls.countP Happening.isPreparation + next.state.preparationsLeft ≤
      s.state.preparationsLeft := by
  cases step with
  | idle => simp
  | restart => cases onward
  | ignore fresh | skip fresh => exact fresh ▸ Nat.zero_le 1
  | prepare fresh | fail fresh => exact fresh ▸ Nat.le_refl 1
  | inspect ready => simp [ready, DetectorState.preparationsLeft, Happening.isPreparation]

/-- Visits use up the one inspection that a detector has before the next restart. -/
theorem Makes.inspections_le (step : s.Makes phase next calls)
    (onward : phase.isRestart = false) :
    (calls.any Happening.isVisit).toNat + next.state.inspectionsLeft ≤
      s.state.inspectionsLeft := by
  cases step with
  | idle => simp
  | restart => cases onward
  | ignore fresh | skip fresh | fail fresh => exact fresh ▸ Nat.zero_le 1
  | prepare fresh => exact fresh ▸ Nat.le_refl 1
  | inspect ready => simp [ready, DetectorState.inspectionsLeft, Bool.toNat_le]

/-- Only prepared detectors visit resources. -/
theorem Makes.prepared_of_visit (step : s.Makes phase next calls)
    (visits : calls.any Happening.isVisit = true) : s.state = .prepared := by
  cases step with
  | inspect ready => exact ready
  | idle | restart | ignore | skip | prepare | fail => cases visits

/-- A detector that is prepared after a phase was so before, or has just been prepared. -/
theorem Makes.prepared_or (step : s.Makes phase next calls) (prepared : next.state = .prepared) :
    (s.state = .prepared ∧ phase.isRestart = false) ∨
      ∃ options context, phase = .prepare options context ∧ calls = [.preparation] ∧
        (s.detector.prepare context s.memory).1 = .ok ⟨⟩ := by
  cases step with
  | idle idle => exact .inl ⟨prepared, idle.isRestart⟩
  | @prepare options context _ _ _ result =>
    exact .inr ⟨options, context, rfl, rfl, by rw [result]⟩
  | restart | ignore | skip | fail | inspect => cases prepared

/-- A detector that waits for its preparation stays at its start and is asked nothing. -/
theorem Makes.waits (step : s.Makes phase next calls) (fresh : s.state = .unstarted)
    (other : phase.isPreparation = false) : next.state = .unstarted ∧ calls = [] := by
  cases step with
  | idle => exact ⟨fresh, rfl⟩
  | restart => exact ⟨rfl, rfl⟩
  | ignore | skip | prepare | fail => cases other
  | inspect ready =>
    rw [fresh] at ready
    cases ready

end Slot

/-! ## What a run of phases preserves -/

/-- No restart is among the episodes. -/
def IsOnward (episodes : List (Episode μ)) : Prop := ∀ e ∈ episodes, e.phase.isRestart = false

namespace Slot

variable {s : Slot μ} {phases : List (Phase μ)}

theorem settled_of_isFinal (final : s.state.isFinal = true)
    (onward : IsOnward (s.episodes phases)) :
    ∀ e ∈ s.episodes phases, e.after = s ∧ e.calls = [] := by
  induction phases with
  | nil => simp [episodes]
  | cons phase phases ih =>
    obtain ⟨here, later⟩ := List.forall_mem_cons.mp onward
    obtain ⟨same, silent⟩ := (s.makes_enter phase).eq_of_isFinal here final
    rw [same] at later
    rw [episodes, same]
    exact List.forall_mem_cons.mpr ⟨⟨same, silent⟩, ih later⟩

theorem preparations_le (onward : IsOnward (s.episodes phases)) :
    ((s.episodes phases).flatMap (·.calls)).countP Happening.isPreparation ≤
      s.state.preparationsLeft := by
  -- What the first phase uses up is not left for those behind it.
  induction phases generalizing s with
  | nil => exact Nat.zero_le _
  | cons phase phases ih =>
    obtain ⟨here, later⟩ := List.forall_mem_cons.mp onward
    have first : (s.episode phase).calls.countP Happening.isPreparation +
        (s.enter phase).1.state.preparationsLeft ≤ _ :=
      (s.makes_enter phase).preparations_le here
    have rest := ih later
    rw [episodes, List.flatMap_cons, List.countP_append]
    omega

theorem inspections_le (onward : IsOnward (s.episodes phases)) :
    (s.episodes phases).countP (·.hasVisits) ≤ s.state.inspectionsLeft := by
  induction phases generalizing s with
  | nil => exact Nat.zero_le _
  | cons phase phases ih =>
    obtain ⟨here, later⟩ := List.forall_mem_cons.mp onward
    have first : (s.episode phase).hasVisits.toNat + (s.enter phase).1.state.inspectionsLeft ≤ _ :=
      (s.makes_enter phase).inspections_le here
    have rest := ih later
    have counted : (if (s.episode phase).hasVisits = true then 1 else 0) =
        (s.episode phase).hasVisits.toNat := by
      cases (s.episode phase).hasVisits <;> rfl
    rw [episodes, List.countP_cons, counted]
    omega

theorem waits_of_unstarted (fresh : s.state = .unstarted)
    (waiting : ∀ e ∈ s.episodes phases, e.phase.isPreparation = false) :
    ∀ e ∈ s.episodes phases, e.after.state = .unstarted ∧ e.calls = [] := by
  induction phases generalizing s with
  | nil => simp [episodes]
  | cons phase phases ih =>
    obtain ⟨here, later⟩ := List.forall_mem_cons.mp waiting
    have step := (s.makes_enter phase).waits fresh here
    exact List.forall_mem_cons.mpr ⟨step, ih step.1 later⟩

/-- A detector that ends up prepared has been prepared with success since the last restart,
unless it was prepared from the beginning and there was no restart. -/
theorem exists_successfulPreparation (ready : (s.enterAll phases).state = .prepared) :
    (s.state = .prepared ∧ IsOnward (s.episodes phases)) ∨
      ∃ earlier p between, s.episodes phases = earlier ++ p :: between ∧ IsOnward between ∧
        p.IsSuccessfulPreparation := by
  induction phases generalizing s with
  | nil => exact .inl ⟨ready, List.forall_mem_nil _⟩
  | cons phase phases ih =>
    -- Behind the first phase there is such a preparation, or the detector was prepared before.
    rcases ih ready with ⟨prepared, onward⟩ | ⟨earlier, p, between, rest, onward, success⟩
    · obtain ⟨before, here⟩ | success := (s.makes_enter phase).prepared_or prepared
      · exact .inl ⟨before, List.forall_mem_cons.mpr ⟨here, onward⟩⟩
      · exact .inr ⟨[], s.episode phase, (s.enter phase).1.episodes phases, rfl, onward, success⟩
    · refine .inr ⟨s.episode phase :: earlier, p, between, ?_, onward, success⟩
      rw [episodes, rest, List.cons_append]

end Slot

end HclLint.Lint
