/-
# The life cycle of a detector

Registering, preparing, inspecting and running may be called in any order. Only a restart, with
which every run begins, leads a detector back to its start, so between two restarts it is
prepared at most once, and inspects its resources at most once and after that.

## Main definitions

* `Call`: what a caller can do to a registry, and the phases that this comes to.
* `IsLifeCycle`: what the episodes of a detector have to be like.
* `Registry.history`: what a detector is asked to do by some calls.

## Main statements

* `Slot.isLifeCycle_episodes`: a detector lives through any phases as it should.
* `calls_obey_lifeCycle`: so do all detectors of a registry under any calls.
-/

import HclLint.Proofs.Lint.Episode
import Mathlib.Data.List.Chain

namespace HclLint.Lint

open HclLint.Model HclLint.Cloud

variable {μ : Type}

/-! ## The life cycle -/

/-- What the episodes of a detector are like. -/
structure IsLifeCycle (episodes : List (Episode μ)) : Prop where
  starts : ∀ e ∈ episodes.head?, e.before.state = .unstarted
  /-- Nothing happens to the detector between two episodes. -/
  continues : episodes.IsChain fun e next => next.before = e.after
  /-- Each phase takes the detector one step further, or leaves it as it is. -/
  steps : ∀ e ∈ episodes, e.before.Makes e.phase e.after e.calls
  /-- Between two restarts the detector is prepared at most once. -/
  prepared_once : ∀ segment, segment <:+: episodes → IsOnward segment →
    (segment.flatMap (·.calls)).countP Happening.isPreparation ≤ 1
  /-- Between two restarts the detector visits resources in at most one phase. -/
  inspected_once : ∀ segment, segment <:+: episodes → IsOnward segment →
    segment.countP (·.hasVisits) ≤ 1
  /-- The detector visits resources only after it was prepared with success, with no restart in
  between. -/
  visits_prepared : ∀ front e back, episodes = front ++ e :: back → e.hasVisits = true →
    ∃ earlier p between, front = earlier ++ p :: between ∧ IsOnward between ∧
      p.IsSuccessfulPreparation
  /-- A detector that was skipped, disabled or is done stays so until the next restart, and is
  asked nothing. -/
  settled : ∀ e segment, e :: segment <:+: episodes → e.after.state.isFinal = true →
    IsOnward segment → ∀ later ∈ segment, later.after = e.after ∧ later.calls = []
  /-- Before the first phase of preparation the detector stays at its start and is asked
  nothing. -/
  waits : ∀ front, front <+: episodes → (∀ e ∈ front, e.phase.isPreparation = false) →
    ∀ e ∈ front, e.after.state = .unstarted ∧ e.calls = []

theorem isLifeCycle_nil : IsLifeCycle ([] : List (Episode μ)) where
  starts _ first := by cases first
  continues := .nil
  steps _ member := by cases member
  prepared_once segment part _ := by
    rw [List.eq_nil_of_infix_nil part]
    exact Nat.zero_le 1
  inspected_once segment part _ := by
    rw [List.eq_nil_of_infix_nil part]
    exact Nat.zero_le 1
  visits_prepared front e back split := by
    cases List.append_eq_nil_iff.mp split.symm |>.2
  settled e segment part := by
    cases List.eq_nil_of_infix_nil part
  waits front part _ e member := by
    rw [List.eq_nil_of_prefix_nil part] at member
    cases member

namespace Slot

variable {s : Slot μ}

/-- Each phase enters a slot in the state in which the phase before left it. -/
theorem isChain_episodes (s : Slot μ) (phases : List (Phase μ)) :
    (s.episodes phases).IsChain fun e next => next.before = e.after := by
  induction phases generalizing s with
  | nil => exact .nil
  | cons phase phases ih =>
    refine List.isChain_cons.mpr ⟨fun next first => ?_, ih _⟩
    cases phases with
    | nil => cases first
    | cons =>
      obtain rfl := Option.some.inj first
      rfl

/-- Every episode of a slot is one of the steps that the specification lists. -/
theorem makes_of_mem_episodes {phases : List (Phase μ)} {e : Episode μ}
    (member : e ∈ s.episodes phases) : e.before.Makes e.phase e.after e.calls := by
  induction phases generalizing s with
  | nil => cases member
  | cons phase phases ih =>
    rcases List.mem_cons.mp member with rfl | later
    · exact s.makes_enter phase
    · exact ih later

/-- The episodes of a slot that was not started make up a life cycle. -/
theorem isLifeCycle_episodes (fresh : s.state = .unstarted) (phases : List (Phase μ)) :
    IsLifeCycle (s.episodes phases) where
  starts e first := by
    cases phases with
    | nil => cases first
    | cons =>
      obtain rfl := Option.some.inj first
      exact fresh
  continues := s.isChain_episodes phases
  steps _ := makes_of_mem_episodes
  prepared_once segment part onward := by
    obtain ⟨s', phases', rfl⟩ := exists_episodes_of_infix part
    exact (preparations_le onward).trans s'.state.preparationsLeft_le_one
  inspected_once segment part onward := by
    obtain ⟨s', phases', rfl⟩ := exists_episodes_of_infix part
    exact (inspections_le onward).trans s'.state.inspectionsLeft_le_one
  visits_prepared front e back split visits := by
    -- The detector is prepared when it visits, and it did not start like that.
    obtain ⟨before, after, rfl, rfl, rest⟩ := episodes_eq_append split
    cases after with
    | nil => cases rest
    | cons phase after =>
      obtain ⟨rfl, rfl⟩ := List.cons.inj rest
      have ready := ((s.enterAll before).makes_enter phase).prepared_of_visit visits
      obtain ⟨start, _⟩ | success := exists_successfulPreparation ready
      · rw [fresh] at start
        cases start
      · exact success
  settled e segment part final onward := by
    -- What follows an episode is the life of the detector that it leaves.
    obtain ⟨s', phases', same⟩ := exists_episodes_of_infix part
    cases phases' with
    | nil => cases same
    | cons phase phases' =>
      obtain ⟨rfl, rfl⟩ := List.cons.inj same
      exact settled_of_isFinal final onward
  waits front part waiting := by
    obtain ⟨back, split⟩ := part
    obtain ⟨before, _, _, rfl, _⟩ := episodes_eq_append split.symm
    exact waits_of_unstarted fresh waiting

end Slot

/-! ## Calls -/

/-- What a caller can do to a registry. -/
inductive Call (μ : Type) where
  | register (detector : Detector μ) (memory : μ)
  | prepare (options : RunOptions) (context : Context)
  | inspect (templates : List Template) (context : Context)
  | run (templates : List Template) (context : Context) (options : RunOptions)

namespace Call

/-- The phases of a call. A run begins with a restart. -/
def phases : Call μ → List (Phase μ)
  | .register detector memory => [.register detector memory]
  | .prepare options context => [.prepare options context]
  | .inspect templates context => [.inspect templates context]
  | .run templates context options =>
    [.restart, .prepare options context, .inspect templates context]

/-- The detector that a call registers. -/
def newcomer? : Call μ → Option (Detector μ)
  | .register detector _ => some detector
  | .prepare .. | .inspect .. | .run .. => none

end Call

/-- The detectors that a phase adds. -/
def Phase.newcomers : Phase μ → List (Slot μ)
  | .register detector memory => [⟨detector, .unstarted, memory⟩]
  | .restart | .prepare .. | .inspect .. => []

namespace Registry

/-- A registry after a call. -/
def perform (registry : Registry μ) : Call μ → Registry μ
  | .register detector memory => registry.register detector memory
  | .prepare options context => (registry.prepare options context).1
  | .inspect templates context => (registry.inspect templates context).1
  | .run templates context options => (registry.run templates context options).registry

/-- What happens in a call, phase by phase. Registering and restarting ask no detector
anything. -/
def accounts (registry : Registry μ) : Call μ → List Account
  | .register .. => []
  | .prepare options context => [(registry.prepare options context).2]
  | .inspect templates context => [(registry.inspect templates context).2.2]
  | .run templates context options =>
    let run := registry.run templates context options
    [run.preparation, run.inspection]

/-- What the detector of a number is asked to do in some phases. -/
def callsIn (i : Nat) (accounts : List Account) : List Happening :=
  accounts.flatMap fun account => callsOf (account[i]?.getD [])

/-- What the detector of a number is asked to do by some calls. -/
def history (i : Nat) : Registry μ → List (Call μ) → List Happening
  | _, [] => []
  | registry, call :: calls =>
    callsIn i (registry.accounts call) ++ history i (registry.perform call) calls

/-- A registry after a phase, and what happened in it. Only detectors that were registered
before the phase take part in it. -/
def enter (registry : Registry μ) : Phase μ → Registry μ × Account
  | .register detector memory =>
    (registry.register detector memory, registry.slots.map fun _ => [])
  | .restart => (registry.restart, registry.slots.map fun _ => [])
  | .prepare options context => registry.prepare options context
  | .inspect templates context =>
    ((registry.inspect templates context).1, (registry.inspect templates context).2.2)

/-- A registry after some phases. -/
def enterAll (registry : Registry μ) (phases : List (Phase μ)) : Registry μ :=
  phases.foldl (fun registry phase => (registry.enter phase).1) registry

/-- A call of the registry is the phases it consists of, entered one after the other. -/
theorem perform_eq_enterAll (registry : Registry μ) (call : Call μ) :
    registry.perform call = registry.enterAll call.phases := by
  cases call <;> rfl

theorem foldl_perform_eq_enterAll (registry : Registry μ) (calls : List (Call μ)) :
    calls.foldl perform registry = registry.enterAll (calls.flatMap Call.phases) := by
  induction calls generalizing registry with
  | nil => rfl
  | cons call calls ih =>
    rw [List.foldl_cons, ih, perform_eq_enterAll, List.flatMap_cons, enterAll, enterAll,
      enterAll, List.foldl_append]

end Registry

/-! ## All detectors of a registry -/

namespace Registry

variable {registry : Registry μ} {i : Nat} {s : Slot μ}

/-- What a phase is for the detector of a number. -/
def episode? (registry : Registry μ) (i : Nat) (phase : Phase μ) : Option (Episode μ) := do
  let before ← registry.slots[i]?
  let after ← (registry.enter phase).1.slots[i]?
  let happenings ← (registry.enter phase).2[i]?
  return ⟨phase, before, after, happenings⟩

/-- The episodes of the detector of a number, from its registration on. -/
def episodes (i : Nat) : Registry μ → List (Phase μ) → List (Episode μ)
  | _, [] => []
  | registry, phase :: phases =>
    (registry.episode? i phase).toList ++ episodes i (registry.enter phase).1 phases

/-- A phase takes every slot one step further and adds the newcomers behind them. -/
theorem enter_slots (registry : Registry μ) (phase : Phase μ) :
    (registry.enter phase).1.slots =
      (registry.slots.map fun s => (s.enter phase).1) ++ phase.newcomers := by
  cases phase <;>
    simp [enter, Slot.enter, Phase.newcomers, register, restart, prepare, inspect]

/-- Its account has one entry for each slot that was there before. -/
theorem enter_account (registry : Registry μ) (phase : Phase μ) :
    (registry.enter phase).2 = registry.slots.map fun s => (s.enter phase).2 := by
  cases phase <;> simp [enter, Slot.enter, prepare, inspect]

/-- A slot keeps its place in the registry. -/
theorem enter_slots_of_slot (here : registry.slots[i]? = some s) (phase : Phase μ) :
    (registry.enter phase).1.slots[i]? = some (s.enter phase).1 := by
  obtain ⟨bound, _⟩ := List.getElem?_eq_some_iff.mp here
  rw [enter_slots, List.getElem?_append_left (by simpa using bound), List.getElem?_map, here]
  rfl

/-- A registry deals with each detector by itself. -/
theorem episode?_eq (registry : Registry μ) (i : Nat) (phase : Phase μ) :
    registry.episode? i phase = registry.slots[i]?.map (·.episode phase) := by
  cases here : registry.slots[i]? with
  | none =>
    rw [episode?, here]
    rfl
  | some s =>
    rw [episode?, enter_account, List.getElem?_map, here, enter_slots_of_slot here]
    rfl

/-- The episodes at a place are those of the slot that stands there. -/
theorem episodes_of_slot (here : registry.slots[i]? = some s) (phases : List (Phase μ)) :
    registry.episodes i phases = s.episodes phases := by
  induction phases generalizing registry s with
  | nil => rfl
  | cons phase phases ih =>
    rw [episodes, ih (enter_slots_of_slot here phase), episode?_eq, here]
    rfl

/-- At a place without a slot nothing happens until there is one. -/
theorem episodes_of_none (absent : registry.slots[i]? = none) (phase : Phase μ)
    (phases : List (Phase μ)) :
    registry.episodes i (phase :: phases) = (registry.enter phase).1.episodes i phases := by
  rw [episodes, episode?_eq, absent]
  rfl

/-- The episodes of two runs in a row are those of the first and then those of the second. -/
theorem episodes_append (registry : Registry μ) (i : Nat) (first second : List (Phase μ)) :
    registry.episodes i (first ++ second) =
      registry.episodes i first ++ (registry.enterAll first).episodes i second := by
  induction first generalizing registry with
  | nil => rfl
  | cons phase first ih =>
    rw [List.cons_append, episodes, ih, episodes, List.append_assoc]
    rfl

/-- The calls of an episode are those that the phase accounts for. -/
theorem calls_episode? (registry : Registry μ) (i : Nat) (phase : Phase μ) :
    (registry.episode? i phase).toList.flatMap (·.calls) =
      callsOf ((registry.enter phase).2[i]?.getD []) := by
  rw [episode?_eq, enter_account, List.getElem?_map]
  cases registry.slots[i]? with
  | none => rfl
  | some s => exact List.append_nil _

/-- The calls that a detector got during a call of the registry are those of its episodes. -/
theorem callsIn_accounts (registry : Registry μ) (i : Nat) (call : Call μ) :
    callsIn i (registry.accounts call) =
      (registry.episodes i call.phases).flatMap (·.calls) := by
  -- Nothing is asked in the phases that a call does not account for.
  have silent (r : Registry μ) (phase : Phase μ) (none : (r.enter phase).2 =
      r.slots.map fun _ => []) : (r.episode? i phase).toList.flatMap (·.calls) = [] := by
    rw [calls_episode?, none, List.getElem?_map]
    cases r.slots[i]? <;> rfl
  cases call with
  | register detector memory =>
    simp [callsIn, accounts, Call.phases, episodes, silent registry (.register detector memory) rfl]
  | prepare options context =>
    simp only [callsIn, accounts, Call.phases, episodes, List.flatMap_append, calls_episode?]
    rfl
  | inspect templates context =>
    simp only [callsIn, accounts, Call.phases, episodes, List.flatMap_append, calls_episode?]
    rfl
  | run templates context options =>
    rw [Call.phases, episodes, List.flatMap_append, silent registry .restart rfl]
    simp only [callsIn, accounts, episodes, List.flatMap_append, calls_episode?]
    rfl

theorem history_eq (registry : Registry μ) (i : Nat) (calls : List (Call μ)) :
    registry.history i calls =
      (registry.episodes i (calls.flatMap Call.phases)).flatMap (·.calls) := by
  induction calls generalizing registry with
  | nil => rfl
  | cons call calls ih =>
    rw [history, ih, callsIn_accounts, List.flatMap_cons, episodes_append, List.flatMap_append,
      perform_eq_enterAll]

/-- Phases only ever add detectors from their start. -/
theorem isLifeCycle_episodes (fresh : ∀ s ∈ registry.slots[i]?, s.state = .unstarted)
    (phases : List (Phase μ)) : IsLifeCycle (registry.episodes i phases) := by
  induction phases generalizing registry with
  | nil => exact isLifeCycle_nil
  | cons phase phases ih =>
    cases here : registry.slots[i]? with
    | some s =>
      rw [episodes_of_slot here]
      exact s.isLifeCycle_episodes (fresh s here) _
    | none =>
      rw [episodes_of_none here]
      refine ih fun s found => ?_
      -- What is at this place after the phase was not there before, so the phase has added it.
      have outside : (registry.slots.map fun s => (s.enter phase).1).length ≤ i := by
        rw [List.length_map]
        exact List.getElem?_eq_none_iff.mp here
      rw [enter_slots, List.getElem?_append_right outside] at found
      have added := List.mem_of_getElem? found
      cases phase with
      | register =>
        obtain rfl := List.mem_singleton.mp added
        rfl
      | restart | prepare | inspect => cases added

/-! ## The registered detectors -/

/-- A phase keeps the detectors and adds those of the newcomers. -/
theorem enter_detectors (registry : Registry μ) (phase : Phase μ) :
    (registry.enter phase).1.detectors =
      registry.detectors ++ phase.newcomers.map (·.detector) := by
  have kept : ∀ s : Slot μ, (s.enter phase).1.detector = s.detector :=
    fun s => (s.makes_enter phase).detector_eq
  simp [detectors, enter_slots, kept]

/-- A call adds a detector only if it registers one. -/
theorem perform_detectors (registry : Registry μ) (call : Call μ) :
    (registry.perform call).detectors = registry.detectors ++ call.newcomer?.toList := by
  rw [perform_eq_enterAll]
  cases call <;>
    simp [Call.phases, enterAll, enter_detectors, Phase.newcomers, Call.newcomer?]

/-- After any calls the detectors are those of the start and those that were registered, in order.
-/
theorem foldl_perform_detectors (registry : Registry μ) (calls : List (Call μ)) :
    (calls.foldl perform registry).detectors =
      registry.detectors ++ calls.filterMap Call.newcomer? := by
  induction calls generalizing registry with
  | nil => simp
  | cons call calls ih =>
    rw [List.foldl_cons, ih, perform_detectors]
    cases newcomer : call.newcomer? <;> simp [newcomer]

/-- **The life cycle of detectors under any calls.** Whatever was called, in whatever order, a
registry holds the detectors that were registered, each with one state. The calls come to
phases. What these phases were for a detector, from its registration on, is a life cycle, and
they hold everything that the calls asked of it. -/
theorem calls_obey_lifeCycle (calls : List (Call μ)) :
    let registry := calls.foldl perform empty
    registry.detectors = calls.filterMap Call.newcomer? ∧
      registry.states.map (·.1) = registry.detectors.map (·.id) ∧
      registry.states.length = registry.size ∧
      registry = empty.enterAll (calls.flatMap Call.phases) ∧
      ∀ i, IsLifeCycle (empty.episodes i (calls.flatMap Call.phases)) ∧
        empty.history i calls =
          (empty.episodes i (calls.flatMap Call.phases)).flatMap (·.calls) := by
  refine ⟨foldl_perform_detectors empty calls, ?_, List.length_map _,
    foldl_perform_eq_enterAll empty calls, fun i => ⟨?_, history_eq empty i calls⟩⟩
  · simp [states, detectors]
  · refine isLifeCycle_episodes ?_ _
    rintro s ⟨⟩

end Registry

end HclLint.Lint
