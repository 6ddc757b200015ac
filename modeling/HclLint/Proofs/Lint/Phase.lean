/-
# What a phase does to a detector

In the first phase a detector that has not started is skipped, or is prepared once, with success
or without. In the second phase a prepared detector inspects each resource of its type once, in
order. Apart from this a phase leaves a detector as it is and asks it nothing.

## Main definitions

* `Happening.isCall`: what a detector is asked to do, as opposed to what it notes.
* `Slot.Prepares`: what the first phase can do to a detector.

## Main statements

* `prepares_prepare`: the first phase does nothing else.
* `inspect_of_prepared`, `inspect_of_ne`: what the second phase does.
-/

import HclLint.Lint.Registry

namespace HclLint.Lint

open HclLint.Model HclLint.Cloud

variable {μ : Type}

/-- Whether a happening is something that the detector was asked to do, and not a note. -/
def Happening.isCall : Happening → Bool
  | .preparation => true
  | .visit _ => true
  | .note _ => false

/-- The calls among some happenings. -/
def callsOf (happenings : List Happening) : List Happening := happenings.filter Happening.isCall

namespace Slot

/-- Whether a detector is passed over on account of its identity or of the kind of its checks. -/
def IsPassedOver (options : RunOptions) (s : Slot μ) : Prop :=
  s.detector.id ∈ options.ignored ∨ s.detector.isDeep = true ∧ options.deepCheck = false

instance (options : RunOptions) (s : Slot μ) : Decidable (s.IsPassedOver options) :=
  inferInstanceAs (Decidable (_ ∨ _))

/-- What the first phase can do to a detector: the detector after it, and the calls. -/
inductive Prepares (options : RunOptions) (context : Context) (s : Slot μ) :
    Slot μ → List Happening → Prop where
  /-- A detector that has started is left alone. -/
  | idle (started : s.state ≠ .unstarted) : Prepares options context s s []
  | ignored (fresh : s.state = .unstarted) (listed : s.detector.id ∈ options.ignored) :
      Prepares options context s { s with state := .ignored } []
  | needsDeepCheck (fresh : s.state = .unstarted) (wanted : s.detector.id ∉ options.ignored)
      (deep : s.detector.isDeep = true) (shallow : options.deepCheck = false) :
      Prepares options context s { s with state := .needsDeepCheck } []
  | prepared (fresh : s.state = .unstarted) (wanted : ¬ s.IsPassedOver options) {memory : μ}
      (result : s.detector.prepare context s.memory = (.ok ⟨⟩, memory)) :
      Prepares options context s { s with state := .prepared, memory } [.preparation]
  | failed (fresh : s.state = .unstarted) (wanted : ¬ s.IsPassedOver options) {memory : μ}
      {error : CloudError} (result : s.detector.prepare context s.memory = (.error error, memory)) :
      Prepares options context s { s with state := .failed error.message, memory }
        [.preparation]

/-- Preparing a slot is the step that the specification of the phase allows. -/
theorem prepares_prepare (options : RunOptions) (context : Context) (s : Slot μ) :
    Prepares options context s (s.prepare options context).1
      (callsOf (s.prepare options context).2) := by
  unfold prepare
  split
  · next started => exact .idle started
  · next fresh =>
    have fresh : s.state = .unstarted := Decidable.not_not.mp fresh
    split
    · next listed => exact .ignored fresh listed
    · next wanted =>
      split
      · next deep =>
        obtain ⟨deep, shallow⟩ := Bool.and_eq_true_iff.mp deep
        exact .needsDeepCheck fresh wanted deep (by simpa using shallow)
      · next checkable =>
        have wanted : ¬ s.IsPassedOver options := by
          rintro (listed | ⟨deep, shallow⟩)
          · exact wanted listed
          · exact checkable (by simp [deep, shallow])
        -- The preparation succeeds or fails, and is recorded in either case.
        split
        · next result => exact .prepared fresh wanted result
        · next result => exact .failed fresh wanted result

/-! ## The second phase -/

variable {templates : List Template} {context : Context} {s : Slot μ}

/-- A visit calls the detector once, with the resource. -/
theorem callsOf_visit (context : Context) (s : Slot μ) (r : Resource) :
    callsOf (s.visit context r) = [.visit r] := by
  refine congrArg (Happening.visit r :: ·) (List.filter_eq_nil_iff.mpr fun happening member => ?_)
  obtain ⟨remark, _, noted⟩ := List.mem_filterMap.mp member
  cases remark with
  | finding => cases noted
  | note entry =>
    obtain rfl := Option.some.inj noted
    exact Bool.false_ne_true

/-- Visits call the detector once for each resource, in order. -/
theorem callsOf_flatMap_visit (context : Context) (s : Slot μ) (resources : List Resource) :
    callsOf (resources.flatMap (s.visit context)) = resources.map .visit := by
  induction resources with
  | nil => rfl
  | cons r resources ih =>
    rw [List.flatMap_cons, callsOf, List.filter_append, ← callsOf, ← callsOf, callsOf_visit, ih,
      List.map_cons, List.singleton_append]

/-- A slot that is not prepared is passed over by the inspection. -/
theorem inspect_of_ne (other : s.state ≠ .prepared) : s.inspect templates context = (s, [], []) :=
  if_pos other

/-- A slot that is prepared visits the resources of its kind and is done. -/
theorem inspect_of_prepared (ready : s.state = .prepared) :
    s.inspect templates context =
      ({ s with state := .done },
        (s.visited templates).flatMap fun r => s.detector.issuesOf (s.remarks context r),
        (s.visited templates).flatMap (s.visit context)) :=
  if_neg (not_not_intro ready)

end Slot

end HclLint.Lint
