/-
# Exchanging and joining steps of the merge

What a step of the merge does is settled by the resources of its own key, so steps of different
keys may change places where one of them overrides. A step that overrides what the step before it
has overridden or added is joined with it: one step with the overridden resource does the same.
From the first step of a key on, all later ones can therefore be moved ahead to it and joined with
it, whatever steps of other keys stand between them.

## Main definitions

* `Template.overriding`, `Template.adding`: what a step does to the template that it changes.

## Main statements

* `applyStep_overrideIn`: steps of different keys change places.
* `foldl_overrideIn_applyStep`: steps of one key are joined.
* `foldl_applyStep_of_isDeclared`: all steps of a declared key are moved ahead.
-/

import HclLint.Proofs.Merge.Action
import HclLint.Proofs.Merge.Placement

namespace HclLint.Model

/-! ## Changing first members one after the other -/

section UpdateFirst

variable {α : Type} {test test' : α → Bool} {change change' : α → α} {as bs : List α}

/-- Where nothing passes the test, nothing is changed. -/
theorem updateFirst_eq_self (fails : ∀ a ∈ as, test a = false) :
    updateFirst test change as = as := by
  induction as with
  | nil => rfl
  | cons a as ih =>
    obtain ⟨here, there⟩ := List.forall_mem_cons.mp fails
    simp [updateFirst, here, ih there]

/-- Members behind that fail the test are left alone. -/
theorem updateFirst_append_left (fails : ∀ b ∈ bs, test b = false) :
    updateFirst test change (as ++ bs) = updateFirst test change as ++ bs := by
  induction as with
  | nil => exact updateFirst_eq_self fails
  | cons a as ih =>
    by_cases found : test a
    · simp [updateFirst, found]
    · simp [updateFirst, found, ih]

/-- Members ahead that fail the test are left alone. -/
theorem updateFirst_append_right (fails : ∀ a ∈ as, test a = false) :
    updateFirst test change (as ++ bs) = as ++ updateFirst test change bs := by
  induction as with
  | nil => rfl
  | cons a as ih =>
    obtain ⟨here, there⟩ := List.forall_mem_cons.mp fails
    simp [updateFirst, here, ih there]

/-- Only the changes of members that satisfy the test matter. -/
theorem updateFirst_congr (same : ∀ a ∈ as, test a = true → change a = change' a) :
    updateFirst test change as = updateFirst test change' as := by
  induction as with
  | nil => rfl
  | cons a as ih =>
    obtain ⟨here, there⟩ := List.forall_mem_cons.mp same
    by_cases found : test a = true
    · simp [updateFirst, found, here found]
    · simp [updateFirst, found, ih there]

/-- A change that keeps the test is followed by another one in the same place. -/
theorem updateFirst_updateFirst (kept : ∀ a, test a = true → test (change a) = true) :
    updateFirst test change' (updateFirst test change as) =
      updateFirst test (fun a => change' (change a)) as := by
  induction as with
  | nil => rfl
  | cons a as ih =>
    by_cases found : test a = true
    · simp [updateFirst, found, kept a found]
    · simp [updateFirst, found, ih]

/-- Where nothing passes the test before a change that makes the changed member pass it, the
changed member is the first one that does. -/
theorem updateFirst_updateFirst_of_new (fails : ∀ a ∈ as, test a = false)
    (made : ∀ a, test' a = true → test (change a) = true) :
    updateFirst test change' (updateFirst test' change as) =
      updateFirst test' (fun a => change' (change a)) as := by
  induction as with
  | nil => rfl
  | cons a as ih =>
    obtain ⟨here, there⟩ := List.forall_mem_cons.mp fails
    by_cases found : test' a = true
    · simp [updateFirst, found, made a found]
    · simp [updateFirst, found, here, ih there]

/-- Changes that neither test sees are exchanged if they are for a member that satisfies both. -/
theorem updateFirst_comm (kept : ∀ a, test (change' a) = test a)
    (kept' : ∀ a, test' (change a) = test' a)
    (commute : ∀ a, test a = true → test' a = true → change (change' a) = change' (change a)) :
    updateFirst test change (updateFirst test' change' as) =
      updateFirst test' change' (updateFirst test change as) := by
  induction as with
  | nil => rfl
  | cons a as ih =>
    by_cases first : test a = true
    · by_cases second : test' a = true
      · simp [updateFirst, first, second, kept, kept', commute a first second]
      · simp [updateFirst, first, second, kept']
    · by_cases second : test' a = true
      · simp [updateFirst, first, second, kept]
      · simp [updateFirst, first, second, ih]

end UpdateFirst

/-! ## One template -/

variable {templates : List Template} {t : Template} {r s a b : Resource} {key : ResourceKey}
  {name : String} {step : Overrides × Resource} {steps : List (Overrides × Resource)}

namespace Template

/-- Whether the template holds a resource with a key. -/
def declares (t : Template) (key : ResourceKey) : Bool := t.resources.any (·.key == key)

/-- The template with its first resource of a key overridden. -/
def overriding (t : Template) (r : Resource) : Template :=
  { t with resources := updateFirst (·.key == r.key) (·.overriddenBy r) t.resources }

/-- The template with one more resource. -/
def adding (t : Template) (r : Resource) : Template := { t with resources := t.resources ++ [r] }

@[simp]
theorem declares_overriding (t : Template) (r : Resource) (key : ResourceKey) :
    (t.overriding r).declares key = t.declares key := by
  have kept : ∀ x : Resource, (x.overriddenBy r).key = x.key := fun _ => rfl
  have keys : (t.overriding r).resources.map (·.key) = t.resources.map (·.key) :=
    map_updateFirst kept t.resources
  have any_keys : ∀ t : Template, t.declares key = (t.resources.map (·.key)).any (· == key) := by
    intro t
    rw [List.any_map]
    rfl
  rw [any_keys, keys, any_keys]

@[simp]
theorem declares_adding (t : Template) (r : Resource) (key : ResourceKey) :
    (t.adding r).declares key = (t.declares key || r.key == key) := by
  simp [declares, adding]

/-- Overriding by resources of different keys is done in either order. -/
theorem overriding_comm (different : s.key ≠ r.key) (t : Template) :
    (t.overriding s).overriding r = (t.overriding r).overriding s := by
  refine congrArg (fun resources => { t with resources }) ?_
  apply updateFirst_comm
  · exact fun _ => rfl
  · exact fun _ => rfl
  · -- No resource has both keys.
    intro x isR isS
    exact absurd ((beq_iff_eq.mp isS).symm.trans (beq_iff_eq.mp isR)) different

/-- Neither does it matter whether a resource of another key was added before. -/
theorem overriding_adding_of_ne (different : s.key ≠ r.key) (t : Template) :
    (t.adding s).overriding r = (t.overriding r).adding s := by
  refine congrArg (fun resources => { t with resources }) ?_
  apply updateFirst_append_left
  simpa using different

/-- Overriding twice by resources of a key is overriding by what they make together. -/
theorem overriding_overriding (same : b.key = a.key) (distinct : a.attributes.keys.Nodup)
    (t : Template) : (t.overriding a).overriding b = t.overriding (a.overriddenBy b) := by
  refine congrArg (fun resources => { t with resources }) ?_
  rw [same]
  calc updateFirst (·.key == a.key) (·.overriddenBy b)
        (updateFirst (·.key == a.key) (·.overriddenBy a) t.resources)
      = updateFirst (·.key == a.key) (fun x => (x.overriddenBy a).overriddenBy b) t.resources :=
        updateFirst_updateFirst fun _ found => found
    _ = updateFirst (·.key == a.key) (·.overriddenBy (a.overriddenBy b)) t.resources :=
        updateFirst_congr fun x _ _ => Resource.overriddenBy_assoc distinct x b

/-- A resource that is added and then overridden is added as overridden. -/
theorem adding_overriding (same : b.key = a.key) (new : t.declares a.key = false) :
    (t.adding a).overriding b = t.adding (a.overriddenBy b) := by
  have fails : ∀ x ∈ t.resources, (x.key == a.key) = false := by simpa [declares] using new
  refine congrArg (fun resources => { t with resources }) ?_
  calc updateFirst (·.key == b.key) (·.overriddenBy b) (t.resources ++ [a])
      = t.resources ++ updateFirst (·.key == a.key) (·.overriddenBy b) [a] := by
        rw [same, updateFirst_append_right fails]
    _ = t.resources ++ [a.overriddenBy b] := by simp [updateFirst]

end Template

/-! ## All templates -/

theorem overrideIn_eq (templates : List Template) (r : Resource) :
    overrideIn templates r = updateFirst (·.declares r.key) (·.overriding r) templates := rfl

theorem addTo_eq (templates : List Template) (name : String) (r : Resource) :
    addTo templates name r =
      if templates.any (·.file == name) then updateFirst (·.file == name) (·.adding r) templates
      else templates ++ [Template.adding ⟨name, []⟩ r] := rfl

theorem isDeclared_eq_false_iff :
    isDeclared templates key = false ↔ ∀ t ∈ templates, t.declares key = false := by
  simp [isDeclared, Template.declares]

/-- Overriding keeps the files. -/
theorem any_file_overrideIn (templates : List Template) (r : Resource) (name : String) :
    (overrideIn templates r).any (·.file == name) = templates.any (·.file == name) := by
  have any_files : ∀ templates : List Template,
      templates.any (·.file == name) = (templates.map (·.file)).any (· == name) := by
    intro templates
    rw [List.any_map]
    rfl
  rw [any_files, files_overrideIn, any_files]

theorem isDeclared_overrideIn (templates : List Template) (r : Resource) (key : ResourceKey) :
    isDeclared (overrideIn templates r) key = isDeclared templates key := by
  have any_declared : ∀ templates : List Template,
      isDeclared templates key = (templates.map (·.declares key)).any id := by
    intro templates
    rw [List.any_map]
    rfl
  rw [any_declared, overrideIn_eq, map_updateFirst fun t => t.declares_overriding r key,
    any_declared]

theorem homeOf_overrideIn (templates : List Template) (r : Resource) (home : Option String)
    (file : String) : homeOf (overrideIn templates r) home file = homeOf templates home file := by
  cases home with
  | none => rfl
  | some name => rw [homeOf, any_file_overrideIn, homeOf]

/-- In a set of templates too, resources of different keys override in either order. -/
theorem overrideIn_comm (different : s.key ≠ r.key) (templates : List Template) :
    overrideIn (overrideIn templates s) r = overrideIn (overrideIn templates r) s := by
  rw [overrideIn_eq, overrideIn_eq, overrideIn_eq, overrideIn_eq]
  apply updateFirst_comm
  · exact fun t => t.declares_overriding s r.key
  · exact fun t => t.declares_overriding r s.key
  · exact fun t _ _ => t.overriding_comm different

/-- Adding and overriding under different keys may be exchanged. -/
theorem addTo_overrideIn (different : s.key ≠ r.key) (templates : List Template) (name : String) :
    addTo (overrideIn templates r) name s = overrideIn (addTo templates name s) r := by
  rw [addTo_eq, addTo_eq, any_file_overrideIn, overrideIn_eq, overrideIn_eq]
  by_cases present : templates.any (·.file == name) = true
  · rw [if_pos present, if_pos present]
    apply updateFirst_comm
    · exact fun _ => rfl
    · intro t
      rw [Template.declares_adding, beq_false_of_ne different, Bool.or_false]
    · exact fun t _ _ => (t.overriding_adding_of_ne different).symm
  -- The template that is made for the added resource holds nothing else.
  · have other : ∀ t ∈ [Template.adding ⟨name, []⟩ s], t.declares r.key = false := by
      simpa [Template.declares, Template.adding] using different
    rw [if_neg present, if_neg present, updateFirst_append_left other]

/-- Two steps of one key are one step. -/
theorem overrideIn_overrideIn (same : b.key = a.key) (distinct : a.attributes.keys.Nodup)
    (templates : List Template) :
    overrideIn (overrideIn templates a) b = overrideIn templates (a.overriddenBy b) := by
  rw [overrideIn_eq, overrideIn_eq, overrideIn_eq, same, Resource.overriddenBy_key]
  calc updateFirst (·.declares a.key) (·.overriding b)
        (updateFirst (·.declares a.key) (·.overriding a) templates)
      = updateFirst (·.declares a.key) (fun t => (t.overriding a).overriding b) templates :=
        updateFirst_updateFirst fun t found => (t.declares_overriding a a.key).trans found
    _ = updateFirst (·.declares a.key) (·.overriding (a.overriddenBy b)) templates :=
        updateFirst_congr fun t _ _ => t.overriding_overriding same distinct

theorem overrideIn_addTo (same : b.key = a.key) (new : isDeclared templates a.key = false)
    (name : String) :
    overrideIn (addTo templates name a) b = addTo templates name (a.overriddenBy b) := by
  have nowhere := isDeclared_eq_false_iff.mp new
  rw [addTo_eq, addTo_eq, overrideIn_eq, same]
  by_cases present : templates.any (·.file == name) = true
  · rw [if_pos present, if_pos present]
    calc updateFirst (·.declares a.key) (·.overriding b)
          (updateFirst (·.file == name) (·.adding a) templates)
        = updateFirst (·.file == name) (fun t => (t.adding a).overriding b) templates :=
          updateFirst_updateFirst_of_new nowhere fun t _ => by simp
      _ = updateFirst (·.file == name) (·.adding (a.overriddenBy b)) templates :=
          updateFirst_congr fun t member _ => Template.adding_overriding same (nowhere t member)
  · have made : Template.declares ⟨name, []⟩ a.key = false := rfl
    rw [if_neg present, if_neg present, updateFirst_append_right nowhere, updateFirst,
      if_pos (by simp), Template.adding_overriding same made]

/-! ## Steps of the merge -/

/-- **Steps of different keys change places** where one of them overrides. -/
theorem applyStep_overrideIn (different : step.2.key ≠ r.key) (templates : List Template) :
    applyStep (overrideIn templates r) step = overrideIn (applyStep templates step) r := by
  unfold applyStep applyOverride
  rw [isDeclared_overrideIn, homeOf_overrideIn]
  split
  · exact overrideIn_comm different.symm templates
  · exact addTo_overrideIn different templates _

/-- What a step has overridden or added is overridden within the step. -/
theorem overrideIn_applyStep (same : b.key = a.key) (distinct : a.attributes.keys.Nodup)
    (templates : List Template) (o : Overrides) :
    overrideIn (applyStep templates (o, a)) b = applyStep templates (o, a.overriddenBy b) := by
  unfold applyStep applyOverride
  rw [Resource.overriddenBy_key]
  by_cases declared : isDeclared templates a.key = true
  · rw [if_pos declared, if_pos declared]
    exact overrideIn_overrideIn same distinct templates
  · rw [if_neg declared, if_neg declared]
    exact overrideIn_addTo same (Bool.eq_false_iff.mpr declared) _

/-- **Steps of one key are joined** with the first of them. -/
theorem foldl_overrideIn_applyStep {later : List Resource} (same : ∀ b ∈ later, b.key = a.key)
    (distinct : a.attributes.keys.Nodup) (templates : List Template) (o : Overrides) :
    later.foldl overrideIn (applyStep templates (o, a)) =
      applyStep templates (o, a.overriddenByAll later) := by
  induction later generalizing a with
  | nil => rfl
  | cons b later ih =>
    obtain ⟨here, there⟩ := List.forall_mem_cons.mp same
    have onward := @ih (a.overriddenBy b) there (Resource.nodup_names_overriddenBy distinct b)
    rw [List.foldl_cons, overrideIn_applyStep here distinct, Resource.overriddenByAll_cons, onward]

/-- A step of another key may come before or after a run of overriding resources. -/
theorem applyStep_foldl_overrideIn {later : List Resource}
    (different : ∀ b ∈ later, step.2.key ≠ b.key) (templates : List Template) :
    applyStep (later.foldl overrideIn templates) step =
      later.foldl overrideIn (applyStep templates step) := by
  induction later generalizing templates with
  | nil => rfl
  | cons b later ih =>
    obtain ⟨here, there⟩ := List.forall_mem_cons.mp different
    rw [List.foldl_cons, List.foldl_cons, ih there, applyStep_overrideIn here]

/-- A run of steps of other keys may come before or after a run of overriding resources. -/
theorem foldl_applyStep_foldl_overrideIn {later : List Resource}
    (different : ∀ step ∈ steps, ∀ b ∈ later, step.2.key ≠ b.key) (templates : List Template) :
    steps.foldl applyStep (later.foldl overrideIn templates) =
      later.foldl overrideIn (steps.foldl applyStep templates) := by
  induction steps generalizing templates with
  | nil => rfl
  | cons step steps ih =>
    obtain ⟨here, there⟩ := List.forall_mem_cons.mp different
    rw [List.foldl_cons, List.foldl_cons, applyStep_foldl_overrideIn here, ih there]

/-- A key is declared after some steps if it was before them or if one of them brings it. -/
theorem isDeclared_foldl_applyStep
    (brought : isDeclared templates key = true ∨ ∃ step ∈ steps, step.2.key = key) :
    isDeclared (steps.foldl applyStep templates) key = true := by
  induction steps generalizing templates with
  | nil => simpa using brought
  | cons step steps ih =>
    apply ih
    rw [isDeclared_applyStep]
    rcases brought with before | ⟨other, member, same⟩
    · exact .inl (.inr before)
    · rcases List.mem_cons.mp member with rfl | member
      · exact .inl (.inl same.symm)
      · exact .inr ⟨other, member, same⟩

/-- **All steps of a declared key are moved ahead** of the steps of other keys. -/
theorem foldl_applyStep_of_isDeclared (declared : isDeclared templates key = true) :
    steps.foldl applyStep templates =
      (steps.filter (·.2.key != key)).foldl applyStep
        ((overridersOf steps key).foldl overrideIn templates) := by
  induction steps generalizing templates with
  | nil => rfl
  | cons step steps ih =>
    have still : isDeclared (applyStep templates step) key = true :=
      (isDeclared_applyStep templates step key).mpr (.inr declared)
    rw [List.foldl_cons, ih still, overridersOf_cons]
    by_cases same : step.2.key = key
    · -- The step overrides, as the first of those that are moved ahead.
      subst same
      have overrides : applyStep templates step = overrideIn templates step.2 := if_pos declared
      rw [if_pos rfl, List.foldl_cons, List.filter_cons_of_neg (by simp), overrides]
    · -- The steps that are moved ahead pass this one.
      have different : ∀ b ∈ overridersOf steps key, step.2.key ≠ b.key := by
        intro b member again
        exact same (again.trans (beq_iff_eq.mp (List.mem_filter.mp member).2))
      rw [if_neg same, List.filter_cons_of_pos (by simpa using same), List.foldl_cons,
        applyStep_foldl_overrideIn different]

end HclLint.Model
