/-
# Where a key is held

The resources with one key, over all templates and in their order, each with the file of its
template. An overriding resource changes this list in one way only: it overrides the first
member, or becomes the only one where there was none. So a whole run of overriding resources
overrides the first member again and again and never touches the others.

## Main statements

* `holders_applyStep`: what one overriding resource does to the holders of its key.
* `holders_foldl_of_cons`, `holders_foldl_of_nil`: what a run of them does.
* `nodup_files_foldl`: no two templates are of one file at any time.
-/

import HclLint.Model.Configuration
import HclLint.Proofs.Merge.Overriding

namespace HclLint.Model

open HclLint.Text

/-! ## Changing the first member of a list -/

section UpdateFirst

variable {α : Type} {test other : α → Bool} {change : α → α}

/-- Among the members that satisfy the test, the first one is changed. -/
theorem filter_updateFirst (kept : ∀ a, test (change a) = test a) (as : List α) :
    (updateFirst test change as).filter test = (as.filter test).modifyHead change := by
  induction as with
  | nil => rfl
  | cons a as ih =>
    by_cases found : test a
    · simp [updateFirst, found, kept]
    · simp [updateFirst, found, ih]

/-- Members that a second test is about are not changed if none of them satisfies the first. -/
theorem filter_updateFirst_of_disjoint (before : ∀ a, test a → other a = false)
    (after : ∀ a, test a → other (change a) = false) (as : List α) :
    (updateFirst test change as).filter other = as.filter other := by
  induction as with
  | nil => rfl
  | cons a as ih =>
    by_cases found : test a
    · simp [updateFirst, found, before a found, after a found]
    · simp [updateFirst, found, List.filter_cons, ih]

theorem map_updateFirst {β : Type} {f : α → β} (kept : ∀ a, f (change a) = f a) (as : List α) :
    (updateFirst test change as).map f = as.map f := by
  induction as with
  | nil => rfl
  | cons a as ih =>
    by_cases found : test a
    · simp [updateFirst, found, kept]
    · simp [updateFirst, found, ih]

end UpdateFirst

/-! ## The holders of a key -/

/-- The resources of a template with a key, each with the template's file. -/
def Template.holding (t : Template) (key : ResourceKey) : List (String × Resource) :=
  (t.resources.filter (·.key == key)).map (t.file, ·)

/-- The resources with a key over all templates, each with the file of its template. -/
def holders (templates : List Template) (key : ResourceKey) : List (String × Resource) :=
  templates.flatMap (·.holding key)

/-- A holder overridden by a resource. It stays in its template. -/
def overrideHolder (r : Resource) (holder : String × Resource) : String × Resource :=
  (holder.1, holder.2.overriddenBy r)

variable {templates : List Template} {t : Template} {r : Resource} {key : ResourceKey}
  {home : Option String} {file name : String}

@[simp]
theorem holders_nil (key : ResourceKey) : holders [] key = [] := rfl

@[simp]
theorem holders_cons (t : Template) (templates : List Template) (key : ResourceKey) :
    holders (t :: templates) key = t.holding key ++ holders templates key := rfl

/-- The holders in two runs of templates are those in the first and then those in the second. -/
@[simp]
theorem holders_append (first second : List Template) (key : ResourceKey) :
    holders (first ++ second) key = holders first key ++ holders second key :=
  List.flatMap_append

/-- A template holds nothing under a key exactly if none of its resources has it. -/
theorem holding_eq_nil_iff : t.holding key = [] ↔ t.resources.any (·.key == key) = false := by
  simp [Template.holding]

/-- There is no holder exactly if no template declares the key. -/
theorem holders_eq_nil_iff : holders templates key = [] ↔ isDeclared templates key = false := by
  simp [holders, isDeclared, Template.holding]

/-- Overriding in a template changes the first of its resources with the key. -/
theorem holding_overridden (t : Template) (r : Resource) :
    Template.holding { t with
      resources := updateFirst (·.key == r.key) (·.overriddenBy r) t.resources } r.key =
      (t.holding r.key).modifyHead (overrideHolder r) := by
  have kept : ∀ x : Resource, ((x.overriddenBy r).key == r.key) = (x.key == r.key) := fun _ => rfl
  unfold Template.holding
  rw [filter_updateFirst kept]
  cases t.resources.filter (·.key == r.key) with
  | nil => rfl
  | cons first rest => rfl

/-- The resources of other keys stay as they were. -/
theorem holding_overridden_of_ne (t : Template) (different : r.key ≠ key) :
    Template.holding { t with
      resources := updateFirst (·.key == r.key) (·.overriddenBy r) t.resources } key =
      t.holding key := by
  have apart : ∀ x : Resource, (x.key == r.key) = true → (x.key == key) = false := by
    intro x same
    simpa [beq_iff_eq.mp same] using different
  have stillApart : ∀ x : Resource, (x.key == r.key) = true →
      ((x.overriddenBy r).key == key) = false := apart
  unfold Template.holding
  rw [filter_updateFirst_of_disjoint apart stillApart]

/-- Overriding in a set of templates changes the first holder of the key. -/
theorem holders_overrideIn (templates : List Template) (r : Resource) :
    holders (overrideIn templates r) r.key =
      (holders templates r.key).modifyHead (overrideHolder r) := by
  induction templates with
  | nil => rfl
  | cons t templates ih =>
    unfold overrideIn at ih ⊢
    rw [updateFirst]
    split
    -- The first template with the key has the first holder; those before it have none.
    · next holds =>
      obtain ⟨first, rest, held⟩ := List.exists_cons_of_ne_nil
        (mt holding_eq_nil_iff.mp (by simpa using holds))
      rw [holders_cons, holding_overridden, holders_cons, held]
      rfl
    · next lacks =>
      have none := holding_eq_nil_iff.mpr (Bool.eq_false_iff.mpr lacks)
      rw [holders_cons, none, ih, holders_cons, none]
      rfl

/-- The holders of other keys stay as they were. -/
theorem holders_overrideIn_of_ne (templates : List Template) (different : r.key ≠ key) :
    holders (overrideIn templates r) key = holders templates key := by
  induction templates with
  | nil => rfl
  | cons t templates ih =>
    unfold overrideIn at ih ⊢
    rw [updateFirst]
    split
    · rw [holders_cons, holding_overridden_of_ne t different, holders_cons]
    · rw [holders_cons, ih, holders_cons]

/-! ## Adding a resource -/

/-- A resource that is added stands behind those of its template. -/
theorem holding_added (t : Template) (r : Resource) (key : ResourceKey) :
    Template.holding { t with resources := t.resources ++ [r] } key =
      t.holding key ++ Template.holding ⟨t.file, [r]⟩ key := by
  simp [Template.holding]

theorem holding_singleton_self (file : String) (r : Resource) :
    Template.holding ⟨file, [r]⟩ r.key = [(file, r)] := by
  simp [Template.holding]

theorem holding_singleton_of_ne (file : String) (different : r.key ≠ key) :
    Template.holding ⟨file, [r]⟩ key = [] := by
  simp [Template.holding, different]

/-- Adding a resource does not touch the holders of other keys. -/
theorem holders_addTo_of_ne (templates : List Template) (name : String)
    (different : r.key ≠ key) : holders (addTo templates name r) key = holders templates key := by
  unfold addTo
  split
  · induction templates with
    | nil => rfl
    | cons t templates ih =>
      rw [updateFirst]
      split
      · rw [holders_cons, holding_added, holding_singleton_of_ne t.file different,
          List.append_nil, holders_cons]
      · next later present => rw [holders_cons, ih (by simp_all), holders_cons]
  · rw [holders_append, holders_cons, holding_singleton_of_ne name different, holders_nil,
      List.append_nil, List.append_nil]

/-- A resource that was not held before is held once afterwards, at the place it was added to. -/
theorem holders_addTo_of_nil (name : String) (new : holders templates r.key = []) :
    holders (addTo templates name r) r.key = [(name, r)] := by
  unfold addTo
  split
  -- The template of that name is there, or one with the resource alone is put behind the others.
  · induction templates with
    | nil => simp at *
    | cons t templates ih =>
      obtain ⟨here, there⟩ := List.append_eq_nil_iff.mp (holders_cons t templates r.key ▸ new)
      rw [updateFirst]
      split
      · next found =>
        rw [holders_cons, holding_added, here, there, holding_singleton_self, beq_iff_eq.mp found]
        rfl
      · next later present => rw [holders_cons, here, ih there (by simp_all), List.nil_append]
  · rw [holders_append, new, holders_cons, holding_singleton_self, holders_nil]
    rfl

/-! ## One step of the merge, and a run of them -/

/-- The templates after one step of the merge: a resource of an override file. -/
def applyStep (templates : List Template) (step : Overrides × Resource) : List Template :=
  applyOverride step.1.home step.1.declarations.file templates step.2

/-- What a step does to the holders of its own key: the first one is overridden, and where
there is none the step's resource becomes the only one. -/
theorem holders_applyStep (templates : List Template) (step : Overrides × Resource) :
    holders (applyStep templates step) step.2.key =
      match holders templates step.2.key with
      | [] => [(homeOf templates step.1.home step.1.declarations.file, step.2)]
      | first :: rest => overrideHolder step.2 first :: rest := by
  unfold applyStep applyOverride
  split
  · next declared =>
    rw [holders_overrideIn]
    cases held : holders templates step.2.key with
    | nil => simp [holders_eq_nil_iff.mp held] at declared
    | cons first rest => rfl
  · next new =>
    have none := holders_eq_nil_iff.mpr (Bool.eq_false_iff.mpr new)
    rw [holders_addTo_of_nil _ none, none]

/-- The holders of every other key are left alone. -/
theorem holders_applyStep_of_ne (templates : List Template) {step : Overrides × Resource}
    (different : step.2.key ≠ key) :
    holders (applyStep templates step) key = holders templates key := by
  unfold applyStep applyOverride
  split
  · exact holders_overrideIn_of_ne templates different
  · exact holders_addTo_of_ne templates _ different

/-- The resources that some steps bring under a key, in their order. -/
def overridersOf (steps : List (Overrides × Resource)) (key : ResourceKey) : List Resource :=
  (steps.map (·.2)).filter (·.key == key)

theorem overridersOf_cons (step : Overrides × Resource) (steps : List (Overrides × Resource))
    (key : ResourceKey) :
    overridersOf (step :: steps) key =
      if step.2.key = key then step.2 :: overridersOf steps key else overridersOf steps key := by
  by_cases same : step.2.key = key
  · simp [overridersOf, same]
  · simp [overridersOf, same]

/-- Where a key has holders, a run of the merge overrides the first of them by every resource
under the key, in order, and leaves the others alone. -/
theorem holders_foldl_of_cons (steps : List (Overrides × Resource)) {x : Resource}
    {rest : List (String × Resource)} (held : holders templates key = (file, x) :: rest) :
    holders (steps.foldl applyStep templates) key =
      (file, x.overriddenByAll (overridersOf steps key)) :: rest := by
  induction steps generalizing templates x with
  | nil => exact held
  | cons step steps ih =>
    rw [List.foldl_cons, overridersOf_cons]
    by_cases same : step.2.key = key
    · subst same
      have next := holders_applyStep templates step
      rw [held] at next
      rw [if_pos rfl, ih next, Resource.overriddenByAll_cons]
    · have next := holders_applyStep_of_ne templates same
      rw [if_neg same, ih (next.trans held)]

/-- Where a key has no holder, the first resource under the key becomes the only one, and the
later ones override it. -/
theorem holders_foldl_of_nil (steps : List (Overrides × Resource))
    (held : holders templates key = []) :
    holders (steps.foldl applyStep templates) key = [] ∧ overridersOf steps key = [] ∨
      ∃ home first later, overridersOf steps key = first :: later ∧
        holders (steps.foldl applyStep templates) key = [(home, first.overriddenByAll later)] := by
  induction steps generalizing templates with
  | nil => exact .inl ⟨held, rfl⟩
  | cons step steps ih =>
    rw [List.foldl_cons, overridersOf_cons]
    by_cases same : step.2.key = key
    · -- From here on the key has a holder, which the remaining steps override.
      subst same
      have next := holders_applyStep templates step
      rw [held] at next
      exact .inr ⟨_, _, _, if_pos rfl, holders_foldl_of_cons steps next⟩
    · have next := holders_applyStep_of_ne templates same
      rw [if_neg same]
      exact ih (next.trans held)

/-! ## The files of the templates -/

/-- Overriding neither adds nor renames a template. -/
theorem files_overrideIn (templates : List Template) (r : Resource) :
    (overrideIn templates r).map (·.file) = templates.map (·.file) := by
  have kept : ∀ t : Template, Template.file { t with
      resources := updateFirst (·.key == r.key) (·.overriddenBy r) t.resources } = t.file :=
    fun _ => rfl
  exact map_updateFirst kept templates

/-- Adding a resource keeps the names of the templates distinct. -/
theorem nodup_files_addTo (name : String) (distinct : (templates.map (·.file)).Nodup) :
    ((addTo templates name r).map (·.file)).Nodup := by
  unfold addTo
  split
  · have kept : ∀ t : Template, Template.file { t with resources := t.resources ++ [r] } = t.file :=
      fun _ => rfl
    rwa [map_updateFirst kept]
  · next missing =>
    -- A template is only added where none has its name.
    rw [List.map_append, List.nodup_append]
    refine ⟨distinct, by simp, ?_⟩
    rintro _ old _ added rfl
    obtain ⟨t, member, same⟩ := List.mem_map.mp old
    refine missing (List.any_eq_true.mpr ⟨t, member, ?_⟩)
    simpa [same] using added

/-- No two templates are of one file, whatever resources have been applied. -/
theorem nodup_files_foldl (steps : List (Overrides × Resource))
    (distinct : (templates.map (·.file)).Nodup) :
    ((steps.foldl applyStep templates).map (·.file)).Nodup := by
  refine List.foldlRecOn (motive := fun templates : List Template => (templates.map (·.file)).Nodup)
    steps _ distinct ?_
  intro templates distinct step _
  unfold applyStep applyOverride
  split
  · rwa [files_overrideIn]
  · exact nodup_files_addTo _ distinct

end HclLint.Model
