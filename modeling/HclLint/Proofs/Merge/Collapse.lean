/-
# Override files that act like one

A run of consecutive override files does to a resource what a single file does. All that the run
declares of the resource may be gathered in the first of its files that declares it, where it
stands as the resource that the later declarations make of the first one; the later files need not
declare it then. The templates come out the same, down to the last resource, whatever else the
files declare.

## Main definitions

* `mergedResource`: what some resources come to, each overriding the ones before it.
* `collapsed`: a run of override files with one resource gathered in one of them.
* `IsCollapseOf`: what such a run has to be.

## Main statements

* `isCollapseOf_collapsed`: the run declares what it has to.
* `foldl_applyOverrides_collapsed`: the run acts as before.
-/

import HclLint.Proofs.Merge.Exchange

namespace HclLint.Model

variable {key other : ResourceKey} {o : Overrides} {run : List Overrides}
  {later : List Resource} {templates : List Template}

/-! ## Collapsing a run -/

/-- What some resources come to, each overriding the ones before it. -/
def mergedResource : List Resource → Option Resource
  | [] => none
  | r :: later => some (r.overriddenByAll later)

namespace Overrides

/-- The override file with other resources in it. -/
def withResources (o : Overrides) (resources : List Resource) : Overrides :=
  { o with declarations := { o.declarations with resources } }

/-- The override file without its resource of a key. -/
def without (o : Overrides) (key : ResourceKey) : Overrides :=
  o.withResources (o.declarations.resources.filter (·.key != key))

/-- The override file with its resource of a key overridden by others. -/
def gathering (o : Overrides) (key : ResourceKey) (later : List Resource) : Overrides :=
  o.withResources (o.declarations.resources.map fun r =>
    if r.key = key then r.overriddenByAll later else r)

end Overrides

/-- A run of override files in which the first one that declares a key declares all that the run
makes of it, and no later one does. -/
def collapsed (key : ResourceKey) : List Overrides → List Overrides
  | [] => []
  | o :: run =>
    if o.declarations.declares key then
      o.gathering key (run.filterMap (·.declarations.find? key)) :: run.map (·.without key)
    else o :: collapsed key run

/-- A run of override files with all that it declares of one key gathered in one of them: the
files have their names and variables and declare all other resources as they did, and there is
one declaration of the key at most, which is what all of them have come to. -/
structure IsCollapseOf (key : ResourceKey) (run run' : List Overrides) : Prop where
  files : run'.map (fun o => (o.home, o.declarations.file, o.declarations.vars)) =
    run.map fun o => (o.home, o.declarations.file, o.declarations.vars)
  others : ∀ other, other ≠ key →
    run'.map (·.declarations.find? other) = run.map (·.declarations.find? other)
  gathered : run'.filterMap (·.declarations.find? key) =
    (mergedResource (run.filterMap (·.declarations.find? key))).toList

theorem overriddenByAll_key (r : Resource) (later : List Resource) :
    (r.overriddenByAll later).key = r.key := by
  rw [Resource.overriddenByAll_eq]

/-- What is found under a key has it. -/
theorem key_of_find? {d : Declarations} {r : Resource} (found : d.find? key = some r) :
    r.key = key := by
  have same := List.find?_some found
  exact beq_iff_eq.mp same

namespace Overrides

/-- Without its resource of the key, an override file declares it no more. -/
theorem find?_without_self (o : Overrides) (key : ResourceKey) :
    (o.without key).declarations.find? key = none := by
  refine List.find?_eq_none.mpr fun r member again => ?_
  simpa [beq_iff_eq.mp again] using (List.mem_filter.mp member).2

/-- What it declares under other keys stays. -/
theorem find?_without_of_ne (o : Overrides) (different : other ≠ key) :
    (o.without key).declarations.find? other = o.declarations.find? other := by
  refine (List.find?_filter ..).trans (congrArg (List.find? · _) ?_)
  funext r
  by_cases found : r.key = other
  · simp [found, different]
  · simp [found]

/-- Gathering changes what is found under the key, and nothing else. -/
theorem find?_gathering (o : Overrides) (key other : ResourceKey) (later : List Resource) :
    (o.gathering key later).declarations.find? other =
      (o.declarations.find? other).map fun r =>
        if r.key = key then r.overriddenByAll later else r := by
  refine List.find?_map.trans (congrArg (Option.map _) (congrArg (List.find? · _) ?_))
  funext r
  rw [Function.comp_apply]
  split
  · rw [overriddenByAll_key]
  · rfl

/-- An override file that gathers later resources holds its own one overridden by them. -/
theorem find?_gathering_self (o : Overrides) (key : ResourceKey) (later : List Resource) :
    (o.gathering key later).declarations.find? key =
      (o.declarations.find? key).map (·.overriddenByAll later) := by
  rw [find?_gathering]
  cases found : o.declarations.find? key with
  | none => rfl
  | some r => simp [key_of_find? found]

/-- Other resources of the file are not touched. -/
theorem find?_gathering_of_ne (o : Overrides) (different : other ≠ key) (later : List Resource) :
    (o.gathering key later).declarations.find? other = o.declarations.find? other := by
  rw [find?_gathering]
  cases found : o.declarations.find? other with
  | none => rfl
  | some r => simp [key_of_find? found, different]

end Overrides

theorem isCollapseOf_collapsed (key : ResourceKey) (run : List Overrides) :
    IsCollapseOf key run (collapsed key run) := by
  induction run with
  | nil => exact ⟨rfl, fun _ _ => rfl, rfl⟩
  | cons o run ih =>
    rw [collapsed]
    have found := isSome_find?_eq o.declarations key
    split
    · next declares =>
      obtain ⟨r, found⟩ := Option.isSome_iff_exists.mp (found.trans declares)
      refine ⟨?_, fun other different => ?_, ?_⟩
      · rw [List.map_cons, List.map_cons, List.map_map]
        rfl
      · rw [List.map_cons, List.map_cons, List.map_map, o.find?_gathering_of_ne different]
        exact congrArg _ (List.map_congr_left fun o _ => o.find?_without_of_ne different)
      · -- Behind the file that gathers the resource nothing is left of it.
        have rest : (run.map (·.without key)).filterMap (·.declarations.find? key) = [] := by
          simp [Overrides.find?_without_self]
        rw [List.filterMap_cons, List.filterMap_cons, o.find?_gathering_self, found, rest]
        rfl
    · next lacks =>
      rw [Bool.eq_false_iff.mpr lacks, Option.isSome_eq_false_iff, Option.isNone_iff_eq_none]
        at found
      refine ⟨?_, fun other different => ?_, ?_⟩
      · rw [List.map_cons, List.map_cons, ih.files]
      · rw [List.map_cons, List.map_cons, ih.others other different]
      · rw [List.filterMap_cons, List.filterMap_cons, found]
        exact ih.gathered

/-! ## The collapsed run acts as before -/

/-- The steps of some override files, one for each resource that they declare. -/
def stepsOf (run : List Overrides) : List (Overrides × Resource) :=
  run.flatMap fun o => o.declarations.resources.map (o, ·)

/-- Applying a file depends on its names and resources only. -/
theorem applyOverrides_withResources (templates : List Template) (o : Overrides)
    (resources : List Resource) :
    applyOverrides templates (o.withResources resources) =
      (resources.map (o, ·)).foldl applyStep templates := by
  rw [List.foldl_map]
  rfl

/-- Applying files one after the other is applying all their resources in order. -/
theorem foldl_applyOverrides_eq (run : List Overrides) (templates : List Template) :
    run.foldl applyOverrides templates = (stepsOf run).foldl applyStep templates := by
  rw [stepsOf, List.foldl_flatMap]
  refine congrArg (List.foldl · templates run) ?_
  funext templates o
  exact applyOverrides_withResources templates o _

/-- Files without a resource of the key apply the steps of the other keys. -/
theorem foldl_applyOverrides_without (run : List Overrides) (key : ResourceKey)
    (templates : List Template) :
    (run.map (·.without key)).foldl applyOverrides templates =
      ((stepsOf run).filter (·.2.key != key)).foldl applyStep templates := by
  rw [stepsOf, List.filter_flatMap, List.foldl_flatMap, List.foldl_map]
  refine congrArg (List.foldl · templates run) ?_
  funext templates o
  rw [List.filter_map]
  exact applyOverrides_withResources templates o _

/-- Among the steps of a run, each file that declares the key supplies one resource of it. -/
theorem overridersOf_stepsOf (sound : ∀ o ∈ run, o.declarations.WellFormed) (key : ResourceKey) :
    overridersOf (stepsOf run) key = run.filterMap (·.declarations.find? key) := by
  have brought := @overridersOf_mergeSteps .lexical ⟨[], run⟩ sound key
  rwa [List.filterMap_map] at brought

/-- Where a key is declared, all that a run declares of it may be applied ahead of the run. -/
theorem foldl_applyOverrides_of_isDeclared (sound : ∀ o ∈ run, o.declarations.WellFormed)
    (declared : isDeclared templates key = true) :
    run.foldl applyOverrides templates =
      (run.map (·.without key)).foldl applyOverrides
        ((run.filterMap (·.declarations.find? key)).foldl overrideIn templates) := by
  rw [foldl_applyOverrides_eq, foldl_applyOverrides_without, ← overridersOf_stepsOf sound]
  exact foldl_applyStep_of_isDeclared declared

/-- After an override file its resources are declared. -/
theorem isDeclared_applyOverrides (declares : o.declarations.declares key = true)
    (templates : List Template) : isDeclared (applyOverrides templates o) key = true := by
  obtain ⟨r, member, same⟩ := List.any_eq_true.mp declares
  have own : o.withResources o.declarations.resources = o := rfl
  rw [← own, applyOverrides_withResources]
  apply isDeclared_foldl_applyStep
  exact .inr ⟨(o, r), List.mem_map_of_mem member, beq_iff_eq.mp same⟩

/-- A file that declares a key declares it once, between resources of other keys. -/
theorem exists_split_of_declares {d : Declarations} (sound : d.WellFormed)
    (declares : d.declares key = true) :
    ∃ front r back, d.resources = front ++ r :: back ∧ r.key = key ∧
      (∀ x ∈ front, x.key ≠ key) ∧ ∀ x ∈ back, x.key ≠ key := by
  obtain ⟨r, member, same⟩ := List.any_eq_true.mp declares
  obtain ⟨front, back, split⟩ := List.append_of_mem member
  obtain rfl := beq_iff_eq.mp same
  have keys := sound.distinct_keys
  rw [split, List.map_append, List.map_cons, List.nodup_middle, List.nodup_cons,
    List.mem_append, not_or] at keys
  refine ⟨front, r, back, split, rfl, fun x member again => ?_, fun x member again => ?_⟩
  · exact keys.1.1 (again ▸ List.mem_map_of_mem member)
  · exact keys.1.2 (again ▸ List.mem_map_of_mem member)

/-- What overrides the resource of a key after the file that declares it may be gathered in the
file. -/
theorem applyOverrides_gathering (sound : o.declarations.WellFormed)
    (declares : o.declarations.declares key = true) (same : ∀ b ∈ later, b.key = key)
    (templates : List Template) :
    applyOverrides templates (o.gathering key later) =
      later.foldl overrideIn (applyOverrides templates o) := by
  obtain ⟨front, r, back, split, rfl, ahead, behind⟩ := exists_split_of_declares sound declares
  have names : r.attributes.keys.Nodup := sound.distinct_names r (by simp [split])
  have kept : ∀ {resources : List Resource}, (∀ x ∈ resources, x.key ≠ r.key) →
      (resources.map fun x => if x.key = r.key then x.overriddenByAll later else x) =
        resources := by
    intro resources different
    exact (List.map_congr_left fun x member => if_neg (different x member)).trans
      resources.map_id'
  -- The resources behind have other keys, so what overrides the resource passes them.
  have pass : ∀ step ∈ back.map (o, ·), ∀ b ∈ later, step.2.key ≠ b.key := by
    intro step member b brought
    obtain ⟨x, inBack, rfl⟩ := List.mem_map.mp member
    exact same b brought ▸ behind x inBack
  have own : o.withResources o.declarations.resources = o := rfl
  calc applyOverrides templates (o.gathering r.key later)
      = (back.map (o, ·)).foldl applyStep
          (applyStep ((front.map (o, ·)).foldl applyStep templates)
            (o, r.overriddenByAll later)) := by
        rw [Overrides.gathering, applyOverrides_withResources, split, List.map_append,
          List.map_cons, kept ahead, kept behind, if_pos rfl, List.map_append, List.map_cons,
          List.foldl_append, List.foldl_cons]
    _ = (back.map (o, ·)).foldl applyStep
          (later.foldl overrideIn
            (applyStep ((front.map (o, ·)).foldl applyStep templates) (o, r))) := by
        rw [foldl_overrideIn_applyStep same names]
    _ = later.foldl overrideIn
          ((back.map (o, ·)).foldl applyStep
            (applyStep ((front.map (o, ·)).foldl applyStep templates) (o, r))) :=
        foldl_applyStep_foldl_overrideIn pass _
    _ = later.foldl overrideIn (applyOverrides templates o) := by
        rw [← own, applyOverrides_withResources, own, split, List.map_append, List.map_cons,
          List.foldl_append, List.foldl_cons]

/-- **A run of override files may be collapsed** for any resource. -/
theorem foldl_applyOverrides_collapsed (sound : ∀ o ∈ run, o.declarations.WellFormed)
    (key : ResourceKey) (templates : List Template) :
    (collapsed key run).foldl applyOverrides templates = run.foldl applyOverrides templates := by
  induction run generalizing templates with
  | nil => rfl
  | cons o run ih =>
    obtain ⟨here, there⟩ := List.forall_mem_cons.mp sound
    rw [collapsed]
    split
    · next declares =>
      have keys : ∀ b ∈ run.filterMap (·.declarations.find? key), b.key = key := by
        intro b member
        obtain ⟨_, _, found⟩ := List.mem_filterMap.mp member
        exact key_of_find? found
      rw [List.foldl_cons, List.foldl_cons, applyOverrides_gathering here declares keys,
        ← foldl_applyOverrides_of_isDeclared there (isDeclared_applyOverrides declares templates)]
    · rw [List.foldl_cons, List.foldl_cons, ih there]

/-- Where the later files of a run declare nothing but one resource, the first file of the run
does for all of them. -/
theorem applyOverrides_gathering_run (sound : ∀ d ∈ o :: run, d.declarations.WellFormed)
    (declares : o.declarations.declares key = true)
    (alone : ∀ d ∈ run, ∀ r ∈ d.declarations.resources, r.key = key)
    (templates : List Template) :
    applyOverrides templates (o.gathering key (run.filterMap (·.declarations.find? key))) =
      (o :: run).foldl applyOverrides templates := by
  -- The collapsed run has no steps behind its first file.
  have nothing : (stepsOf run).filter (·.2.key != key) = [] := by
    refine List.filter_eq_nil_iff.mpr fun step member => ?_
    obtain ⟨d, inRun, brought⟩ := List.mem_flatMap.mp member
    obtain ⟨r, declared, rfl⟩ := List.mem_map.mp brought
    simpa using alone d inRun r declared
  rw [← foldl_applyOverrides_collapsed sound key, collapsed, if_pos declares, List.foldl_cons,
    foldl_applyOverrides_without, nothing, List.foldl_nil]

/-! ## Collapsing among other files -/

/-- What collapsing leaves alone, where some override files make some templates of others: any run
of consecutive files may be collapsed for any resource, and it may be replaced by its first file,
with all that the run declares of the resource, if the others declare nothing else. -/
structure MayBeCollapsed (files : List Overrides) (start result : List Template) : Prop where
  for_resource : ∀ key before run after, files = before ++ run ++ after →
    result = (before ++ collapsed key run ++ after).foldl applyOverrides start
  to_file : ∀ key before o run after, files = before ++ (o :: run) ++ after →
    o.declarations.declares key = true →
    (∀ d ∈ run, ∀ r ∈ d.declarations.resources, r.key = key) →
    result = (before ++ [o.gathering key (run.filterMap (·.declarations.find? key))] ++
      after).foldl applyOverrides start

/-- A run of override files may be collapsed resource by resource. -/
theorem mayBeCollapsed_foldl {files : List Overrides}
    (sound : ∀ o ∈ files, o.declarations.WellFormed) (start : List Template) :
    MayBeCollapsed files start (files.foldl applyOverrides start) where
  for_resource := by
    rintro key before run after rfl
    have inRun : ∀ o ∈ run, o.declarations.WellFormed := fun o member => sound o (by simp [member])
    simp only [List.foldl_append, foldl_applyOverrides_collapsed inRun]
  to_file := by
    rintro key before o run after rfl declares alone
    have inRun : ∀ d ∈ o :: run, d.declarations.WellFormed := fun d member =>
      sound d (List.mem_append_left _ (List.mem_append_right _ member))
    simp only [List.foldl_append, ← applyOverrides_gathering_run inRun declares alone,
      List.foldl_cons, List.foldl_nil]

end HclLint.Model
