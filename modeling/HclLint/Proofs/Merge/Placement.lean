/-
# Where override files put resources

A resource of an override file whose key nobody has declared before is added to a template. Which
one is settled by the files of the templates that are there by then: those of the base files, and
those that earlier additions called for. So the templates in the end are told from the base files
and the additions alone, in their order and with what each of them holds.

## Main definitions

* `orphans`: the steps of a merge that bring a key for the first time.
* `placeOf`: the file of the template that takes a resource without a counterpart.
* `outline`: a template's file, and what overriding leaves alone in its resources.
* `completed`: outlines with all additions.

## Main statements

* `outlines_foldl_applyStep`: what a run of the merge adds.
* `load_places_resources`: the templates of a configuration, and the place of each addition.
-/

import HclLint.Proofs.Merge.Conservation

namespace HclLint.Model

open HclLint.Text

/-! ## Orphans and their places -/

/-- The steps of a merge that bring a key which is not known and which no earlier step brings. -/
def orphans (known : List ResourceKey) :
    List (Overrides × Resource) → List (Overrides × Resource)
  | [] => []
  | step :: steps =>
    if step.2.key ∈ known then orphans known steps
    else step :: orphans (step.2.key :: known) steps

/-- The file of the template that takes a step's resource, where there are templates of some
files: the file that the override file belongs to, if it is one of them. -/
def placeOf (files : List String) (step : Overrides × Resource) : String :=
  match step.1.home with
  | some home => if home ∈ files then home else step.1.declarations.file
  | none => step.1.declarations.file

/-- A step whose resource is added, and the file of the template that takes it. -/
structure Addition where
  step : Overrides × Resource
  place : String

/-- The places of some steps, one after the other. Each place is there for the later steps. -/
def additions (files : List String) : List (Overrides × Resource) → List Addition
  | [] => []
  | step :: steps =>
    ⟨step, placeOf files step⟩ :: additions (files ++ [placeOf files step]) steps

variable {templates : List Template} {step : Overrides × Resource}
  {steps : List (Overrides × Resource)} {files files' : List String}

/-- Every step is an addition, in order. -/
theorem map_step_additions (files : List String) (steps : List (Overrides × Resource)) :
    (additions files steps).map (·.step) = steps := by
  induction steps generalizing files with
  | nil => rfl
  | cons step steps ih => rw [additions, List.map_cons, ih]

/-- Each addition has its place among the files that were there and the earlier places. -/
theorem place_of_additions {earlier later : List Addition} {a : Addition}
    (split : additions files steps = earlier ++ a :: later) :
    a.place = placeOf (files ++ earlier.map (·.place)) a.step := by
  induction steps generalizing files earlier with
  | nil => simp [additions] at split
  | cons step steps ih =>
    rw [additions] at split
    rcases List.cons_eq_append_iff.mp split with ⟨rfl, same⟩ | ⟨earlier, rfl, rest⟩
    · obtain ⟨rfl, _⟩ := List.cons.inj same
      rw [List.map_nil, List.append_nil]
    · rw [ih rest, List.map_cons, List.append_assoc, List.singleton_append]

/-- Only the set of the files matters for a place. -/
theorem placeOf_congr (same : ∀ file, file ∈ files ↔ file ∈ files')
    (step : Overrides × Resource) : placeOf files step = placeOf files' step := by
  simp only [placeOf, same]

theorem additions_congr (same : ∀ file, file ∈ files ↔ file ∈ files')
    (steps : List (Overrides × Resource)) : additions files steps = additions files' steps := by
  induction steps generalizing files files' with
  | nil => rfl
  | cons step steps ih =>
    rw [additions, additions, placeOf_congr same]
    refine congrArg _ (ih fun file => ?_)
    rw [List.mem_append, List.mem_append, same]

/-- The template that a resource is added to is the place of its step. -/
theorem homeOf_eq_placeOf (templates : List Template) (step : Overrides × Resource) :
    homeOf templates step.1.home step.1.declarations.file =
      placeOf (templates.map (·.file)) step := by
  unfold homeOf placeOf
  cases step.1.home with
  | none => rfl
  | some home => simp [List.any_eq_true]

/-! ## Outlines -/

/-- What overriding leaves alone in a resource: where it was declared, and its key. -/
def Resource.identity (r : Resource) : String × ResourceKey × Position :=
  (r.file, r.key, r.position)

/-- A template's file, and the identities of its resources. -/
def Template.outline (t : Template) : String × List (String × ResourceKey × Position) :=
  (t.file, t.resources.map (·.identity))

/-- The identities of the resources that are added to the template of a file, in order. -/
def addedTo (added : List Addition) (file : String) : List (String × ResourceKey × Position) :=
  (added.filter (·.place == file)).map (·.step.2.identity)

/-- The places that are not among some files, in the order in which they are first needed. -/
def newPlaces (files : List String) (added : List Addition) : List String :=
  ((added.map (·.place)).filter (· ∉ files)).eraseDups

/-- Outlines with all additions: first those that were there, each with what is added to it, and
then those of the new places. -/
def completed (outlines : List (String × List (String × ResourceKey × Position)))
    (added : List Addition) : List (String × List (String × ResourceKey × Position)) :=
  outlines.map (fun o => (o.1, o.2 ++ addedTo added o.1)) ++
    (newPlaces (outlines.map (·.1)) added).map fun file => (file, addedTo added file)

section Completed

variable {outlines : List (String × List (String × ResourceKey × Position))}
  {added more : List Addition} {file : String}

theorem addedTo_append (added more : List Addition) (file : String) :
    addedTo (added ++ more) file = addedTo added file ++ addedTo more file := by
  rw [addedTo, List.filter_append, List.map_append]
  rfl

/-- A place is new if something is put there and no template was there before. -/
theorem mem_newPlaces_iff :
    file ∈ newPlaces files added ↔ (∃ a ∈ added, a.place = file) ∧ file ∉ files := by
  simp [newPlaces]

/-- Where nothing is put, nothing is added. -/
theorem addedTo_eq_nil (elsewhere : ∀ a ∈ added, a.place ≠ file) : addedTo added file = [] := by
  rw [addedTo, List.filter_eq_nil_iff.mpr fun a member => by simpa using elsewhere a member]
  rfl

/-- The new places of two runs are those of the first, and those of the second that are new even
then. -/
theorem newPlaces_append (files : List String) (added more : List Addition) :
    newPlaces files (added ++ more) =
      newPlaces files added ++ newPlaces (files ++ newPlaces files added) more := by
  rw [newPlaces, List.map_append, List.filter_append, List.eraseDups_append, List.removeAll,
    List.filter_filter]
  refine congrArg (newPlaces files added ++ List.eraseDups ·) (List.filter_congr fun file _ => ?_)
  -- A file is new for the later additions unless it was there or the earlier ones brought it.
  rw [Bool.eq_iff_iff]
  simp only [Bool.and_eq_true, Bool.not_eq_true', List.elem_eq_mem, decide_eq_false_iff_not,
    decide_eq_true_eq, List.mem_filter, List.mem_map, List.mem_append, mem_newPlaces_iff]
  rw [not_or, and_comm]

theorem newPlaces_singleton_of_mem {a : Addition} (old : a.place ∈ files) :
    newPlaces files [a] = [] := by
  simp [newPlaces, old]

theorem newPlaces_singleton_of_not_mem {a : Addition} (new : a.place ∉ files) :
    newPlaces files [a] = [a.place] := by
  simp [newPlaces, new, List.eraseDups_cons]

theorem addedTo_singleton (a : Addition) (file : String) :
    addedTo [a] file = if a.place = file then [a.step.2.identity] else [] := by
  by_cases same : a.place = file
  · simp [addedTo, same]
  · simp [addedTo, same]

/-- The files of completed outlines are the old ones and then the new places. -/
theorem files_completed (outlines : List (String × List (String × ResourceKey × Position)))
    (added : List Addition) :
    (completed outlines added).map (·.1) =
      outlines.map (·.1) ++ newPlaces (outlines.map (·.1)) added := by
  simp [completed, Function.comp_def]

theorem mem_files_completed : file ∈ (completed outlines added).map (·.1) ↔
    file ∈ outlines.map (·.1) ++ added.map (·.place) := by
  have places : file ∈ added.map (·.place) ↔ ∃ a ∈ added, a.place = file := List.mem_map
  rw [files_completed, List.mem_append, List.mem_append, mem_newPlaces_iff, places]
  by_cases old : file ∈ outlines.map (·.1)
  · simp only [old, true_or]
  · simp only [old, false_or, not_false_eq_true, and_true]

@[simp]
theorem completed_nil (outlines : List (String × List (String × ResourceKey × Position))) :
    completed outlines [] = outlines := by
  simp [completed, addedTo, newPlaces]

/-- Additions may be made one part after the other. -/
theorem completed_append (outlines : List (String × List (String × ResourceKey × Position)))
    (added more : List Addition) :
    completed outlines (added ++ more) = completed (completed outlines added) more := by
  have apart : ∀ file ∈ newPlaces (outlines.map (·.1) ++ newPlaces (outlines.map (·.1)) added) more,
      addedTo (added ++ more) file = addedTo more file := by
    intro file new
    obtain ⟨_, outside⟩ := mem_newPlaces_iff.mp new
    rw [addedTo_append, addedTo_eq_nil, List.nil_append]
    rintro a member rfl
    by_cases old : a.place ∈ outlines.map (·.1)
    · exact outside (List.mem_append_left _ old)
    · exact outside (List.mem_append_right _ (mem_newPlaces_iff.mpr ⟨⟨a, member, rfl⟩, old⟩))
  calc completed outlines (added ++ more)
      = outlines.map (fun o => (o.1, o.2 ++ (addedTo added o.1 ++ addedTo more o.1))) ++
          ((newPlaces (outlines.map (·.1)) added).map
            (fun file => (file, addedTo added file ++ addedTo more file)) ++
          (newPlaces (outlines.map (·.1) ++ newPlaces (outlines.map (·.1)) added) more).map
            fun file => (file, addedTo more file)) := by
        rw [completed, newPlaces_append, List.map_append,
          List.map_congr_left fun file new => congrArg (file, ·) (apart file new)]
        simp only [addedTo_append]
    _ = completed (completed outlines added) more := by
        rw [completed.eq_1 (completed outlines added), files_completed, completed]
        simp [Function.comp_def]

end Completed

/-! ## One step of the merge, and a run of them -/

/-- Overriding does not change an outline. -/
theorem outlines_overrideIn (templates : List Template) (r : Resource) :
    (overrideIn templates r).map (·.outline) = templates.map (·.outline) := by
  have kept : ∀ t : Template, Template.outline { t with
      resources := updateFirst (·.key == r.key) (·.overriddenBy r) t.resources } = t.outline := by
    intro t
    have same : ∀ other : Resource, (other.overriddenBy r).identity = other.identity :=
      fun _ => rfl
    exact congrArg (t.file, ·) (map_updateFirst same t.resources)
  exact map_updateFirst kept templates

/-- Where at most one member satisfies the test, each that does is changed. -/
theorem updateFirst_eq_map {α : Type} {test : α → Bool} {change : α → α} {as : List α}
    (once : as.Pairwise fun a b => test a = true → test b = false) :
    updateFirst test change as = as.map fun a => if test a then change a else a := by
  induction as with
  | nil => rfl
  | cons a as ih =>
    obtain ⟨others, rest⟩ := List.pairwise_cons.mp once
    by_cases found : test a = true
    · have kept : ∀ b ∈ as, (if test b then change b else b) = b := by
        intro b member
        rw [others b member found]
        rfl
      rw [updateFirst, if_pos found, List.map_cons, if_pos found, List.map_congr_left kept,
        List.map_id']
    · rw [updateFirst, if_neg found, List.map_cons, if_neg found, ih rest]

theorem files_outlines (templates : List Template) :
    (templates.map (·.outline)).map (·.1) = templates.map (·.file) := by
  rw [List.map_map]
  rfl

/-- Adding one resource completes the outlines by one addition. -/
theorem outlines_addTo (distinct : (templates.map (·.file)).Nodup) (a : Addition) :
    (addTo templates a.place a.step.2).map (·.outline) =
      completed (templates.map (·.outline)) [a] := by
  have any_iff : templates.any (·.file == a.place) = true ↔ a.place ∈ templates.map (·.file) := by
    simp only [List.any_eq_true, beq_iff_eq, List.mem_map]
  by_cases present : a.place ∈ templates.map (·.file)
  · have once : templates.Pairwise fun t other =>
        (t.file == a.place) = true → (other.file == a.place) = false := by
      refine (List.pairwise_map.mp distinct).imp fun different found => ?_
      exact beq_false_of_ne fun again => different ((beq_iff_eq.mp found).trans again.symm)
    rw [addTo, if_pos (any_iff.mpr present), updateFirst_eq_map once, completed, files_outlines,
      newPlaces_singleton_of_mem present, List.map_nil, List.append_nil, List.map_map, List.map_map]
    refine List.map_congr_left fun t _ => ?_
    by_cases here : t.file = a.place
    · simp [Template.outline, addedTo_singleton, here]
    · simp [Template.outline, addedTo_singleton, here, Ne.symm here]
  · have elsewhere : ∀ t ∈ templates, a.place ≠ t.file := by
      rintro t member same
      exact present (List.mem_map.mpr ⟨t, member, same.symm⟩)
    rw [addTo, if_neg (mt any_iff.mp present), completed, files_outlines,
      newPlaces_singleton_of_not_mem present, List.map_append, List.map_map]
    congr 1
    · refine List.map_congr_left fun t member => ?_
      simp [Template.outline, addedTo_singleton, elsewhere t member]
    · simp [Template.outline, addedTo_singleton]

/-- After a step its key is declared, and no other key has become so. -/
theorem isDeclared_applyStep (templates : List Template) (step : Overrides × Resource)
    (key : ResourceKey) : isDeclared (applyStep templates step) key = true ↔
      key = step.2.key ∨ isDeclared templates key = true := by
  have held_iff : ∀ templates, isDeclared templates key = true ↔ holders templates key ≠ [] := by
    intro templates
    rw [Ne, holders_eq_nil_iff, Bool.not_eq_false]
  rw [held_iff, held_iff]
  by_cases same : step.2.key = key
  · subst same
    have after := holders_applyStep templates step
    cases held : holders templates step.2.key <;> simp [held] at after <;> simp [after]
  · simp [holders_applyStep_of_ne templates same, Ne.symm same]

/-- A step whose resource is declared leaves the outlines alone. -/
theorem outlines_applyStep_of_isDeclared (declared : isDeclared templates step.2.key = true) :
    (applyStep templates step).map (·.outline) = templates.map (·.outline) := by
  have overrides : applyStep templates step = overrideIn templates step.2 := if_pos declared
  rw [overrides, outlines_overrideIn]

/-- Any other step adds its resource in its place. -/
theorem outlines_applyStep_of_not_isDeclared (distinct : (templates.map (·.file)).Nodup)
    (new : ¬isDeclared templates step.2.key = true) :
    (applyStep templates step).map (·.outline) = completed (templates.map (·.outline))
      [⟨step, placeOf (templates.map (·.file)) step⟩] := by
  have adds : applyStep templates step =
      addTo templates (placeOf (templates.map (·.file)) step) step.2 := by
    rw [← homeOf_eq_placeOf]
    exact if_neg new
  rw [adds, ← outlines_addTo distinct]

/-- A run of the merge adds the resources of the orphans among its steps, each in its place, and
changes nothing else in the outlines. -/
theorem outlines_foldl_applyStep {known : List ResourceKey}
    (same : ∀ key, key ∈ known ↔ isDeclared templates key = true)
    (distinct : (templates.map (·.file)).Nodup) :
    (steps.foldl applyStep templates).map (·.outline) = completed (templates.map (·.outline))
      (additions (templates.map (·.file)) (orphans known steps)) := by
  induction steps generalizing templates known with
  | nil => simp [orphans, additions]
  | cons step steps ih =>
    have distinct' : ((applyStep templates step).map (·.file)).Nodup :=
      nodup_files_foldl [step] distinct
    rw [List.foldl_cons, orphans]
    by_cases declared : step.2.key ∈ known
    · have one := outlines_applyStep_of_isDeclared ((same _).mp declared)
      have same' : ∀ key, key ∈ known ↔ isDeclared (applyStep templates step) key = true := by
        intro key
        rw [isDeclared_applyStep, ← same]
        exact (or_iff_right_of_imp fun here => here ▸ declared).symm
      have files : (applyStep templates step).map (·.file) = templates.map (·.file) := by
        rw [← files_outlines, one, files_outlines]
      rw [if_pos declared, ih same' distinct', files, one]
    · -- Whatever comes later finds the template of the added resource there.
      have one := outlines_applyStep_of_not_isDeclared distinct (mt (same _).mpr declared)
      have same' : ∀ key, key ∈ step.2.key :: known ↔
          isDeclared (applyStep templates step) key = true := by
        intro key
        rw [isDeclared_applyStep, ← same, List.mem_cons]
      have files : ∀ file, file ∈ (applyStep templates step).map (·.file) ↔
          file ∈ templates.map (·.file) ++ [placeOf (templates.map (·.file)) step] := by
        intro file
        rw [← files_outlines, one, mem_files_completed, files_outlines]
        rfl
      rw [if_neg declared, additions, ih same' distinct', additions_congr files, one,
        ← completed_append, List.singleton_append]

/-! ## Where the places come from -/

/-- A place is the file of a template that is there, or the override file itself. -/
theorem placeOf_cases (files : List String) (step : Overrides × Resource) :
    placeOf files step ∈ files ∨ placeOf files step = step.1.declarations.file := by
  unfold placeOf
  split
  · split
    · exact .inl ‹_›
    · exact .inr rfl
  · exact .inr rfl

/-- A place was there before, or it is the file of a step that adds its resource. -/
theorem place_cases {a : Addition} (member : a ∈ additions files steps) :
    a.place ∈ files ∨ ∃ step ∈ steps, a.place = step.1.declarations.file := by
  induction steps generalizing files with
  | nil => cases member
  | cons step steps ih =>
    rcases List.mem_cons.mp member with rfl | later
    · exact (placeOf_cases files step).imp_right fun own => ⟨step, List.mem_cons_self, own⟩
    · rcases ih later with there | ⟨other, member, own⟩
      · rcases List.mem_append.mp there with old | new
        · exact .inl old
        · rw [List.mem_singleton.mp new]
          exact (placeOf_cases files step).imp_right fun own => ⟨step, List.mem_cons_self, own⟩
      · exact .inr ⟨other, .tail step member, own⟩

/-- The steps that bring a key for the first time keep their order. -/
theorem orphans_sublist (known : List ResourceKey) (steps : List (Overrides × Resource)) :
    (orphans known steps).Sublist steps := by
  induction steps generalizing known with
  | nil => exact .slnil
  | cons step steps ih =>
    rw [orphans]
    split
    · exact (ih known).cons step
    · exact (ih _).cons_cons step

/-- An orphan brings a key that was not known. -/
theorem key_not_mem_of_orphans {known : List ResourceKey} (orphan : step ∈ orphans known steps) :
    step.2.key ∉ known := by
  induction steps generalizing known with
  | nil => cases orphan
  | cons first steps ih =>
    rw [orphans] at orphan
    split at orphan
    · exact ih orphan
    · next new =>
      rcases List.mem_cons.mp orphan with rfl | later
      · exact new
      · exact fun old => ih later (List.mem_cons_of_mem _ old)

section Files

variable {precedence : Precedence} {all : List Declarations}

/-- A step brings a resource of an override file, which belongs to the file that its name tells. -/
theorem role_of_mergeSteps (member : step ∈ mergeSteps precedence (.ofDeclarations all)) :
    FileRole.ofName step.1.declarations.file = .override step.1.home ∧
      step.2 ∈ step.1.declarations.resources := by
  obtain ⟨o, applied, brought⟩ := List.mem_flatMap.mp member
  obtain ⟨r, declared, rfl⟩ := List.mem_map.mp brought
  refine ⟨?_, declared⟩
  have listed : o ∈ (DeclaredFiles.ofDeclarations all).overrides := by
    cases precedence with
    | lexical => exact applied
    | specificLast =>
      rcases List.mem_append.mp applied with general | specific
      · exact List.mem_of_mem_filter general
      · exact List.mem_of_mem_filter specific
  obtain ⟨d, _, role⟩ := List.mem_filterMap.mp listed
  cases named : FileRole.ofName d.file with
  | base => simp [named] at role
  | override home =>
    rw [named] at role
    obtain rfl := Option.some.inj role
    exact named

/-- Every step of a merge is from an override file. -/
theorem mem_overrideFiles_of_mergeSteps
    (member : step ∈ mergeSteps precedence (.ofDeclarations all)) :
    step.1.declarations ∈ overrideFiles precedence all := by
  obtain ⟨o, applied, brought⟩ := List.mem_flatMap.mp member
  obtain ⟨r, _, rfl⟩ := List.mem_map.mp brought
  rw [← arrange_ofDeclarations]
  exact List.mem_map_of_mem applied

/-- The keys that base files declare. -/
def baseKeys (all : List Declarations) : List ResourceKey := (baseFiles all).flatMap (·.keys)

/-- The names of the base files. -/
def baseNames (all : List Declarations) : List String := (baseFiles all).map (·.file)

/-- A file's name, and the identities of the resources that it declares. -/
def Declarations.outline (d : Declarations) : String × List (String × ResourceKey × Position) :=
  (d.file, d.resources.map (·.identity))

/-- The additions of a merge. -/
def additionsOf (precedence : Precedence) (all : List Declarations) : List Addition :=
  additions (baseNames all) (orphans (baseKeys all) (mergeSteps precedence (.ofDeclarations all)))

/-- The known keys at the start are those that base files declare. -/
theorem mem_baseKeys_iff (all : List Declarations) (key : ResourceKey) :
    key ∈ baseKeys all ↔ isDeclared (DeclaredFiles.ofDeclarations all).templates key = true := by
  simp [baseKeys, Declarations.keys, isDeclared, DeclaredFiles.templates, bases_ofDeclarations]

/-- The merge completes the outlines of the base files by its additions. -/
theorem outlines_mergedTemplates (ordered : all.Pairwise (·.file < ·.file)) :
    (mergedTemplates precedence all).map (·.outline) =
      completed ((baseFiles all).map (·.outline)) (additionsOf precedence all) := by
  have distinct : ((DeclaredFiles.ofDeclarations all).templates.map (·.file)).Nodup := by
    rw [DeclaredFiles.templates, List.map_map, bases_ofDeclarations]
    exact nodup_files_of_sublist ordered List.filter_sublist
  rw [mergedTemplates, templates_ofDeclared,
    outlines_foldl_applyStep (mem_baseKeys_iff all) distinct, DeclaredFiles.templates,
    bases_ofDeclarations, List.map_map, List.map_map]
  rfl

theorem not_mem_baseKeys_iff {key : ResourceKey} :
    key ∉ baseKeys all ↔ ∀ base ∈ baseFiles all, base.declares key = false := by
  simp [baseKeys, Declarations.keys, Declarations.declares]

/-- A place that no base file has is an override file's, which brings a key of its own. -/
theorem declares_of_place {a : Addition} (member : a ∈ additionsOf precedence all)
    (new : a.place ∉ baseNames all) :
    ∃ d ∈ overrideFiles precedence all, d.file = a.place ∧
      ∃ key, d.declares key = true ∧ ∀ base ∈ baseFiles all, base.declares key = false := by
  obtain ⟨step, orphan, own⟩ := (place_cases member).resolve_left new
  have brought := (orphans_sublist _ _).mem orphan
  refine ⟨_, mem_overrideFiles_of_mergeSteps brought, own.symm, step.2.key, ?_,
    not_mem_baseKeys_iff.mp (key_not_mem_of_orphans orphan)⟩
  exact List.any_eq_true.mpr ⟨step.2, (role_of_mergeSteps brought).2, beq_self_eq_true _⟩

/-- A new place is the name of an override file. -/
theorem isOverride_of_place {a : Addition} (member : a ∈ additionsOf precedence all)
    (new : a.place ∉ baseNames all) : ∃ d ∈ overrideFiles precedence all, d.file = a.place := by
  obtain ⟨d, overriding, file, _⟩ := declares_of_place member new
  exact ⟨d, overriding, file⟩

/-- Where the file that an override file belongs to is not an override file itself, it takes the
resource exactly if it is a base file. -/
theorem place_of_base_home {a : Addition} (member : a ∈ additionsOf precedence all)
    (plain : ∀ home, a.step.1.home = some home → FileRole.ofName home = .base) :
    a.place = placeOf (baseNames all) a.step := by
  obtain ⟨earlier, later, split⟩ := List.append_of_mem member
  rw [place_of_additions split]
  unfold placeOf
  cases belongs : a.step.1.home with
  | none => rfl
  | some home =>
    -- An earlier place is a base file, or an override file's name, which the home is not.
    have known : home ∈ baseNames all ++ earlier.map (·.place) ↔ home ∈ baseNames all := by
      rw [List.mem_append, or_iff_left_iff_imp]
      intro taken
      obtain ⟨b, before, rfl⟩ := List.mem_map.mp taken
      by_contra new
      have listed : b ∈ additionsOf precedence all := by
        rw [split]
        exact List.mem_append_left _ before
      obtain ⟨d, overriding, named⟩ := isOverride_of_place listed new
      have role := (mem_overrideFiles_iff.mp overriding).2
      rw [Declarations.isOverride, named, plain _ belongs] at role
      cases role
    simp only [known]

/-! ## The main result -/

/-- The templates of a merge, told from the base files and the additions. The additions are the
orphans, in the order in which they are applied. Each is placed in the template of the file that
its override file belongs to, if a base file or an earlier addition has made such a template, and
else in one of its override file's own. -/
structure IsPlacedBy (precedence : Precedence) (all : List Declarations) (added : List Addition)
    (templates : List Template) : Prop where
  steps : added.map (·.step) =
    orphans (baseKeys all) (mergeSteps precedence (.ofDeclarations all))
  origin : ∀ a ∈ added, FileRole.ofName a.step.1.declarations.file = .override a.step.1.home ∧
    a.step.2 ∈ a.step.1.declarations.resources
  place : ∀ earlier a later, added = earlier ++ a :: later →
    a.place = placeOf (baseNames all ++ earlier.map (·.place)) a.step
  outlines : templates.map (·.outline) = completed ((baseFiles all).map (·.outline)) added
  distinct_files : (templates.map (·.file)).Nodup
  synthetic : ∀ name ∈ newPlaces (baseNames all) added,
    ∃ d ∈ overrideFiles precedence all, d.file = name

/-- The merged templates are placed as the specification says. -/
theorem isPlacedBy_mergedTemplates (ordered : all.Pairwise (·.file < ·.file)) :
    IsPlacedBy precedence all (additionsOf precedence all) (mergedTemplates precedence all) where
  steps := map_step_additions _ _
  origin := by
    intro a member
    have orphan : a.step ∈ (additionsOf precedence all).map (·.step) := List.mem_map_of_mem member
    rw [additionsOf, map_step_additions] at orphan
    exact role_of_mergeSteps ((orphans_sublist _ _).mem orphan)
  place := fun _ _ _ split => place_of_additions split
  outlines := outlines_mergedTemplates ordered
  distinct_files := nodup_files_mergedTemplates ordered
  synthetic := by
    intro name new
    obtain ⟨⟨a, member, rfl⟩, outside⟩ := mem_newPlaces_iff.mp new
    exact isOverride_of_place member outside

end Files

/-- **Templates come in the order of the base files, each with what was added to it, and behind
them come those that override files made for themselves, in the order in which they were first
needed.** An addition goes to the base file that its override file belongs to, where there is one
of that name. The name may also be that of another override file; then the addition goes to the
template which that one has made for itself, if it has. -/
theorem load_places_resources {precedence : Precedence} {set : SourceSet} {c : Configuration}
    (loaded : Configuration.load precedence set = .ok c) :
    ∃ all added, set.files.mapM declarationsOf = .ok all ∧
      IsPlacedBy precedence all added c.templates ∧
      ∀ a ∈ added, (∀ home, a.step.1.home = some home → FileRole.ofName home = .base) →
        a.place = placeOf (baseNames all) a.step := by
  obtain ⟨all, read, rfl⟩ := load_eq_ok loaded
  exact ⟨all, additionsOf precedence all, read, isPlacedBy_mergedTemplates (ordered_of_mapM read),
    fun a member plain => place_of_base_home member plain⟩

/-- Two override files, one of which belongs by its name to the other. -/
def nestedOverrideFiles : SourceSet := .ofList [
  ⟨"a_override.tf", "resource \"x\" \"one\" \x7b\x7d\n"⟩,
  ⟨"a_override_override.tf", "resource \"x\" \"two\" \x7b\x7d\n"⟩]

theorem load_nestedOverrideFiles : ∃ c, Configuration.load .lexical nestedOverrideFiles = .ok c ∧
    c.templates.map (fun t => (t.file, t.resources.map (·.key.id))) =
      [("a_override.tf", ["one", "two"])] := by
  have holds : (Configuration.load .lexical nestedOverrideFiles).toOption.any (fun c =>
      c.templates.map (fun t => (t.file, t.resources.map (·.key.id))) ==
        [("a_override.tf", ["one", "two"])]) = true := by
    decide +kernel
  obtain ⟨c, loaded, same⟩ := exists_eq_ok_of_any holds
  exact ⟨c, loaded, beq_iff_eq.mp same⟩

/-- Two override files share the template that the first of them has made for itself. -/
theorem load_places_nestedOverrideFiles :
    ∃ c, Configuration.load .lexical nestedOverrideFiles = .ok c ∧
      ∃ all added, nestedOverrideFiles.files.mapM declarationsOf = .ok all ∧
        IsPlacedBy .lexical all added c.templates := by
  obtain ⟨c, loaded, _⟩ := load_nestedOverrideFiles
  obtain ⟨all, added, read, placed, _⟩ := load_places_resources loaded
  exact ⟨c, loaded, all, added, read, placed⟩

/-- A resource of an override file that belongs to no base file need not be placed in a template
of its file's own. -/
theorem nestedOverrideFiles_not_own_template :
    (∀ source ∈ nestedOverrideFiles.files, FileRole.ofName source.name ≠ .base) ∧
    FileRole.ofName "a_override_override.tf" = .override (some "a_override.tf") ∧
    ∃ c, Configuration.load .lexical nestedOverrideFiles = .ok c ∧
      (∀ t ∈ c.templates, t.file ≠ "a_override_override.tf") ∧
      ∃ t ∈ c.templates, t.file = "a_override.tf" ∧ "two" ∈ t.resources.map (·.key.id) := by
  refine ⟨by decide +kernel, by decide +kernel, ?_⟩
  obtain ⟨c, loaded, outline⟩ := load_nestedOverrideFiles
  refine ⟨c, loaded, ?_, ?_⟩
  · intro t member own
    have listed := List.mem_map_of_mem (f := fun t : Template =>
      (t.file, t.resources.map (·.key.id))) member
    rw [outline, List.mem_singleton] at listed
    exact absurd ((Prod.mk.inj listed).1.symm.trans own) (by decide)
  · have listed : ("a_override.tf", ["one", "two"]) ∈
        c.templates.map (fun t => (t.file, t.resources.map (·.key.id))) := by
      rw [outline]
      exact List.mem_singleton_self _
    obtain ⟨t, member, same⟩ := List.mem_map.mp listed
    obtain ⟨file, ids⟩ := Prod.mk.inj same
    exact ⟨t, member, file, by rw [ids]; decide⟩

end HclLint.Model
