/-
# Nothing is lost in a merge

The merge holds exactly the keys that some file declares. A key that base files declare is held
once for each of them, in its template, and a key that only override files declare is held
once. At no time does a template hold one key twice.

## Main definitions

* `templatesAfter`: the templates after some steps of the merge.
* `Conserves`: what the merged templates have to hold, told from the declarations.

## Main statements

* `nodup_keys_of_nodup_holders`: a key held in distinct templates is held once in each.
* `load_conserves_resources`: which keys a configuration holds, how often, and where.
-/

import HclLint.Proofs.Merge.Reference

namespace HclLint.Model

open HclLint.Text

variable {precedence : Precedence} {all : List Declarations} {templates : List Template}
  {t : Template} {key : ResourceKey}

/-- Whether a file declares a key. -/
def Declarations.declares (d : Declarations) (key : ResourceKey) : Bool :=
  d.resources.any (·.key == key)

/-- A file declares a key exactly if something is found under it. -/
theorem isSome_find?_eq (d : Declarations) (key : ResourceKey) :
    (d.find? key).isSome = d.declares key := by
  rw [Bool.eq_iff_iff, Declarations.find?, List.find?_isSome, Declarations.declares,
    List.any_eq_true]

/-! ## One holder in each template -/

/-- Every holder of a key that lies in one template carries that template's file. -/
theorem files_holding (t : Template) (key : ResourceKey) :
    (t.holding key).map (·.1) = List.replicate (t.holding key).length t.file := by
  refine List.eq_replicate_iff.mpr ⟨List.length_map _, fun file member => ?_⟩
  obtain ⟨holder, held, rfl⟩ := List.mem_map.mp member
  obtain ⟨r, _, rfl⟩ := List.mem_map.mp held
  rfl

/-- Where the holders of each key lie in distinct files, no template holds a key twice. -/
theorem nodup_keys_of_nodup_holders
    (distinct : ∀ key, ((holders templates key).map (·.1)).Nodup) (member : t ∈ templates) :
    (t.resources.map (·.key)).Nodup := by
  rw [List.nodup_iff_count_le_one]
  intro key
  -- The holders in one template all have its file, so there is at most one of them.
  have part : (t.holding key).Sublist (holders templates key) :=
    List.sublist_flatten_of_mem (List.mem_map_of_mem member)
  have once := (distinct key).sublist (part.map (·.1))
  rw [files_holding, List.nodup_replicate] at once
  have counted : (t.resources.map (·.key)).count key = (t.holding key).length := by
    rw [Template.holding, List.length_map, List.count, List.countP_map,
      List.countP_eq_length_filter]
    rfl
  rwa [counted]

/-- A step of the merge leaves the holders of each key in distinct files. -/
theorem nodup_holders_applyStep (step : Overrides × Resource)
    (distinct : ∀ key, ((holders templates key).map (·.1)).Nodup) (key : ResourceKey) :
    ((holders (applyStep templates step) key).map (·.1)).Nodup := by
  by_cases same : step.2.key = key
  · subst same
    rw [holders_applyStep]
    have before := distinct step.2.key
    -- The step changes the first holder in its place, or makes the only one.
    cases held : holders templates step.2.key with
    | nil => simp
    | cons first rest => rwa [held] at before
  · rw [holders_applyStep_of_ne templates same]
    exact distinct key

/-- No step makes a template hold a key twice. -/
theorem nodup_holders_foldl (steps : List (Overrides × Resource))
    (distinct : ∀ key, ((holders templates key).map (·.1)).Nodup) :
    ∀ key, ((holders (steps.foldl applyStep templates) key).map (·.1)).Nodup := by
  induction steps generalizing templates with
  | nil => exact distinct
  | cons step steps ih => exact ih (nodup_holders_applyStep step distinct)

/-! ## The files that hold a key -/

/-- The resources that are found stand in the files that declare the key, in order. -/
theorem files_of_declarations {files : List Declarations} (sound : ∀ d ∈ files, d.WellFormed)
    (key : ResourceKey) :
    (files.filterMap (·.find? key)).map (·.file) =
      (files.filter (·.declares key)).map (·.file) := by
  induction files with
  | nil => rfl
  | cons d files ih =>
    have rest := ih fun other member => sound other (List.mem_cons_of_mem _ member)
    have here := isSome_find?_eq d key
    cases found : d.find? key with
    | none =>
      have lacks : d.declares key = false := by rw [← here, found]; rfl
      rw [List.filterMap_cons, found, List.filter_cons_of_neg (by simp [lacks])]
      exact rest
    | some r =>
      have holds : d.declares key = true := by rw [← here, found]; rfl
      have file := (sound d List.mem_cons_self).resource_file r (List.mem_of_find?_eq_some found)
      rw [List.filterMap_cons, found, List.filter_cons_of_pos (by simpa using holds),
        List.map_cons, List.map_cons, rest, file]

theorem files_of_bases (sound : ∀ d ∈ all, d.WellFormed) (key : ResourceKey) :
    ((baseFiles all).filterMap (·.find? key)).map (·.file) =
      ((baseFiles all).filter (·.declares key)).map (·.file) :=
  files_of_declarations (fun d member => sound d (mem_baseFiles_iff.mp member).1) key

/-- Files in the strict order of their names are distinct, and so are some of them. -/
theorem nodup_files_of_sublist {files : List Declarations}
    (ordered : all.Pairwise (·.file < ·.file)) (part : files.Sublist all) :
    (files.map (·.file)).Nodup := by
  refine List.pairwise_map.mpr ((ordered.sublist part).imp ?_)
  intro d other before same
  rw [same] at before
  exact String.lt_irrefl other.file before

/-- At the start no template holds a key twice, since no file declares one twice. -/
theorem nodup_holders_start (sound : ∀ d ∈ all, d.WellFormed)
    (ordered : all.Pairwise (·.file < ·.file)) (key : ResourceKey) :
    ((holders (DeclaredFiles.ofDeclarations all).templates key).map (·.1)).Nodup := by
  rw [holders_start sound, List.map_map]
  change (((baseFiles all).filterMap (·.find? key)).map (·.file)).Nodup
  rw [files_of_bases sound]
  exact nodup_files_of_sublist ordered (List.filter_sublist.trans List.filter_sublist)

/-- The templates after the first `count` steps of the merge. -/
def templatesAfter (precedence : Precedence) (all : List Declarations) (count : Nat) :
    List Template :=
  ((mergeSteps precedence (.ofDeclarations all)).take count).foldl applyStep
    (DeclaredFiles.ofDeclarations all).templates

/-- After all steps the templates are the merged ones. -/
theorem templatesAfter_length (precedence : Precedence) (all : List Declarations) :
    templatesAfter precedence all (mergeSteps precedence (.ofDeclarations all)).length =
      mergedTemplates precedence all := by
  rw [templatesAfter, List.take_length, mergedTemplates, templates_ofDeclared]

/-- At no time does a template hold two resources with one key. -/
theorem nodup_keys_templatesAfter (sound : ∀ d ∈ all, d.WellFormed)
    (ordered : all.Pairwise (·.file < ·.file)) (count : Nat)
    (member : t ∈ templatesAfter precedence all count) : (t.resources.map (·.key)).Nodup :=
  nodup_keys_of_nodup_holders (nodup_holders_foldl _ (nodup_holders_start sound ordered)) member

/-! ## What the merge holds in the end -/

/-- The merged templates hold what the files declare: no key is lost and none is made up, a key
is held once for each base file that declares it, in the template of that file, and once if
only override files declare it. Templates are of distinct files, and their keys are distinct. -/
structure Conserves (all : List Declarations) (templates : List Template) : Prop where
  held_iff : ∀ key,
    (∃ t ∈ templates, ∃ r ∈ t.resources, r.key = key) ↔ ∃ d ∈ all, d.declares key = true
  count : ∀ key, (∃ d ∈ all, d.declares key = true) →
    (templates.flatMap (·.resources)).countP (·.key == key) =
      max 1 ((baseFiles all).countP (·.declares key))
  files : ∀ key, (∃ d ∈ baseFiles all, d.declares key = true) →
    (holders templates key).map (·.1) = ((baseFiles all).filter (·.declares key)).map (·.file)
  distinct_keys : ∀ t ∈ templates, (t.resources.map (·.key)).Nodup
  distinct_files : (templates.map (·.file)).Nodup

/-- There are as many holders of a key as there are resources of it. -/
theorem length_holders (templates : List Template) (key : ResourceKey) :
    (holders templates key).length =
      (templates.flatMap (·.resources)).countP (·.key == key) := by
  rw [List.countP_eq_length_filter, List.filter_flatMap, holders, List.length_flatMap,
    List.length_flatMap]
  simp [Template.holding]

/-- A resource of the key is held exactly if there is a holder. -/
theorem held_iff_ne_nil :
    (∃ t ∈ templates, ∃ r ∈ t.resources, r.key = key) ↔ holders templates key ≠ [] := by
  rw [Ne, holders_eq_nil_iff]
  simp [isDeclared]

theorem filterMap_find?_eq_nil_iff {files : List Declarations} :
    files.filterMap (·.find? key) = [] ↔ ∀ d ∈ files, d.declares key = false := by
  rw [List.filterMap_eq_nil_iff]
  refine forall₂_congr fun d _ => ?_
  rw [← isSome_find?_eq]
  simp

/-- As many resources are found as there are files that declare the key. -/
theorem length_filterMap_find? (files : List Declarations) (key : ResourceKey) :
    (files.filterMap (·.find? key)).length = files.countP (·.declares key) := by
  rw [List.length_filterMap_eq_countP]
  exact List.countP_congr fun d _ => by rw [isSome_find?_eq]

/-- Where the declarations of a key in base files come first, its holders are as many and lie in
the templates of these files. -/
theorem files_of_base (sound : ∀ d ∈ all, d.WellFormed)
    (declared : (baseFiles all).filterMap (·.find? key) ≠ []) :
    (holders (mergedTemplates precedence all) key).map (·.1) =
      ((baseFiles all).filter (·.declares key)).map (·.file) := by
  obtain ⟨owner, others, bases⟩ := List.exists_cons_of_ne_nil declared
  rw [holders_of_base sound bases, ← files_of_bases sound, bases, List.map_cons, List.map_cons,
    List.map_map]
  rfl

/-- A key that is declared is held once for each base file that declares it, and once if there is
none. -/
theorem length_holders_mergedTemplates (sound : ∀ d ∈ all, d.WellFormed)
    (declared : ∃ d ∈ all, d.declares key = true) :
    (holders (mergedTemplates precedence all) key).length =
      max 1 ((baseFiles all).countP (·.declares key)) := by
  cases bases : (baseFiles all).filterMap (·.find? key) with
  | cons owner others =>
    rw [holders_of_base sound bases, ← length_filterMap_find?, bases]
    simp
  | nil =>
    -- No base file declares the key, and the first override file that does makes its one holder.
    have inNone := filterMap_find?_eq_nil_iff.mp bases
    have count : (baseFiles all).countP (·.declares key) = 0 :=
      List.countP_eq_zero.mpr fun d member => by simp [inNone d member]
    cases overriding : (overrideFiles precedence all).filterMap (·.find? key) with
    | cons owner others =>
      obtain ⟨home, held⟩ := holders_of_override sound bases overriding
      rw [held, count]
      rfl
    | nil =>
      -- The file that declares the key is a base file or an override file.
      have inNoOther := filterMap_find?_eq_nil_iff.mp overriding
      obtain ⟨d, member, declares⟩ := declared
      have inOrder : d ∈ processingOrder precedence all := mem_processingOrder_iff.mpr member
      rcases List.mem_append.mp inOrder with base | override
      · simp [inNone d base] at declares
      · simp [inNoOther d override] at declares

/-- After the merge a key is held exactly if some file declares it. -/
theorem mergedTemplates_held_iff (sound : ∀ d ∈ all, d.WellFormed) (key : ResourceKey) :
    (∃ t ∈ mergedTemplates precedence all, ∃ r ∈ t.resources, r.key = key) ↔
      ∃ d ∈ all, d.declares key = true := by
  rw [held_iff_ne_nil]
  constructor
  · intro held
    by_contra undeclared
    have nowhere : ∀ d ∈ all, d.declares key = false := by simpa using undeclared
    refine held (holders_of_undeclared sound ?_ ?_)
    · exact filterMap_find?_eq_nil_iff.mpr
        fun d member => nowhere d (mem_baseFiles_iff.mp member).1
    · exact filterMap_find?_eq_nil_iff.mpr
        fun d member => nowhere d (mem_overrideFiles_iff.mp member).1
  · intro declared
    apply List.ne_nil_of_length_pos
    rw [length_holders_mergedTemplates sound declared]
    omega

/-- No two of the merged templates have the same name. -/
theorem nodup_files_mergedTemplates (ordered : all.Pairwise (·.file < ·.file)) :
    ((mergedTemplates precedence all).map (·.file)).Nodup := by
  rw [mergedTemplates, templates_ofDeclared]
  refine nodup_files_foldl _ ?_
  rw [DeclaredFiles.templates, List.map_map, bases_ofDeclarations]
  exact nodup_files_of_sublist ordered List.filter_sublist

/-- **No resource is lost or duplicated.** A configuration holds what the files of its set
declare, and at every stage of the merge the keys of each template are distinct. -/
theorem load_conserves_resources {set : SourceSet} {c : Configuration}
    (loaded : Configuration.load precedence set = .ok c) :
    ∃ all, set.files.mapM declarationsOf = .ok all ∧ Conserves all c.templates ∧
      ∀ count, ∀ t ∈ templatesAfter precedence all count, (t.resources.map (·.key)).Nodup := by
  obtain ⟨all, read, rfl⟩ := load_eq_ok loaded
  have sound := wellFormed_of_mapM read
  have ordered := ordered_of_mapM read
  have distinct : ∀ count, ∀ t ∈ templatesAfter precedence all count,
      (t.resources.map (·.key)).Nodup :=
    fun count _ member => nodup_keys_templatesAfter sound ordered count member
  refine ⟨all, read, ?_, distinct⟩
  refine ⟨mergedTemplates_held_iff sound, fun key declared => ?_, fun key declared => ?_, ?_,
    nodup_files_mergedTemplates ordered⟩
  · rw [← length_holders]
    exact length_holders_mergedTemplates sound declared
  · refine files_of_base sound fun none => ?_
    obtain ⟨d, member, declares⟩ := declared
    simp [filterMap_find?_eq_nil_iff.mp none d member] at declares
  · intro t member
    refine distinct (mergeSteps precedence (.ofDeclarations all)).length t ?_
    rwa [templatesAfter_length]

/-- Two base files and two override files keep their shared key. -/
theorem load_conserves_sharedKeyFiles :
    ∃ c, Configuration.load .lexical sharedKeyFiles = .ok c ∧
      ∃ all, sharedKeyFiles.files.mapM declarationsOf = .ok all ∧ Conserves all c.templates := by
  obtain ⟨c, loaded⟩ := load_sharedKeyFiles .lexical
  obtain ⟨all, read, conserves, _⟩ := load_conserves_resources loaded
  exact ⟨c, loaded, all, read, conserves⟩

end HclLint.Model
