/-
# What a merge comes to

Files take effect in a fixed order: base files by name, then override files, also by name or
with those called `override.tf` ahead. Along this order the first declaration of a key owns it.
The merge leaves every declaration of a base file where it stands and changes only owners: an
owner's attributes are those that the override files behind it supplied last.

## Main definitions

* `processingOrder`: the files of a set in the order in which they take effect.
* `mergeSteps`: the resources that override files bring, one step of the merge each.

## Main statements

* `load_owner_merged`: the holders of each key are its owner, merged, and the other
  declarations of base files as they were read.
-/

import HclLint.Proofs.Merge.Declared
import HclLint.Proofs.Merge.Holders

namespace HclLint.Model

open HclLint.Text

/-! ## The order of the files -/

namespace Declarations

/-- Whether the file overrides others. -/
def isOverride (d : Declarations) : Bool := (FileRole.ofName d.file).isOverride

/-- Whether the file's name ends in the component `override.tf`. -/
def isGeneral (d : Declarations) : Bool := Path.fileName? d.file == some "override.tf"

/-- The resource that the file declares under a key. -/
def find? (d : Declarations) (key : ResourceKey) : Option Resource :=
  d.resources.find? (·.key == key)

end Declarations

/-- Whether a resource was declared in an override file. -/
def Resource.isOverriding (r : Resource) : Bool := (FileRole.ofName r.file).isOverride

/-- The base files among some files. -/
def baseFiles (all : List Declarations) : List Declarations := all.filter (! ·.isOverride)

/-- The override files among some files, in the order in which they are applied. -/
def overrideFiles : Precedence → List Declarations → List Declarations
  | .lexical, all => all.filter (·.isOverride)
  | .specificLast, all =>
    all.filter (·.isGeneral) ++ all.filter fun d => d.isOverride && !d.isGeneral

/-- Files, given in the order of their names, in the order in which they take effect. -/
def processingOrder (precedence : Precedence) (all : List Declarations) : List Declarations :=
  baseFiles all ++ overrideFiles precedence all

theorem fileName?_override : Path.fileName? "override.tf" = some "override.tf" := by
  decide +kernel

theorem fileName?_getD_eq_iff (name : String) :
    (Path.fileName? name).getD name = "override.tf" ↔
      Path.fileName? name = some "override.tf" := by
  cases found : Path.fileName? name with
  | none =>
    have other : name ≠ "override.tf" := by
      rintro rfl
      simp [fileName?_override] at found
    simpa using other
  | some last => simp

/-- The override files that belong to no file are those called `override.tf`. -/
theorem ofName_eq_override_none_iff (name : String) :
    FileRole.ofName name = .override none ↔ Path.fileName? name = some "override.tf" := by
  rw [← fileName?_getD_eq_iff]
  unfold FileRole.ofName
  -- Every other override file belongs to the file that the rest of its name stands for.
  split
  · next general => simp [general]
  · next special =>
    simp only [special, iff_false]
    split
    · split <;> simp
    · simp

/-- The base files of the loader are those of the specification. -/
theorem bases_ofDeclarations (all : List Declarations) :
    (DeclaredFiles.ofDeclarations all).bases = baseFiles all := by
  refine List.filter_congr fun d _ => ?_
  unfold Declarations.isOverride FileRole.isOverride
  cases FileRole.ofName d.file <;> rfl

/-- A choice among the override files, told from the file that each belongs to. -/
theorem filter_overrides_ofDeclarations (chosen : Overrides → Bool)
    (kept : Declarations → Bool) (agree : ∀ d, kept d =
      match FileRole.ofName d.file with
      | .base => false
      | .override home => chosen ⟨home, d⟩) (all : List Declarations) :
    ((DeclaredFiles.ofDeclarations all).overrides.filter chosen).map (·.declarations) =
      all.filter kept := by
  induction all with
  | nil => rfl
  | cons d all ih =>
    have here := agree d
    simp only [DeclaredFiles.ofDeclarations] at ih ⊢
    cases role : FileRole.ofName d.file with
    | base => simpa [role, here] using ih
    | override home =>
      rw [role] at here
      cases taken : chosen ⟨home, d⟩ with
      | false => simpa [role, here, taken] using ih
      | true => simpa [role, here, taken] using ih

/-- The override files are taken in the order of the specification. -/
theorem arrange_ofDeclarations (precedence : Precedence) (all : List Declarations) :
    (precedence.arrange (DeclaredFiles.ofDeclarations all).overrides).map (·.declarations) =
      overrideFiles precedence all := by
  have general : ∀ d : Declarations, d.isGeneral =
      match FileRole.ofName d.file with
      | .base => false
      | .override home => home.isNone := by
    intro d
    have named := ofName_eq_override_none_iff d.file
    unfold Declarations.isGeneral
    cases role : FileRole.ofName d.file with
    | base => simpa [role] using named
    | override home => cases home <;> simpa [role] using named
  have overriding : ∀ d : Declarations, d.isOverride =
      match FileRole.ofName d.file with
      | .base => false
      | .override _ => true := by
    intro d
    unfold Declarations.isOverride FileRole.isOverride
    cases FileRole.ofName d.file <;> rfl
  have specific : ∀ d : Declarations, (d.isOverride && !d.isGeneral) =
      match FileRole.ofName d.file with
      | .base => false
      | .override home => home.isSome := by
    intro d
    rw [overriding, general]
    cases FileRole.ofName d.file with
    | base => rfl
    | override home => cases home <;> rfl
  cases precedence with
  | lexical =>
    have kept := filter_overrides_ofDeclarations (fun _ => true) _ overriding all
    rw [List.filter_true] at kept
    rw [Precedence.arrange, kept]
    rfl
  | specificLast =>
    rw [Precedence.arrange, List.map_append, filter_overrides_ofDeclarations _ _ general all,
      filter_overrides_ofDeclarations _ _ specific all]
    rfl

theorem isOverride_of_isGeneral {d : Declarations} (general : d.isGeneral = true) :
    d.isOverride = true := by
  have named := (ofName_eq_override_none_iff d.file).mpr (beq_iff_eq.mp general)
  rw [Declarations.isOverride, named]
  rfl

/-- A base file is one that does not override. -/
theorem mem_baseFiles_iff {all : List Declarations} {d : Declarations} :
    d ∈ baseFiles all ↔ d ∈ all ∧ d.isOverride = false := by
  simp [baseFiles]

/-- An override file is one that does. -/
theorem mem_overrideFiles_iff {precedence : Precedence} {all : List Declarations}
    {d : Declarations} : d ∈ overrideFiles precedence all ↔ d ∈ all ∧ d.isOverride = true := by
  have general : d.isGeneral = true → d.isOverride = true := isOverride_of_isGeneral
  cases precedence with
  | lexical => simp [overrideFiles]
  | specificLast =>
    cases named : d.isGeneral with
    | false => simp [overrideFiles, named]
    | true => simp [overrideFiles, named, general named]

/-- Each file is processed. -/
theorem mem_processingOrder_iff {precedence : Precedence} {all : List Declarations}
    {d : Declarations} : d ∈ processingOrder precedence all ↔ d ∈ all := by
  rw [processingOrder, List.mem_append, mem_baseFiles_iff, mem_overrideFiles_iff]
  cases d.isOverride <;> simp

/-- Variables are declared file by file, in the order in which the files take effect. -/
theorem vars_ofDeclarations (precedence : Precedence) (all : List Declarations) :
    (DeclaredFiles.ofDeclarations all).vars precedence =
      (processingOrder precedence all).flatMap (·.vars) := by
  rw [DeclaredFiles.vars, bases_ofDeclarations, processingOrder, List.flatMap_append,
    ← arrange_ofDeclarations, List.flatMap_map]

/-! ## The merge as a run of steps -/

/-- The resources that override files bring, in the order in which they are applied. -/
def mergeSteps (precedence : Precedence) (files : DeclaredFiles) : List (Overrides × Resource) :=
  (precedence.arrange files.overrides).flatMap fun o => o.declarations.resources.map (o, ·)

/-- The templates of a configuration are those of the base files after all steps. -/
theorem templates_ofDeclared (precedence : Precedence) (files : DeclaredFiles) :
    (Configuration.ofDeclared precedence files).templates =
      (mergeSteps precedence files).foldl applyStep files.templates := by
  simp only [Configuration.ofDeclared, mergeSteps, List.foldl_flatMap, List.foldl_map]
  rfl

/-- A configuration is loaded exactly from the declarations of all files of its set. -/
theorem load_eq_ok {precedence : Precedence} {set : SourceSet} {c : Configuration}
    (loaded : Configuration.load precedence set = .ok c) :
    ∃ all, set.files.mapM declarationsOf = .ok all ∧
      c = Configuration.ofDeclared precedence (.ofDeclarations all) := by
  obtain ⟨files, sorted, made⟩ := except_bind_eq_ok.mp loaded
  obtain ⟨all, read, kept⟩ := except_bind_eq_ok.mp sorted
  obtain rfl := Except.ok.inj kept
  exact ⟨all, read, (Except.ok.inj made).symm⟩

/-- A file declares a key at most once. -/
theorem filter_key_eq {d : Declarations} (h : d.WellFormed) (key : ResourceKey) :
    d.resources.filter (·.key == key) = (d.find? key).toList := by
  obtain ⟨file, resources, vars⟩ := d
  have distinct : (resources.map (·.key)).Nodup := h.distinct_keys
  change resources.filter (·.key == key) = (resources.find? (·.key == key)).toList
  clear h
  induction resources with
  | nil => rfl
  | cons r resources ih =>
    obtain ⟨new, distinct⟩ := List.nodup_cons.mp distinct
    by_cases same : r.key = key
    -- Behind the resource with the key no other one has it.
    · have others : resources.filter (·.key == key) = [] := by
        refine List.filter_eq_nil_iff.mpr fun other member again => new ?_
        exact List.mem_map.mpr ⟨other, member, (beq_iff_eq.mp again).trans same.symm⟩
      simp [same, others]
    · simp [same, ih distinct]

/-- A well-formed file has one resource of a key at most. -/
theorem flatMap_filter_key_eq {all : List Declarations} (h : ∀ d ∈ all, d.WellFormed)
    (key : ResourceKey) :
    (all.flatMap fun d => d.resources.filter (·.key == key)) = all.filterMap (·.find? key) := by
  induction all with
  | nil => rfl
  | cons d all ih =>
    have rest := ih fun other member => h other (List.mem_cons_of_mem _ member)
    rw [List.flatMap_cons, filter_key_eq (h d List.mem_cons_self), rest]
    cases found : d.find? key <;> simp [found]

/-- The steps of a merge that concern a key are those of the files that declare it. -/
theorem overridersOf_mergeSteps {precedence : Precedence} {files : DeclaredFiles}
    (h : ∀ o ∈ precedence.arrange files.overrides, o.declarations.WellFormed)
    (key : ResourceKey) :
    overridersOf (mergeSteps precedence files) key =
      ((precedence.arrange files.overrides).map (·.declarations)).filterMap (·.find? key) := by
  rw [← flatMap_filter_key_eq (by simpa using h)]
  simp [overridersOf, mergeSteps, List.map_flatMap, List.filter_flatMap, List.flatMap_map,
    Function.comp_def]

/-- Before the merge the holders of a key are its declarations in base files. -/
theorem holders_templates {files : DeclaredFiles} (h : ∀ d ∈ files.bases, d.WellFormed)
    (key : ResourceKey) :
    holders files.templates key =
      (files.bases.filterMap (·.find? key)).map fun r => (r.file, r) := by
  rw [← flatMap_filter_key_eq h, List.map_flatMap]
  unfold holders DeclaredFiles.templates
  rw [List.flatMap_map]
  refine List.flatMap_congr fun d member => ?_
  refine List.map_congr_left fun r held => ?_
  rw [(h d member).resource_file r (List.mem_of_mem_filter held)]

theorem Declarations.WellFormed.of_find? {d : Declarations} (h : d.WellFormed)
    {key : ResourceKey} {r : Resource} (found : d.find? key = some r) :
    r.isOverriding = d.isOverride ∧ r.attributes.keys.Nodup := by
  have member := List.mem_of_find?_eq_some found
  refine ⟨?_, h.distinct_names r member⟩
  rw [Resource.isOverriding, h.resource_file r member, Declarations.isOverride]

/-! ## The holders after the merge -/

section Holders

variable {precedence : Precedence} {all : List Declarations} {key : ResourceKey}
  {owner : Resource} {others overriding : List Resource}

/-- The override files are well-formed if all files are. -/
theorem wellFormed_of_mem_arrange (sound : ∀ d ∈ all, d.WellFormed) :
    ∀ o ∈ precedence.arrange (DeclaredFiles.ofDeclarations all).overrides,
      o.declarations.WellFormed := by
  intro o member
  have inOrder := List.mem_map_of_mem (f := (·.declarations)) member
  rw [arrange_ofDeclarations] at inOrder
  exact sound _ (mem_overrideFiles_iff.mp inOrder).1

/-- The merged templates of some files. -/
def mergedTemplates (precedence : Precedence) (all : List Declarations) : List Template :=
  (Configuration.ofDeclared precedence (.ofDeclarations all)).templates

/-- Before the merge a key is held by the base files that declare it. -/
theorem holders_start (sound : ∀ d ∈ all, d.WellFormed) (key : ResourceKey) :
    holders (DeclaredFiles.ofDeclarations all).templates key =
      ((baseFiles all).filterMap (·.find? key)).map fun r => (r.file, r) := by
  rw [holders_templates, bases_ofDeclarations]
  rw [bases_ofDeclarations]
  exact fun d member => sound d (mem_baseFiles_iff.mp member).1

/-- It is overridden by the override files that declare it. -/
theorem overridersOf_ofDeclarations (sound : ∀ d ∈ all, d.WellFormed) (precedence : Precedence)
    (key : ResourceKey) :
    overridersOf (mergeSteps precedence (.ofDeclarations all)) key =
      (overrideFiles precedence all).filterMap (·.find? key) := by
  rw [overridersOf_mergeSteps (wellFormed_of_mem_arrange sound), arrange_ofDeclarations]

/-- A key declared in base files stays where it was declared, and its first declaration is
overridden by those of the override files. -/
theorem holders_of_base (sound : ∀ d ∈ all, d.WellFormed)
    (inBases : (baseFiles all).filterMap (·.find? key) = owner :: others) :
    holders (mergedTemplates precedence all) key =
      (owner.file, owner.overriddenByAll
        ((overrideFiles precedence all).filterMap (·.find? key))) ::
          others.map fun r => (r.file, r) := by
  have start := holders_start sound key
  rw [inBases, List.map_cons] at start
  have run := holders_foldl_of_cons (mergeSteps precedence (.ofDeclarations all)) start
  rwa [overridersOf_ofDeclarations sound, ← templates_ofDeclared] at run

/-- A key declared in override files only is held once, and its first declaration is overridden
by the others. -/
theorem holders_of_override (sound : ∀ d ∈ all, d.WellFormed)
    (inBases : (baseFiles all).filterMap (·.find? key) = [])
    (inOverrides : (overrideFiles precedence all).filterMap (·.find? key) =
      owner :: overriding) :
    ∃ home, holders (mergedTemplates precedence all) key =
      [(home, owner.overriddenByAll overriding)] := by
  have start := holders_start sound key
  rw [inBases, List.map_nil] at start
  have run := holders_foldl_of_nil (mergeSteps precedence (.ofDeclarations all)) start
  rw [overridersOf_ofDeclarations sound, ← templates_ofDeclared, inOverrides] at run
  obtain ⟨_, none⟩ | ⟨home, first, later, same, held⟩ := run
  · cases none
  · obtain ⟨rfl, rfl⟩ := List.cons.inj same
    exact ⟨home, held⟩

/-- A key that no file declares is not held. -/
theorem holders_of_undeclared (sound : ∀ d ∈ all, d.WellFormed)
    (inBases : (baseFiles all).filterMap (·.find? key) = [])
    (inOverrides : (overrideFiles precedence all).filterMap (·.find? key) = []) :
    holders (mergedTemplates precedence all) key = [] := by
  have start := holders_start sound key
  rw [inBases, List.map_nil] at start
  have run := holders_foldl_of_nil (mergeSteps precedence (.ofDeclarations all)) start
  rw [overridersOf_ofDeclarations sound, ← templates_ofDeclared, inOverrides] at run
  obtain ⟨held, _⟩ | ⟨_, _, _, same, _⟩ := run
  · exact held
  · cases same

theorem isOverriding_of_mem_baseFiles (sound : ∀ d ∈ all, d.WellFormed) {r : Resource}
    (member : r ∈ (baseFiles all).filterMap (·.find? key)) : r.isOverriding = false := by
  obtain ⟨d, inBases, found⟩ := List.mem_filterMap.mp member
  obtain ⟨inAll, base⟩ := mem_baseFiles_iff.mp inBases
  rw [((sound d inAll).of_find? found).1, base]

theorem isOverriding_of_mem_overrideFiles (sound : ∀ d ∈ all, d.WellFormed) {r : Resource}
    (member : r ∈ (overrideFiles precedence all).filterMap (·.find? key)) :
    r.isOverriding = true := by
  obtain ⟨d, inOverrides, found⟩ := List.mem_filterMap.mp member
  obtain ⟨inAll, overrides⟩ := mem_overrideFiles_iff.mp inOverrides
  rw [((sound d inAll).of_find? found).1, overrides]

end Holders

/-- Where a list falls into members that fail a test and then members that pass it, the test
tells the two parts apart. -/
private theorem filter_append_split {test : Resource → Bool} {front back : List Resource}
    (fails : ∀ r ∈ front, test r = false) (passes : ∀ r ∈ back, test r = true) :
    (front ++ back).filter test = back ∧ (front ++ back).filter (! test ·) = front := by
  constructor
  · rw [List.filter_append, List.filter_eq_self.mpr passes,
      List.filter_eq_nil_iff.mpr fun r member => by simp [fails r member], List.nil_append]
  · rw [List.filter_append, List.filter_eq_self.mpr fun r member => by simp [fails r member],
      List.filter_eq_nil_iff.mpr fun r member => by simp [passes r member], List.append_nil]

/-- **The merge equals its reference semantics.** Let the declarations of a key stand in the
order in which their files take effect. The first one owns the key: it stays where it was
declared, if that was in a base file, and it is merged with the declarations of the override
files behind it. The other declarations of base files are held as they were read, each in the
template of its file, and there are no further holders. -/
theorem load_owner_merged {precedence : Precedence} {set : SourceSet} {c : Configuration}
    (loaded : Configuration.load precedence set = .ok c) :
    ∃ all, set.files.mapM declarationsOf = .ok all ∧ all.Pairwise (·.file < ·.file) ∧
      ∀ key owner later,
        (processingOrder precedence all).filterMap (·.find? key) = owner :: later →
        ∃ home r, IsMergeOf owner (later.filter (·.isOverriding)) r ∧
          (owner.isOverriding = false → home = owner.file) ∧
          holders c.templates key =
            (home, r) ::
              (later.filter (! ·.isOverriding)).map fun other => (other.file, other) := by
  obtain ⟨all, read, rfl⟩ := load_eq_ok loaded
  refine ⟨all, read, ordered_of_mapM read, fun key owner later declared => ?_⟩
  have sound := wellFormed_of_mapM read
  have names : ∀ r ∈ owner :: later, r.attributes.keys.Nodup := by
    intro r member
    rw [← declared] at member
    obtain ⟨d, inOrder, found⟩ := List.mem_filterMap.mp member
    exact ((sound d (mem_processingOrder_iff.mp inOrder)).of_find? found).2
  rw [processingOrder, List.filterMap_append] at declared
  have inOverrides : ∀ r ∈ (overrideFiles precedence all).filterMap (·.find? key),
      r.isOverriding = true := fun _ member => isOverriding_of_mem_overrideFiles sound member
  have inBases : ∀ r ∈ (baseFiles all).filterMap (·.find? key), r.isOverriding = false :=
    fun _ member => isOverriding_of_mem_baseFiles sound member
  -- The owner stands in a base file exactly if any base file declares the key.
  cases bases : (baseFiles all).filterMap (·.find? key) with
  | cons first others =>
    rw [bases] at inBases
    rw [bases, List.cons_append] at declared
    obtain ⟨rfl, rfl⟩ := List.cons.inj declared
    obtain ⟨overriding, kept⟩ :=
      filter_append_split (fun r member => inBases r (.tail _ member)) inOverrides
    rw [overriding, kept]
    refine ⟨first.file, _, isMergeOf_overriddenByAll fun r member => names r ?_, fun _ => rfl,
      holders_of_base sound bases⟩
    rcases List.mem_cons.mp member with rfl | member
    · exact List.mem_cons_self
    · exact List.mem_cons_of_mem _ (List.mem_append_right _ member)
  | nil =>
    -- All declarations are in override files, so the later ones all override the owner.
    rw [bases, List.nil_append] at declared
    rw [declared] at inOverrides
    obtain ⟨overriding, kept⟩ := filter_append_split (List.forall_mem_nil _)
      fun r member => inOverrides r (.tail owner member)
    obtain ⟨home, held⟩ := holders_of_override sound bases declared
    rw [List.nil_append] at overriding kept
    rw [overriding, kept]
    refine ⟨home, _, isMergeOf_overriddenByAll names, fun base => ?_, held⟩
    exact absurd (inOverrides owner List.mem_cons_self) (by simp [base])

/-- Two base files and two override files that declare one key. -/
def sharedKeyFiles : SourceSet := .ofList [
  ⟨"a.tf", "resource \"x\" \"id\" \x7b\n  kept = 1\n  changed = 2\n\x7d\n"⟩,
  ⟨"b.tf", "resource \"x\" \"id\" \x7b\n  other = 3\n\x7d\n"⟩,
  ⟨"a_override.tf", "resource \"x\" \"id\" \x7b\n  changed = 4\n\x7d\n"⟩,
  ⟨"override.tf", "resource \"x\" \"id\" \x7b\n  changed = 5\n  added = 6\n\x7d\n"⟩]

theorem load_sharedKeyFiles (precedence : Precedence) :
    ∃ c, Configuration.load precedence sharedKeyFiles = .ok c := by
  refine eq_ok_of_isSome ?_
  cases precedence with
  | lexical => decide +kernel
  | specificLast => decide +kernel

/-- The declarations of the shared key in four files are merged. -/
theorem load_owner_merged_sharedKeyFiles :
    ∃ c, Configuration.load .specificLast sharedKeyFiles = .ok c ∧
      ∃ all, sharedKeyFiles.files.mapM declarationsOf = .ok all ∧
        ∃ owner later home r,
          (processingOrder .specificLast all).filterMap (·.find? ⟨"x", "id"⟩) = owner :: later ∧
          later.map (·.file) = ["b.tf", "override.tf", "a_override.tf"] ∧
          IsMergeOf owner (later.filter (·.isOverriding)) r ∧
          holders c.templates ⟨"x", "id"⟩ =
            (home, r) ::
              (later.filter (! ·.isOverriding)).map fun other => (other.file, other) := by
  obtain ⟨c, loaded⟩ := load_sharedKeyFiles .specificLast
  obtain ⟨all, read, _, merged⟩ := load_owner_merged loaded
  have files : (sharedKeyFiles.files.mapM declarationsOf).toOption.map
      (fun all => ((processingOrder .specificLast all).filterMap
        (·.find? ⟨"x", "id"⟩)).map (·.file)) =
      some ["a.tf", "b.tf", "override.tf", "a_override.tf"] := by decide +kernel
  rw [read, Except.toOption, Option.map_some, Option.some.injEq] at files
  obtain ⟨owner, later, declared, _, others⟩ := List.map_eq_cons_iff.mp files
  obtain ⟨home, r, isMerge, _, held⟩ := merged _ owner later declared
  refine ⟨c, loaded, all, read, owner, later, home, r, declared, others, isMerge, held⟩

end HclLint.Model
