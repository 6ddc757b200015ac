/-
# Where the order of override files matters

Override files are applied in the order of their names, or with those called `override.tf` ahead
of the others. An attribute of a resource is the one that the last file supplies, so the two
orders disagree on it only where a file called `override.tf` follows another override file by its
name and both supply the attribute. All other resources and attributes come out the same.

## Main definitions

* `attributesHeld`: an attribute in each resource under a key.
* `IsConflict`: two override files that are in conflict over an attribute.

## Main statements

* `exists_isConflict`: attributes that depend on the order are those that files conflict over.
* `overriding_is_action`: the laws of overriding, and what follows for runs of override files and
  for their order.
-/

import HclLint.Proofs.Eval.History
import HclLint.Proofs.Merge.Collapse

namespace HclLint.Model

open HclLint.Text HclLint.Eval

/-! ## The last supplier in two orders -/

/-- A member that stays and one behind it that is moved ahead, which supply different things. -/
structure IsOvertaken {α β : Type} (supplied? : α → Option β) (ahead : α → Bool) (as : List α)
    (a b : α) : Prop where
  listed : [a, b].Sublist as
  stays : ahead a = false
  moves : ahead b = true
  differ : ∃ x y, supplied? a = some x ∧ supplied? b = some y ∧ x ≠ y

section Overtaking

variable {α β : Type} {supplied? : α → Option β} {ahead : α → Bool} {as : List α} {a b : α}

theorem IsOvertaken.append (overtaken : IsOvertaken supplied? ahead as a b) (more : List α) :
    IsOvertaken supplied? ahead (as ++ more) a b :=
  { overtaken with listed := overtaken.listed.trans (List.sublist_append_left as more) }

theorem lastOf_singleton (supplied? : α → Option β) (a : α) :
    lastOf supplied? [a] = supplied? a := by
  rw [lastOf, List.reverse_singleton, List.findSome?_singleton]

/-- Moving some members ahead of the others changes what is supplied last only if one of them
overtakes another member. -/
theorem exists_isOvertaken (differ : lastOf supplied? as ≠
    lastOf supplied? (as.filter ahead ++ as.filter (! ahead ·))) :
    ∃ a b, IsOvertaken supplied? ahead as a b := by
  induction as using List.reverseRecOn with
  | nil => exact absurd rfl differ
  | append_singleton as last ih =>
    rw [List.filter_append, List.filter_append, lastOf_append, lastOf_singleton] at differ
    cases kind : ahead last with
    | false =>
      -- The last member stays the last one, so it supplies nothing and those before it differ.
      have taken : [last].filter ahead = [] := by simp [kind]
      have left : [last].filter (! ahead ·) = [last] := by simp [kind]
      rw [taken, left, List.append_nil, ← List.append_assoc, lastOf_append,
        lastOf_singleton] at differ
      have before : lastOf supplied? as ≠
          lastOf supplied? (as.filter ahead ++ as.filter (! ahead ·)) :=
        fun same => differ (by rw [same])
      obtain ⟨a, b, overtaken⟩ := ih before
      exact ⟨a, b, overtaken.append [last]⟩
    | true =>
      -- The last member comes to stand between the two kinds.
      have taken : [last].filter ahead = [last] := by simp [kind]
      have left : [last].filter (! ahead ·) = [] := by simp [kind]
      rw [taken, left, List.append_nil, lastOf_append, lastOf_append, lastOf_singleton] at differ
      cases here : supplied? last with
      | none =>
        rw [here, Option.none_or, Option.none_or, ← lastOf_append] at differ
        obtain ⟨a, b, overtaken⟩ := ih differ
        exact ⟨a, b, overtaken.append [last]⟩
      | some y =>
        rw [here, Option.some_or, Option.some_or] at differ
        cases behind : lastOf supplied? (as.filter (! ahead ·)) with
        | none =>
          rw [behind, Option.none_or] at differ
          exact absurd rfl differ
        | some x =>
          -- A member that the last one has overtaken is now the last to supply anything.
          rw [behind, Option.some_or] at differ
          obtain ⟨a, member, given⟩ := List.exists_of_findSome?_eq_some behind
          obtain ⟨member, other⟩ := List.mem_filter.mp (List.mem_reverse.mp member)
          refine ⟨a, last, ?_, by simpa using other, kind, x, y, given, here, ?_⟩
          · exact (List.singleton_sublist.mpr member).append (List.Sublist.refl [last])
          · exact fun same => differ (congrArg some same.symm)

end Overtaking

/-! ## Files in conflict -/

section Files

variable {precedence : Precedence} {all : List Declarations} {key : ResourceKey} {name : String}
  {owner : Resource} {others : List Resource}

/-- What a file gives as an attribute of the resource under a key. -/
def Declarations.attribute? (d : Declarations) (key : ResourceKey) (name : String) :
    Option Attribute :=
  (d.find? key).bind (·.attribute? name)

/-- Two override files in conflict over an attribute of a resource: both supply it, not in the
same way, and one called `override.tf` follows one of another name. -/
structure IsConflict (all : List Declarations) (key : ResourceKey) (name : String)
    (specific general : Declarations) : Prop where
  listed : [specific, general].Sublist all
  before : specific.file < general.file
  overrides : specific.isOverride = true
  is_specific : specific.isGeneral = false
  is_general : general.isGeneral = true
  differ : ∃ a b, specific.attribute? key name = some a ∧
    general.attribute? key name = some b ∧ a ≠ b

theorem overrideFiles_specificLast (all : List Declarations) :
    overrideFiles .specificLast all =
      (overrideFiles .lexical all).filter (·.isGeneral) ++
        (overrideFiles .lexical all).filter (! ·.isGeneral) := by
  rw [overrideFiles, overrideFiles, List.filter_filter, List.filter_filter]
  congr 1
  · refine List.filter_congr fun d _ => ?_
    cases general : d.isGeneral with
    | false => rfl
    | true => rw [isOverride_of_isGeneral general]; rfl
  · exact List.filter_congr fun d _ => Bool.and_comm _ _

/-- Files whose order makes a difference to an attribute conflict over it. -/
theorem exists_isConflict_of_lastOf_ne (ordered : all.Pairwise (·.file < ·.file))
    (differ : lastOf (·.attribute? key name) (overrideFiles .lexical all) ≠
      lastOf (·.attribute? key name) (overrideFiles .specificLast all)) :
    ∃ specific general, IsConflict all key name specific general := by
  rw [overrideFiles_specificLast] at differ
  obtain ⟨specific, general, overtaken⟩ := exists_isOvertaken differ
  have listed : [specific, general].Sublist all := overtaken.listed.trans List.filter_sublist
  have before := List.rel_of_pairwise_cons (ordered.sublist listed) (List.mem_singleton_self _)
  have overrides := (mem_overrideFiles_iff.mp (overtaken.listed.mem List.mem_cons_self)).2
  exact ⟨specific, general, listed, before, overrides, overtaken.stays, overtaken.moves,
    overtaken.differ⟩

/-! ## The attributes that are held -/

/-- An attribute in each resource under a key, over all templates. -/
def attributesHeld (templates : List Template) (key : ResourceKey) (name : String) :
    List (Option Attribute) :=
  (holders templates key).map (·.2.attribute? name)

theorem findSome?_reverse_filterMap (files : List Declarations) (key : ResourceKey)
    (name : String) :
    (files.filterMap (·.find? key)).reverse.findSome? (·.attribute? name) =
      lastOf (·.attribute? key name) files := by
  rw [lastOf, ← List.getLast?_filterMap, ← List.getLast?_filterMap, List.filterMap_filterMap]
  rfl

theorem nodup_names_of_mem_filterMap (sound : ∀ d ∈ all, d.WellFormed)
    {files : List Declarations} (part : files ⊆ all) :
    ∀ r ∈ files.filterMap (·.find? key), r.attributes.keys.Nodup := by
  intro r member
  obtain ⟨d, listed, found⟩ := List.mem_filterMap.mp member
  exact ((sound d (part listed)).of_find? found).2

theorem baseFiles_subset (all : List Declarations) : baseFiles all ⊆ all :=
  fun _ member => (mem_baseFiles_iff.mp member).1

theorem overrideFiles_subset (precedence : Precedence) (all : List Declarations) :
    overrideFiles precedence all ⊆ all :=
  fun _ member => (mem_overrideFiles_iff.mp member).1

/-- Where base files declare a key, the first of them supplies what no override file does. -/
theorem attributesHeld_of_base (sound : ∀ d ∈ all, d.WellFormed)
    (inBases : (baseFiles all).filterMap (·.find? key) = owner :: others) :
    attributesHeld (mergedTemplates precedence all) key name =
      (lastOf (·.attribute? key name) (overrideFiles precedence all)).or
        (owner.attribute? name) :: others.map (·.attribute? name) := by
  have inBase := nodup_names_of_mem_filterMap sound (baseFiles_subset all) owner
    (inBases ▸ List.mem_cons_self)
  have inOverrides : ∀ r ∈ (overrideFiles precedence all).filterMap (·.find? key),
      r.attributes.keys.Nodup := nodup_names_of_mem_filterMap sound (overrideFiles_subset _ all)
  have distinct : ∀ r ∈ owner :: (overrideFiles precedence all).filterMap (·.find? key),
      r.attributes.keys.Nodup := List.forall_mem_cons.mpr ⟨inBase, inOverrides⟩
  rw [attributesHeld, holders_of_base sound inBases, List.map_cons, List.map_map,
    (isMergeOf_overriddenByAll distinct).attribute?, List.reverse_cons, List.findSome?_append,
    findSome?_reverse_filterMap, List.findSome?_singleton]
  rfl

/-- Where only override files declare a key, its one resource has what they supply. -/
theorem attributesHeld_of_override (sound : ∀ d ∈ all, d.WellFormed)
    (inBases : (baseFiles all).filterMap (·.find? key) = [])
    (inOverrides : (overrideFiles precedence all).filterMap (·.find? key) ≠ []) :
    attributesHeld (mergedTemplates precedence all) key name =
      [lastOf (·.attribute? key name) (overrideFiles precedence all)] := by
  obtain ⟨owner, later, declared⟩ := List.exists_cons_of_ne_nil inOverrides
  obtain ⟨home, held⟩ := holders_of_override sound inBases declared
  have distinct : ∀ r ∈ owner :: later, r.attributes.keys.Nodup :=
    declared ▸ nodup_names_of_mem_filterMap sound (overrideFiles_subset precedence all)
  rw [attributesHeld, held, List.map_singleton, (isMergeOf_overriddenByAll distinct).attribute?,
    ← declared, findSome?_reverse_filterMap]

/-- Two orders hold the same where the last files that supply the attribute agree. -/
theorem attributesHeld_congr {precedence' : Precedence} (sound : ∀ d ∈ all, d.WellFormed)
    (same : lastOf (·.attribute? key name) (overrideFiles precedence all) =
      lastOf (·.attribute? key name) (overrideFiles precedence' all)) :
    attributesHeld (mergedTemplates precedence all) key name =
      attributesHeld (mergedTemplates precedence' all) key name := by
  cases bases : (baseFiles all).filterMap (·.find? key) with
  | cons owner others =>
    rw [attributesHeld_of_base sound bases, attributesHeld_of_base sound bases, same]
  | nil =>
    -- Which override files declare the key does not depend on their order.
    have undeclared_iff : ∀ precedence,
        (overrideFiles precedence all).filterMap (·.find? key) = [] ↔
          ∀ d ∈ all, d.isOverride = true → d.declares key = false := by
      intro precedence
      rw [filterMap_find?_eq_nil_iff]
      simp only [mem_overrideFiles_iff, and_imp]
    by_cases undeclared : ∀ d ∈ all, d.isOverride = true → d.declares key = false
    · rw [attributesHeld, attributesHeld,
        holders_of_undeclared sound bases ((undeclared_iff precedence).mpr undeclared),
        holders_of_undeclared sound bases ((undeclared_iff precedence').mpr undeclared)]
    · have declared := fun precedence => mt (undeclared_iff precedence).mp undeclared
      rw [attributesHeld_of_override sound bases (declared precedence),
        attributesHeld_of_override sound bases (declared precedence'), same]

/-- **The order of the override files matters only where two of them conflict.** -/
theorem exists_isConflict (sound : ∀ d ∈ all, d.WellFormed)
    (ordered : all.Pairwise (·.file < ·.file))
    (differ : attributesHeld (mergedTemplates .lexical all) key name ≠
      attributesHeld (mergedTemplates .specificLast all) key name) :
    ∃ specific general, IsConflict all key name specific general :=
  exists_isConflict_of_lastOf_ne ordered (mt (attributesHeld_congr sound) differ)

end Files

/-! ## The main result -/

theorem load_of_mapM {set : SourceSet} {all : List Declarations}
    (read : set.files.mapM declarationsOf = .ok all) (precedence : Precedence) :
    Configuration.load precedence set = .ok (.ofDeclared precedence (.ofDeclarations all)) := by
  rw [Configuration.load, declaredFiles, read]
  rfl

/-- **Overriding is a well-behaved action**, by resources in which no attribute comes twice, as it
is with all that are read. So any run of consecutive override files may be collapsed for a
resource, into one declaration of it, without any change to the templates that come of it. And
where the precedence of override files makes a difference to an attribute of a resource, two of
them conflict over it. -/
theorem overriding_is_action :
    IsWellBehaved Resource.overriddenBy ∧
    (∀ key run, IsCollapseOf key run (collapsed key run)) ∧
    ∀ precedence set c, Configuration.load precedence set = .ok c →
      ∃ all lexical specificLast, set.files.mapM declarationsOf = .ok all ∧
        Configuration.load .lexical set = .ok lexical ∧
        Configuration.load .specificLast set = .ok specificLast ∧
        (∀ d ∈ all, ∀ r ∈ d.resources, r.attributes.keys.Nodup) ∧
        MayBeCollapsed (precedence.arrange (DeclaredFiles.ofDeclarations all).overrides)
          (DeclaredFiles.ofDeclarations all).templates c.templates ∧
        ∀ key name, attributesHeld lexical.templates key name ≠
            attributesHeld specificLast.templates key name →
          ∃ specific general, IsConflict all key name specific general := by
  refine ⟨isWellBehaved_overriddenBy, isCollapseOf_collapsed, fun precedence set c loaded => ?_⟩
  obtain ⟨all, read, rfl⟩ := load_eq_ok loaded
  have sound := wellFormed_of_mapM read
  refine ⟨all, _, _, read, load_of_mapM read .lexical, load_of_mapM read .specificLast,
    fun d member => (sound d member).distinct_names, ?_, fun key name differ => ?_⟩
  · exact mayBeCollapsed_foldl (wellFormed_of_mem_arrange sound) _
  · exact exists_isConflict sound (ordered_of_mapM read) differ

/-- A resource with some attributes, all of which are given in its own file. -/
def resourceGiving (file : String) (names : List String) : Resource :=
  ⟨file, ⟨"x", "id"⟩, ⟨file, 0, 1, 1⟩,
    names.map fun name => (name, ⟨⟨⟨file, 0, 1, 1⟩, .list []⟩, []⟩)⟩

/-- The file that the shared resource has its changed attribute from depends on the precedence. -/
theorem origins_sharedKeyFiles {precedence : Precedence} {c : Configuration}
    (loaded : Configuration.load precedence sharedKeyFiles = .ok c) :
    (attributesHeld c.templates ⟨"x", "id"⟩ "changed").map (·.map (·.first.position.file)) =
      [some (if precedence = .lexical then "override.tf" else "a_override.tf"), none] := by
  have holds : (Configuration.load precedence sharedKeyFiles).toOption.any (fun c =>
      (attributesHeld c.templates ⟨"x", "id"⟩ "changed").map (·.map (·.first.position.file)) ==
        [some (if precedence = .lexical then "override.tf" else "a_override.tf"), none]) = true := by
    cases precedence with
    | lexical => decide +kernel
    | specificLast => decide +kernel
  rw [loaded] at holds
  exact beq_iff_eq.mp holds

/-- The override files that declare the shared resource, and that they declare nothing else. -/
theorem overrides_sharedKeyFiles {all : List Declarations}
    (read : sharedKeyFiles.files.mapM declarationsOf = .ok all) :
    (Precedence.specificLast.arrange (DeclaredFiles.ofDeclarations all).overrides).map
        (fun o => (o.declarations.file, o.declarations.resources.map (·.key))) =
      [("override.tf", [⟨"x", "id"⟩]), ("a_override.tf", [⟨"x", "id"⟩])] := by
  have holds : (sharedKeyFiles.files.mapM declarationsOf).toOption.any (fun all =>
      (Precedence.specificLast.arrange (DeclaredFiles.ofDeclarations all).overrides).map
          (fun o => (o.declarations.file, o.declarations.resources.map (·.key))) ==
        [("override.tf", [⟨"x", "id"⟩]), ("a_override.tf", [⟨"x", "id"⟩])]) = true := by
    decide +kernel
  rw [read] at holds
  exact beq_iff_eq.mp holds

/-- The laws for a resource and two that override it, and two override files that are collapsed
into one and that conflict. -/
theorem overriding_is_action_sharedKeyFiles :
    (∃ r a b, r = resourceGiving "a.tf" ["kept", "changed"] ∧
      a = resourceGiving "a_override.tf" ["changed", "new"] ∧
      b = resourceGiving "override.tf" ["added"] ∧
      (r.overriddenBy a).attribute? "kept" = r.attribute? "kept" ∧
      (r.overriddenBy a).attribute? "changed" = a.attribute? "changed" ∧
      (r.overriddenBy a).attributes.keys = ["kept", "changed", "new"] ∧
      (r.overriddenBy a).overriddenBy b = r.overriddenBy (a.overriddenBy b) ∧
      (r.overriddenBy a).overriddenBy a = r.overriddenBy a ∧
      ((r.overriddenBy a).overriddenBy b).attributes.Perm
        ((r.overriddenBy b).overriddenBy a).attributes) ∧
    ∃ c, Configuration.load .specificLast sharedKeyFiles = .ok c ∧
      ∃ all first later, sharedKeyFiles.files.mapM declarationsOf = .ok all ∧
        Precedence.specificLast.arrange (DeclaredFiles.ofDeclarations all).overrides =
          [first, later] ∧
        first.declarations.file = "override.tf" ∧ later.declarations.file = "a_override.tf" ∧
        c.templates = applyOverrides (DeclaredFiles.ofDeclarations all).templates
          (first.gathering ⟨"x", "id"⟩
            ([later].filterMap (·.declarations.find? ⟨"x", "id"⟩))) ∧
        ∃ specific general, IsConflict all ⟨"x", "id"⟩ "changed" specific general := by
  obtain ⟨laws, _, runs⟩ := overriding_is_action
  refine ⟨⟨_, _, _, rfl, rfl, rfl, laws.kept _ _ _ (by decide),
    laws.replaced _ _ _ (by decide) (by decide), laws.names _ _ (by decide),
    laws.assoc _ _ _ (by decide), laws.idempotent _ _ (by decide),
    laws.comm _ _ _ (by decide) (by simp [resourceGiving, Entries.keys])⟩, ?_⟩
  obtain ⟨c, loaded⟩ := load_sharedKeyFiles .specificLast
  obtain ⟨all, lexical, specificLast, read, loadedLexical, loadedSpecificLast, _, collapsing,
    conflicting⟩ := runs _ _ c loaded
  -- The two override files are what `overrides_sharedKeyFiles` says of them.
  obtain ⟨first, run, arranged, sameFirst, sameRun⟩ :=
    List.map_eq_cons_iff.mp (overrides_sharedKeyFiles read)
  obtain ⟨later, none, rfl, sameLater, nothing⟩ := List.map_eq_cons_iff.mp sameRun
  obtain rfl := List.map_eq_nil_iff.mp nothing
  obtain ⟨firstFile, firstKeys⟩ := Prod.mk.inj sameFirst
  obtain ⟨laterFile, laterKeys⟩ := Prod.mk.inj sameLater
  have declares : first.declarations.declares ⟨"x", "id"⟩ = true := by
    have listed : ⟨"x", "id"⟩ ∈ first.declarations.resources.map (·.key) := by
      rw [firstKeys]
      exact List.mem_singleton_self _
    obtain ⟨r, member, same⟩ := List.mem_map.mp listed
    exact List.any_eq_true.mpr ⟨r, member, beq_iff_eq.mpr same⟩
  have alone : ∀ d ∈ [later], ∀ r ∈ d.declarations.resources, r.key = ⟨"x", "id"⟩ := by
    intro d member r declared
    obtain rfl := List.mem_singleton.mp member
    have listed := List.mem_map_of_mem (f := (·.key)) declared
    rw [laterKeys] at listed
    exact List.mem_singleton.mp listed
  -- They conflict because the two orders take the attribute from different files.
  refine ⟨c, loaded, all, first, later, read, arranged, firstFile, laterFile,
    collapsing.to_file _ [] first [later] [] arranged declares alone,
    conflicting _ _ fun same => ?_⟩
  have origins := origins_sharedKeyFiles loadedLexical
  rw [same, origins_sharedKeyFiles loadedSpecificLast] at origins
  exact absurd origins (by decide)

end HclLint.Model
