/-
# Where a configuration's values come from

Every attribute of a configuration is what a resource block of some file of the set gives under
its name, whatever was overridden by what, and its position is where that expression or nested
block starts. Defaults come from variable blocks, and values from files from assignments of those
files. All tokens in them stand where they say, with their own text.

## Main definitions

* `Occurrence.IsReadFrom`: an attribute as a resource block of a file gives it.
* `Value.IsDefaultIn`, `Value.IsAssignedIn`: a value as a file gives it to a variable.

## Main statements

* `mem_applyOverride`: the resources that are held after one overriding resource.
* `load_values_located`: where all values of a configuration come from and stand.
-/

import HclLint.Proofs.Merge.Reference
import HclLint.Proofs.Provenance.Value

namespace HclLint.Model

open HclLint.Text HclLint.Hcl HclLint.Eval

/-- The occurrence is what a structure with the name gives in a block of the file that declares
the key, and its position is where the structure's expression or the nested block itself
starts. -/
def Occurrence.IsReadFrom (source : Source) (key : ResourceKey) (name : String)
    (o : Occurrence) : Prop :=
  ∃ body start inner item, bodyOf source = .ok body ∧
    Item.block start "resource" [key.type, key.id] inner ∈ body ∧ item ∈ inner ∧
    item.name = name ∧ o.value = Value.ofItem source item ∧
    source.Shows o.position item.lead.text

/-- The value is the default that a block of the file declares for the variable. -/
def Value.IsDefaultIn (source : Source) (name : String) (value : Value) : Prop :=
  ∃ body start inner e, bodyOf source = .ok body ∧
    Item.block start "variable" [name] inner ∈ body ∧ Item.attribute "default" e ∈ inner ∧
    value = Value.ofExpr source e

/-- The value is what the file assigns to the variable. -/
def Value.IsAssignedIn (source : Source) (name : String) (value : Value) : Prop :=
  ∃ body e, bodyOf source = .ok body ∧ Item.attribute name e ∈ body ∧
    value = Value.ofExpr source e

/-- Every attribute of the resource was given in one of the files, and all of its tokens stand
there. -/
def Resource.IsReadFrom (files : List Source) (r : Resource) : Prop :=
  ∀ name a, (name, a) ∈ r.attributes → ∀ o ∈ a.occurrences,
    ∃ source ∈ files, o.IsReadFrom source r.key name ∧ o.value.StandsIn source

/-- The default of the variable was declared in one of the files, and all of its tokens stand
there. -/
def Variable.IsReadFrom (files : List Source) (v : Variable) : Prop :=
  ∀ value, v.default? = some value →
    ∃ source ∈ files, value.IsDefaultIn source v.name ∧ value.StandsIn source

/-! ## What a file declares -/

section Files

variable {source : Source} {files : List Source}

/-- Every occurrence of an attribute is one structure of the block. -/
theorem mem_attributesOf {body : Body} {name : String} {a : Attribute} {o : Occurrence}
    (member : (name, a) ∈ attributesOf source body) (given : o ∈ a.occurrences) :
    ∃ item ∈ body, item.name = name ∧
      o = ⟨source.positionAt item.start, Value.ofItem source item⟩ := by
  rw [occurrences_of_mem_attributesOf member] at given
  obtain ⟨item, named, rfl⟩ := List.mem_map.mp given
  obtain ⟨inBody, named⟩ := List.mem_filter.mp named
  exact ⟨item, inBody, beq_iff_eq.mp named, (occurrenceOf_eq source item).symm⟩

/-- A declared resource is read from its file. -/
theorem isReadFrom_of_resourceOf {body inner : Body} {start : Nat} {labels : List String}
    {r : Resource} (read : bodyOf source = .ok body)
    (member : Item.block start "resource" labels inner ∈ body)
    (made : resourceOf source start labels inner = .ok r) (known : source ∈ files) :
    r.IsReadFrom files := by
  unfold resourceOf at made
  split at made
  · obtain rfl := Except.ok.inj made
    have block := isIn_of_bodyOf read _ member
    obtain _ | ⟨_, _, inside⟩ := block
    intro name a inAttributes o given
    obtain ⟨item, inBlock, named, rfl⟩ := mem_attributesOf inAttributes given
    have shows := shows_of_isIn (inside item inBlock).lead
    rw [Item.lead_start] at shows
    refine ⟨source, known, ?_, standsIn_ofItem (inside item inBlock)⟩
    exact ⟨body, start, inner, item, read, member, inBlock, named, rfl, shows⟩
  · cases made

theorem exists_of_attributeValue? {name : String} {body : Body} {value : Value}
    (found : attributeValue? source name body = some value) :
    ∃ e, Item.attribute name e ∈ body ∧ value = Value.ofExpr source e := by
  induction body with
  | nil => cases found
  | cons item body ih =>
    match item with
    | .attribute key e =>
      rw [attributeValue?] at found
      split at found
      · next same =>
        subst same
        exact ⟨e, List.mem_cons_self, (Option.some.inj found).symm⟩
      · obtain ⟨e', later, same⟩ := ih found
        exact ⟨e', .tail _ later, same⟩
    | .block .. =>
      obtain ⟨e, later, same⟩ := ih found
      exact ⟨e, .tail _ later, same⟩

/-- A declared variable is read from its file. -/
theorem isReadFrom_of_variableOf {body inner : Body} {start : Nat} {labels : List String}
    {v : Variable} (read : bodyOf source = .ok body)
    (member : Item.block start "variable" labels inner ∈ body)
    (made : variableOf source start labels inner = .ok v) (known : source ∈ files) :
    v.IsReadFrom files := by
  unfold variableOf at made
  split at made
  · obtain rfl := Except.ok.inj made
    have block := isIn_of_bodyOf read _ member
    obtain _ | ⟨_, _, inside⟩ := block
    intro value found
    obtain ⟨e, inBlock, rfl⟩ := exists_of_attributeValue? found
    refine ⟨source, known, ?_, standsIn_ofItem (inside _ inBlock)⟩
    exact ⟨body, start, inner, e, read, member, inBlock, rfl⟩
  · cases made

/-- All that a file declares is read from it. -/
theorem isReadFrom_of_declarationsOf {d : Declarations} (read : declarationsOf source = .ok d)
    (known : source ∈ files) :
    (∀ r ∈ d.resources, r.IsReadFrom files) ∧ ∀ v ∈ d.vars, v.IsReadFrom files := by
  obtain ⟨body, taken, resources, vars⟩ := made_of_declarationsOf read
  refine ⟨fun r member => ?_, fun v member => ?_⟩
  · obtain ⟨start, labels, inner, inBody, made⟩ := resources r member
    exact isReadFrom_of_resourceOf taken inBody made known
  · obtain ⟨start, labels, inner, inBody, made⟩ := vars v member
    exact isReadFrom_of_variableOf taken inBody made known

theorem isReadFrom_of_mapM {all : List Declarations}
    (read : files.mapM declarationsOf = .ok all) :
    ∀ d ∈ all, (∀ r ∈ d.resources, r.IsReadFrom files) ∧ ∀ v ∈ d.vars, v.IsReadFrom files := by
  intro d member
  obtain ⟨source, known, declared⟩ := exists_of_mapM read member
  exact isReadFrom_of_declarationsOf declared known

end Files

/-! ## The merge -/

section Merge

variable {templates : List Template} {r held : Resource}
  {good : ResourceKey → String → Attribute → Prop}

theorem mem_updateFirst {α : Type} {test : α → Bool} {change : α → α} {as : List α} {b : α}
    (member : b ∈ updateFirst test change as) :
    b ∈ as ∨ ∃ a ∈ as, test a = true ∧ b = change a := by
  induction as with
  | nil => cases member
  | cons a as ih =>
    rw [updateFirst] at member
    split at member
    · next passes =>
      rcases List.mem_cons.mp member with same | member
      · exact .inr ⟨a, List.mem_cons_self, passes, same⟩
      · exact .inl (.tail a member)
    · rcases List.mem_cons.mp member with same | member
      · exact .inl (same ▸ List.mem_cons_self)
      · rcases ih member with old | ⟨x, old, passes, same⟩
        · exact .inl (.tail a old)
        · exact .inr ⟨x, .tail a old, passes, same⟩

/-- A resource that is held after an overriding one was held before, is the overriding one
itself, or is one with its key that it has overridden. -/
theorem mem_applyOverride {home : Option String} {file : String} {t : Template}
    (inTemplates : t ∈ applyOverride home file templates r) (member : held ∈ t.resources) :
    (∃ before ∈ templates, held ∈ before.resources) ∨ held = r ∨
      ∃ before ∈ templates, ∃ owner ∈ before.resources,
        owner.key = r.key ∧ held = owner.overriddenBy r := by
  unfold applyOverride at inTemplates
  split at inTemplates
  · rcases mem_updateFirst inTemplates with old | ⟨before, old, _, rfl⟩
    · exact .inl ⟨t, old, member⟩
    · rcases mem_updateFirst member with kept | ⟨owner, kept, same, rfl⟩
      · exact .inl ⟨before, old, kept⟩
      · exact .inr (.inr ⟨before, old, owner, kept, beq_iff_eq.mp same, rfl⟩)
  · unfold addTo at inTemplates
    split at inTemplates
    · rcases mem_updateFirst inTemplates with old | ⟨before, old, _, rfl⟩
      · exact .inl ⟨t, old, member⟩
      · rcases List.mem_append.mp member with kept | added
        · exact .inl ⟨before, old, kept⟩
        · exact .inr (.inl (List.mem_singleton.mp added))
    · rcases List.mem_append.mp inTemplates with old | added
      · exact .inl ⟨t, old, member⟩
      · rw [List.mem_singleton.mp added] at member
        exact .inr (.inl (List.mem_singleton.mp member))

/-- Every attribute of the resource has a property, with the resource's key and its own name. -/
def Resource.Each (good : ResourceKey → String → Attribute → Prop) (r : Resource) : Prop :=
  ∀ name a, (name, a) ∈ r.attributes → good r.key name a

/-- Overriding a resource by one with the same key makes no new attributes. -/
theorem each_overriddenBy {owner : Resource} (own : owner.Each good) (other : r.Each good)
    (same : owner.key = r.key) : (owner.overriddenBy r).Each good := by
  intro name a member
  rw [Resource.overriddenBy_attributes] at member
  rw [Resource.overriddenBy_key]
  rcases Entries.mem_putAll member with new | old
  · rw [same]
    exact other name a new
  · exact own name a old

/-- No step of the merge makes new attributes. -/
theorem each_applyOverride {home : Option String} {file : String}
    (before : ∀ t ∈ templates, ∀ held ∈ t.resources, held.Each good) (new : r.Each good) :
    ∀ t ∈ applyOverride home file templates r, ∀ held ∈ t.resources, held.Each good := by
  intro t inTemplates held member
  obtain ⟨old, inOld, kept⟩ | rfl | ⟨old, inOld, owner, kept, same, rfl⟩ :=
    mem_applyOverride inTemplates member
  · exact before old inOld held kept
  · exact new
  · exact each_overriddenBy (before old inOld owner kept) new same

theorem each_foldl_applyStep {steps : List (Overrides × Resource)}
    (before : ∀ t ∈ templates, ∀ held ∈ t.resources, held.Each good)
    (new : ∀ step ∈ steps, step.2.Each good) :
    ∀ t ∈ steps.foldl applyStep templates, ∀ held ∈ t.resources, held.Each good := by
  induction steps generalizing templates with
  | nil => exact before
  | cons step steps ih =>
    obtain ⟨first, others⟩ := List.forall_mem_cons.mp new
    exact ih (each_applyOverride before first) others

end Merge

/-! ## The whole configuration -/

section Load

variable {precedence : Precedence} {files : List Source} {all : List Declarations}

/-- The attributes of a configuration's resources are attributes of declared resources. -/
theorem each_templates_ofDeclared (good : ResourceKey → String → Attribute → Prop)
    (sound : ∀ d ∈ all, ∀ r ∈ d.resources, r.Each good) :
    ∀ t ∈ (Configuration.ofDeclared precedence (.ofDeclarations all)).templates,
      ∀ r ∈ t.resources, r.Each good := by
  rw [templates_ofDeclared]
  refine each_foldl_applyStep ?_ ?_
  · intro t inTemplates r member
    obtain ⟨d, inBases, rfl⟩ := List.mem_map.mp inTemplates
    rw [bases_ofDeclarations] at inBases
    exact sound d (mem_baseFiles_iff.mp inBases).1 r member
  · intro step inSteps
    obtain ⟨o, applied, brought⟩ := List.mem_flatMap.mp inSteps
    obtain ⟨r, member, rfl⟩ := List.mem_map.mp brought
    have inOverrides := List.mem_map_of_mem (f := (·.declarations)) applied
    rw [arrange_ofDeclarations] at inOverrides
    exact sound _ (mem_overrideFiles_iff.mp inOverrides).1 r member

theorem isReadFrom_templates_ofDeclared
    (sound : ∀ d ∈ all, ∀ r ∈ d.resources, r.IsReadFrom files) :
    ∀ t ∈ (Configuration.ofDeclared precedence (.ofDeclarations all)).templates,
      ∀ r ∈ t.resources, r.IsReadFrom files :=
  each_templates_ofDeclared (fun key name a => ∀ o ∈ a.occurrences,
    ∃ source ∈ files, o.IsReadFrom source key name ∧ o.value.StandsIn source) sound

theorem fromFiles_foldl_declare (vars : List Variable) (table : VariableTable) :
    (vars.foldl VariableTable.declare table).fromFiles = table.fromFiles := by
  induction vars generalizing table with
  | nil => rfl
  | cons v vars ih => exact ih (table.declare v)

/-- A variable that is in a table was declared under its name, or was there before. -/
theorem mem_declared_of_foldl {vars : List Variable} {table : VariableTable} {name : String}
    {v : Variable} (member : (name, v) ∈ (vars.foldl VariableTable.declare table).declared) :
    (v ∈ vars ∧ v.name = name) ∨ (name, v) ∈ table.declared := by
  induction vars generalizing table with
  | nil => exact .inr member
  | cons other vars ih =>
    obtain ⟨later, named⟩ | before := ih member
    · exact .inl ⟨.tail other later, named⟩
    · rcases Entries.mem_put before with same | before
      · obtain ⟨rfl, rfl⟩ := Prod.mk.inj same
        exact .inl ⟨List.mem_cons_self, rfl⟩
      · exact .inr before

theorem isReadFrom_table_ofDeclared (sound : ∀ d ∈ all, ∀ v ∈ d.vars, v.IsReadFrom files)
    {name : String} {v : Variable}
    (member : (name, v) ∈
      (Configuration.ofDeclared precedence (.ofDeclarations all)).table.declared) :
    v.name = name ∧ v.IsReadFrom files := by
  obtain ⟨declared, named⟩ | ⟨⟨⟩⟩ := mem_declared_of_foldl member
  rw [vars_ofDeclarations] at declared
  obtain ⟨d, inOrder, here⟩ := List.mem_flatMap.mp declared
  exact ⟨named, sound d (mem_processingOrder_iff.mp inOrder) v here⟩

end Load

/-! ## Files of assignments -/

section Assignments

variable {table after : VariableTable} {source : Source} {files : List Source}

theorem assignFile_eq_ok (assigned : table.assignFile source = .ok after) :
    ∃ values, assignmentsOf source = .ok values ∧
      after = { table with fromFiles := table.fromFiles.putAll values } := by
  obtain ⟨values, read, done⟩ := except_bind_eq_ok.mp assigned
  exact ⟨values, read, (Except.ok.inj done).symm⟩

/-- An assignment of a file is one of its structures. -/
theorem isAssignedIn_of_mem {values : List (String × Value)} {name : String} {value : Value}
    (read : assignmentsOf source = .ok values) (member : (name, value) ∈ values) :
    value.IsAssignedIn source name ∧ value.StandsIn source := by
  obtain ⟨body, taken, mapped⟩ := except_bind_eq_ok.mp read
  obtain ⟨item, inBody, assigned⟩ := exists_of_mapM mapped member
  match item with
  | .attribute _ e =>
    obtain ⟨rfl, rfl⟩ := Prod.mk.inj (Except.ok.inj assigned)
    exact ⟨⟨body, e, taken, inBody, rfl⟩, standsIn_ofItem (isIn_of_bodyOf taken _ inBody)⟩
  | .block .. => cases assigned

theorem declared_of_foldlM_assignFile
    (assigned : files.foldlM VariableTable.assignFile table = .ok after) :
    after.declared = table.declared := by
  refine foldlM_invariant (fun t => t.declared = table.declared) ?_ rfl assigned
  intro before source next same here
  obtain ⟨values, _, rfl⟩ := assignFile_eq_ok here
  exact same

/-- Every value that some files have given is assigned in one of them. -/
theorem isAssignedIn_of_foldlM {name : String} {value : Value}
    (assigned : files.foldlM VariableTable.assignFile table = .ok after)
    (member : (name, value) ∈ after.fromFiles) :
    (∃ source ∈ files, value.IsAssignedIn source name ∧ value.StandsIn source) ∨
      (name, value) ∈ table.fromFiles := by
  induction files generalizing table with
  | nil =>
    obtain rfl := Except.ok.inj assigned
    exact .inr member
  | cons source files ih =>
    rw [List.foldlM_cons] at assigned
    obtain ⟨next, here, rest⟩ := except_bind_eq_ok.mp assigned
    obtain ⟨values, read, rfl⟩ := assignFile_eq_ok here
    obtain ⟨other, later, given⟩ | before := ih rest
    · exact .inl ⟨other, .tail source later, given⟩
    · rcases Entries.mem_putAll before with new | old
      · exact .inl ⟨source, List.mem_cons_self, isAssignedIn_of_mem read new⟩
      · exact .inr old

end Assignments

/-- **Every token that is kept points at its own text.** Take the configuration of a set of
files, in either order of the override files, and then some files of assignments that are all
accepted. Every occurrence of an attribute was given in a file of the set under the key of its
resource, and its position is the start of its expression or nested block there. Every default
was declared in a file of the set, and every assigned value in a file of assignments. Each token
in these values, at any depth, stands in that very file at its position: the file bears the
name, and the text is there at the offset, which lies in the line and column that are given. -/
theorem load_values_located {precedence : Precedence} {set : SourceSet} {c : Configuration}
    {varFiles : List Source} {table : VariableTable}
    (loaded : Configuration.load precedence set = .ok c)
    (assigned : varFiles.foldlM VariableTable.assignFile c.table = .ok table) :
    (∀ t ∈ c.templates, ∀ r ∈ t.resources, ∀ name a, (name, a) ∈ r.attributes →
      ∀ o ∈ a.occurrences, ∃ source ∈ set.files,
        o.IsReadFrom source r.key name ∧ o.value.StandsIn source) ∧
    (∀ name v, (name, v) ∈ table.declared → ∀ value, v.default? = some value →
      ∃ source ∈ set.files, value.IsDefaultIn source name ∧ value.StandsIn source) ∧
    ∀ name value, (name, value) ∈ table.fromFiles →
      ∃ source ∈ varFiles, value.IsAssignedIn source name ∧ value.StandsIn source := by
  obtain ⟨all, read, rfl⟩ := load_eq_ok loaded
  have sound := isReadFrom_of_mapM read
  have start : (Configuration.ofDeclared precedence (.ofDeclarations all)).table.fromFiles =
      [] := fromFiles_foldl_declare _ _
  refine ⟨?_, ?_, ?_⟩
  · exact isReadFrom_templates_ofDeclared fun d member => (sound d member).1
  · intro name v member
    rw [declared_of_foldlM_assignFile assigned] at member
    obtain ⟨rfl, readFrom⟩ := isReadFrom_table_ofDeclared (fun d known => (sound d known).2) member
    exact readFrom
  · intro name value member
    obtain given | before := isAssignedIn_of_foldlM assigned member
    · exact given
    · rw [start] at before
      cases before

/-- A variable with a default, and a resource with lists and nested blocks that an override file
changes. -/
def nestedFiles : SourceSet := .ofList [
  ⟨"a.tf", "variable \"size\" \x7b\n  default = [1, 2]\n\x7d\n" ++
    "resource \"x\" \"id\" \x7b\n  kept = [\"é\", [var.size]]\n  changed = 1\n\x7d\n"⟩,
  ⟨"override.tf", "resource \"x\" \"id\" \x7b\n  changed \x7b\n    on = true\n  \x7d\n\x7d\n"⟩]

/-- A file that assigns the variable. -/
def nestedAssignments : Source := ⟨"sizes.tfvars", "# sizes\nsize = \x7b small = 1 \x7d\n"⟩

/-- The configuration of the files, and its table after the assignments. -/
def loadNested : Except SourceError (Configuration × VariableTable) := do
  let c ← Configuration.load .lexical nestedFiles
  return (c, ← [nestedAssignments].foldlM VariableTable.assignFile c.table)

/-- Values of both files and of the assignments are kept, and stand in them. -/
theorem load_values_located_nestedFiles :
    ∃ c table, Configuration.load .lexical nestedFiles = .ok c ∧
      [nestedAssignments].foldlM VariableTable.assignFile c.table = .ok table ∧
      (∃ t ∈ c.templates, ∃ r ∈ t.resources, r.attributes.keys = ["kept", "changed"] ∧
        ∀ name a, (name, a) ∈ r.attributes → ∀ o ∈ a.occurrences,
          ∃ source ∈ nestedFiles.files,
            o.IsReadFrom source r.key name ∧ o.value.StandsIn source) ∧
      (∃ v value, ("size", v) ∈ table.declared ∧ v.default? = some value ∧
        ∃ source ∈ nestedFiles.files,
          value.IsDefaultIn source "size" ∧ value.StandsIn source) ∧
      ∃ value, ("size", value) ∈ table.fromFiles ∧
        value.IsAssignedIn nestedAssignments "size" ∧ value.StandsIn nestedAssignments := by
  obtain ⟨⟨c, table⟩, made⟩ := eq_ok_of_isSome (x := loadNested) (by decide +kernel)
  have kept : loadNested.toOption.any (fun (c, table) =>
      (c.templates.any fun t => t.resources.any (·.attributes.keys == ["kept", "changed"])) &&
      ((table.declared.get? "size").bind (·.default?)).isSome &&
      (table.fromFiles.get? "size").isSome) = true := by decide +kernel
  rw [made] at kept
  obtain ⟨c', loaded, assigning⟩ := except_bind_eq_ok.mp made
  obtain ⟨table', assigned, same⟩ := except_bind_eq_ok.mp assigning
  obtain ⟨rfl, rfl⟩ := Prod.mk.inj (Except.ok.inj same)
  obtain ⟨fromResources, fromDefaults, fromAssignments⟩ := load_values_located loaded assigned
  simp only [Except.toOption, Option.any_some, Bool.and_eq_true, List.any_eq_true,
    beq_iff_eq] at kept
  obtain ⟨⟨⟨t, inTemplates, r, member, names⟩, default⟩, given⟩ := kept
  obtain ⟨value, found⟩ := Option.isSome_iff_exists.mp default
  obtain ⟨v, declared, default⟩ := Option.bind_eq_some_iff.mp found
  obtain ⟨other, given⟩ := Option.isSome_iff_exists.mp given
  have inDeclared := Entries.mem_of_get?_eq_some declared
  have inGiven := Entries.mem_of_get?_eq_some given
  obtain ⟨source, known, readFrom⟩ := fromAssignments "size" other inGiven
  obtain rfl := List.mem_singleton.mp known
  exact ⟨c', table', loaded, assigned,
    ⟨t, inTemplates, r, member, names, fromResources t inTemplates r member⟩,
    ⟨v, value, inDeclared, default, fromDefaults "size" v inDeclared value default⟩,
    other, inGiven, readFrom⟩

end HclLint.Model
