/-
# The structures of resource blocks are kept

The attributes of a resource block are its structures, grouped by name. Overriding takes attributes
over as they are, so that every attribute of a configuration is made of the structures with its name
in one block of one file. There is always a first structure, which is the attribute's first
occurrence.

## Main definitions

* `IsGroupingOf`: the structures of a block, grouped by their names.
* `Attribute.IsGivenIn`: an attribute whose occurrences are structures of one resource block.

## Main statements

* `structures_grouped_by_name`: the attributes of each resource block and of each configuration.
-/

import HclLint.Proofs.Provenance.Configuration

namespace HclLint.Model

open HclLint.Text HclLint.Hcl

variable {source : Source} {body : Body}

/-- The attributes are the structures of the body, grouped by their names: the names in the order
in which they first come, and under each name its structures in their order, each at the place in
the file where its expression or the block itself stands. -/
structure IsGroupingOf (source : Source) (body : Body) (attributes : Entries Attribute) :
    Prop where
  names : attributes.keys = (body.map Item.name).eraseDups
  occurrences : ∀ name a, (name, a) ∈ attributes →
    a.occurrences = (body.filter (·.name == name)).map (occurrenceOf source)
  count : (attributes.map (·.2.occurrences.length)).sum = body.length
  places : ∀ item ∈ body, source.Shows (occurrenceOf source item).position item.lead.text

/-- The attribute was given by the structures with its name in one block that declares the key,
of which there is a first one. -/
def Attribute.IsGivenIn (source : Source) (key : ResourceKey) (name : String) (a : Attribute) :
    Prop :=
  ∃ file start inner first more, bodyOf source = .ok file ∧
    Item.block start "resource" [key.type, key.id] inner ∈ file ∧
    inner.filter (·.name == name) = first :: more ∧
    a.first = occurrenceOf source first ∧ a.more = more.map (occurrenceOf source)

theorem isGroupingOf_attributesOf (inside : ∀ item ∈ body, item.IsIn source.text.toList) :
    IsGroupingOf source body (attributesOf source body) where
  names := keys_attributesOf source body
  occurrences := fun _ _ => occurrences_of_mem_attributesOf
  count := count_attributesOf source body
  places := fun item member => by
    have shows := shows_of_isIn (inside item member).lead
    rwa [Item.lead_start, show source.positionAt item.start =
      (occurrenceOf source item).position by rw [← occurrenceOf_eq]] at shows

/-- **The structures of a resource block are all kept, grouped by name.** The attributes of an
accepted block are its structures, grouped by their names in the order in which they first come,
each of them one occurrence with its position and its value. Every attribute of a resource in a
configuration, after all overriding, is made of the structures with its name in one such block of
some file of the set: the first of them is its first occurrence, so that there always is one. -/
theorem structures_grouped_by_name :
    (∀ source file start labels inner r, bodyOf source = .ok file →
      Item.block start "resource" labels inner ∈ file →
      resourceOf source start labels inner = .ok r → IsGroupingOf source inner r.attributes) ∧
    ∀ precedence set c, Configuration.load precedence set = .ok c →
      ∀ t ∈ c.templates, ∀ r ∈ t.resources, ∀ name a, (name, a) ∈ r.attributes →
        ∃ source ∈ set.files, a.IsGivenIn source r.key name := by
  constructor
  · intro source file start labels inner r read member made
    obtain ⟨_, attributes, _⟩ := resourceOf_eq_ok made
    have block := isIn_of_bodyOf read _ member
    obtain _ | ⟨_, _, inside⟩ := block
    rw [attributes]
    exact isGroupingOf_attributesOf inside
  · intro precedence set c loaded
    obtain ⟨all, read, rfl⟩ := load_eq_ok loaded
    refine each_templates_ofDeclared (fun key name a =>
      ∃ source ∈ set.files, a.IsGivenIn source key name) ?_
    intro d inAll r declared name a member
    obtain ⟨source, known, reads⟩ := exists_of_mapM read inAll
    obtain ⟨file, taken, resources, -⟩ := made_of_declarationsOf reads
    obtain ⟨start, labels, inner, inFile, made⟩ := resources r declared
    obtain ⟨_, attributes, rfl⟩ := resourceOf_eq_ok made
    rw [attributes] at member
    -- An attribute has a first occurrence, so there is a first structure with its name.
    obtain ⟨first, more, named, same, others⟩ :=
      List.map_eq_cons_iff.mp (occurrences_of_mem_attributesOf member).symm
    exact ⟨source, known, file, start, inner, first, more, taken, inFile, named, same.symm,
      others.symm⟩

/-- A block in which a name comes again behind others, as a block and as an attribute. -/
def diskFile : Source :=
  ⟨"a.tf", "resource \"x\" \"id\" \x7b\n  disk \x7b\n    size = 1\n  \x7d\n  size = 2\n" ++
    "  disk \x7b\n    size = 3\n  \x7d\n  disk = 4\n\x7d\n"⟩

/-- The same block, and one that overrides an attribute of it. -/
def diskFiles : SourceSet := .ofList [diskFile,
  ⟨"a_override.tf", "resource \"x\" \"id\" \x7b\n  size = 5\n  size \x7b\n  \x7d\n\x7d\n"⟩]

/-- Whether the structure declares a resource, with structures of these names in it. -/
def declaresNames (source : Source) (names : List String) : Item → Bool
  | .block start kind labels inner =>
    kind == "resource" && (resourceOf source start labels inner).isOk &&
      inner.map Item.name == names
  | .attribute .. => false

/-- Four structures with two names are two attributes, and in the configuration each attribute is
made of structures of one block. -/
theorem structures_grouped_by_name_disks :
    (∃ file start labels inner r, bodyOf diskFile = .ok file ∧
      Item.block start "resource" labels inner ∈ file ∧
      resourceOf diskFile start labels inner = .ok r ∧
      inner.map Item.name = ["disk", "size", "disk", "disk"] ∧
      IsGroupingOf diskFile inner r.attributes) ∧
    ∃ c, Configuration.load .lexical diskFiles = .ok c ∧
      ∃ t ∈ c.templates, ∃ r ∈ t.resources, r.attributes.keys = ["disk", "size"] ∧
        ∀ name a, (name, a) ∈ r.attributes →
          ∃ source ∈ diskFiles.files, a.IsGivenIn source r.key name := by
  obtain ⟨grouped, given⟩ := structures_grouped_by_name
  constructor
  · obtain ⟨file, read, declares⟩ := exists_eq_ok_of_any (x := bodyOf diskFile)
      (p := fun file => file.any (declaresNames diskFile ["disk", "size", "disk", "disk"]))
      (by decide +kernel)
    obtain ⟨item, member, declares⟩ := List.any_eq_true.mp declares
    match item, declares with
    | .block start kind labels inner, declares =>
      simp only [declaresNames, Bool.and_eq_true, beq_iff_eq] at declares
      obtain ⟨⟨rfl, accepted⟩, names⟩ := declares
      cases made : resourceOf diskFile start labels inner with
      | error fault =>
        rw [made] at accepted
        cases accepted
      | ok r =>
        exact ⟨file, start, labels, inner, r, read, member, made, names,
          grouped _ file start labels inner r read member made⟩
  · obtain ⟨c, loaded, held⟩ := exists_eq_ok_of_any (x := Configuration.load .lexical diskFiles)
      (p := fun c => c.templates.any fun t =>
        t.resources.any (·.attributes.keys == ["disk", "size"])) (by decide +kernel)
    simp only [List.any_eq_true, beq_iff_eq] at held
    obtain ⟨t, inTemplates, r, member, names⟩ := held
    exact ⟨c, loaded, t, inTemplates, r, member, names,
      given .lexical diskFiles c loaded t inTemplates r member⟩

end HclLint.Model
