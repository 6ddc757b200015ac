/-
# What a file declares

The resources that a file declares carry the file's name, no two of them have one key, and no
attribute of theirs comes twice. The files of a set are read in the order of their names.

## Main statements

* `wellFormed_of_mapM`, `ordered_of_mapM`: the declarations of all files of a set.
-/

import HclLint.Model.Declaration
import HclLint.Model.SourceSet
import HclLint.Proofs.Conversion.Attributes
import HclLint.Proofs.Sequencing

namespace HclLint.Model

open HclLint.Text HclLint.Hcl

/-- The keys of a file's resources. -/
def Declarations.keys (d : Declarations) : List ResourceKey := d.resources.map (·.key)

/-- What holds of the declarations of a file. -/
structure Declarations.WellFormed (d : Declarations) : Prop where
  resource_file : ∀ r ∈ d.resources, r.file = d.file
  distinct_keys : (d.resources.map (·.key)).Nodup
  distinct_names : ∀ r ∈ d.resources, r.attributes.keys.Nodup

/-- The key of the resource that a structure declares. -/
def declaredKey? : Item → Option ResourceKey
  | .block _ kind [type, id] _ => if kind = "resource" then some ⟨type, id⟩ else none
  | _ => none

/-- Only blocks of resources declare a key. -/
theorem declaredKey?_of_kind_ne {start : Nat} {kind : String} {labels : List String} {body : Body}
    (other : kind ≠ "resource") : declaredKey? (.block start kind labels body) = none := by
  unfold declaredKey?
  split
  · next same =>
    obtain ⟨_, rfl, _, _⟩ := Item.block.inj same
    exact if_neg other
  · rfl

/-- What adding a structure's declarations comes to: nothing, one more resource under a new key,
or one more variable. -/
theorem declare_eq_ok {source : Source} {before after : Declarations} {item : Item}
    (declared : declare source before item = .ok after) :
    (declaredKey? item = none ∧ after = before) ∨
      (∃ start labels body r, item = .block start "resource" labels body ∧
        resourceOf source start labels body = .ok r ∧
        (∀ other ∈ before.resources, other.key ≠ r.key) ∧
        after = { before with resources := before.resources ++ [r] }) ∨
      ∃ start labels body v, item = .block start "variable" labels body ∧
        variableOf source start labels body = .ok v ∧
        after = { before with vars := before.vars ++ [v] } := by
  match item with
  | .attribute _ _ => exact .inl ⟨rfl, (Except.ok.inj declared).symm⟩
  | .block start kind labels body =>
    -- The block is a resource, a variable, or of no interest.
    simp only [declare] at declared
    split at declared
    · next same =>
      obtain ⟨r, made, added⟩ := except_bind_eq_ok.mp declared
      split at added
      · cases added
      · next new =>
        refine .inr (.inl ⟨start, labels, body, r, same ▸ rfl, made, ?_, ?_⟩)
        · simpa using new
        · exact (Except.ok.inj added).symm
    · next other =>
      split at declared
      · next same =>
        obtain ⟨v, made, added⟩ := except_bind_eq_ok.mp declared
        exact .inr (.inr ⟨start, labels, body, v, same ▸ rfl, made, (Except.ok.inj added).symm⟩)
      · exact .inl ⟨declaredKey?_of_kind_ne other, (Except.ok.inj declared).symm⟩

/-- A resource that was read has the file and the attributes of its block, and its two labels are
the key. -/
theorem resourceOf_eq_ok {source : Source} {start : Nat} {labels : List String} {body : Body}
    {r : Resource} (made : resourceOf source start labels body = .ok r) :
    r.file = source.name ∧ r.attributes = attributesOf source body ∧
      labels = [r.key.type, r.key.id] := by
  unfold resourceOf at made
  split at made
  · obtain rfl := Except.ok.inj made
    exact ⟨rfl, rfl, rfl⟩
  · cases made

/-- Reading one more item keeps the declarations well-formed. -/
theorem wellFormed_declare {source : Source} {before after : Declarations} {item : Item}
    (h : before.file = source.name ∧ before.WellFormed)
    (declared : declare source before item = .ok after) :
    after.file = source.name ∧ after.WellFormed := by
  obtain ⟨named, h⟩ := h
  obtain ⟨_, rfl⟩ | ⟨start, labels, body, r, _, made, new, rfl⟩ | ⟨_, _, _, v, _, _, rfl⟩ :=
    declare_eq_ok declared
  · exact ⟨named, h⟩
  · obtain ⟨file, attributes, _⟩ := resourceOf_eq_ok made
    refine ⟨named, ?_, ?_, ?_⟩
    · intro other member
      rcases List.mem_append.mp member with member | member
      · exact h.resource_file other member
      · exact List.mem_singleton.mp member ▸ file.trans named.symm
    · -- The new key was refused, had it been there already.
      rw [List.map_append, List.nodup_append]
      refine ⟨h.distinct_keys, by simp, ?_⟩
      rintro _ old _ added rfl
      obtain ⟨other, member, same⟩ := List.mem_map.mp old
      exact new other member (by simpa [same] using added)
    · intro other member
      rcases List.mem_append.mp member with member | member
      · exact h.distinct_names other member
      · rw [List.mem_singleton.mp member, attributes]
        exact nodup_keys_attributesOf source body
  · exact ⟨named, h.resource_file, h.distinct_keys, h.distinct_names⟩

theorem wellFormed_of_declarationsOf {source : Source} {d : Declarations}
    (read : declarationsOf source = .ok d) : d.file = source.name ∧ d.WellFormed := by
  obtain ⟨body, _, folded⟩ := except_bind_eq_ok.mp read
  have start : Declarations.WellFormed ⟨source.name, [], []⟩ :=
    ⟨by simp, List.nodup_nil, by simp⟩
  exact foldlM_invariant (fun d => d.file = source.name ∧ d.WellFormed) wellFormed_declare
    ⟨rfl, start⟩ folded

/-- Everything that a file declares is made from a block of the file. -/
theorem made_of_declarationsOf {source : Source} {d : Declarations}
    (read : declarationsOf source = .ok d) :
    ∃ body, bodyOf source = .ok body ∧
      (∀ r ∈ d.resources, ∃ start labels inner, Item.block start "resource" labels inner ∈ body ∧
        resourceOf source start labels inner = .ok r) ∧
      ∀ v ∈ d.vars, ∃ start labels inner, Item.block start "variable" labels inner ∈ body ∧
        variableOf source start labels inner = .ok v := by
  obtain ⟨body, taken, folded⟩ := except_bind_eq_ok.mp read
  refine ⟨body, taken, foldlM_invariant_of_mem (fun d : Declarations =>
    (∀ r ∈ d.resources, ∃ start labels inner, Item.block start "resource" labels inner ∈ body ∧
      resourceOf source start labels inner = .ok r) ∧
    ∀ v ∈ d.vars, ∃ start labels inner, Item.block start "variable" labels inner ∈ body ∧
      variableOf source start labels inner = .ok v) ?_ ⟨by simp, by simp⟩ folded⟩
  rintro item inBody before after ⟨resources, vars⟩ declared
  obtain ⟨_, rfl⟩ | ⟨start, labels, inner, r, rfl, made, _, rfl⟩ |
    ⟨start, labels, inner, v, rfl, made, rfl⟩ := declare_eq_ok declared
  · exact ⟨resources, vars⟩
  · refine ⟨fun other member => ?_, vars⟩
    rcases List.mem_append.mp member with old | new
    · exact resources other old
    · exact ⟨start, labels, inner, inBody, List.mem_singleton.mp new ▸ made⟩
  · refine ⟨resources, fun other member => ?_⟩
    rcases List.mem_append.mp member with old | new
    · exact vars other old
    · exact ⟨start, labels, inner, inBody, List.mem_singleton.mp new ▸ made⟩

/-! ## The files of a set -/

/-- All that is read from a set of files is well-formed. -/
theorem wellFormed_of_mapM {files : List Source} {all : List Declarations}
    (read : files.mapM declarationsOf = .ok all) : ∀ d ∈ all, d.WellFormed := by
  have each := mapM_eq_ok_iff.mp read
  induction each with
  | nil => simp
  | cons first _ ih =>
    intro d member
    rcases List.mem_cons.mp member with rfl | member
    · exact (wellFormed_of_declarationsOf first).2
    · exact ih (mapM_eq_ok_iff.mpr ‹_›) d member

theorem files_of_mapM {files : List Source} {all : List Declarations}
    (read : files.mapM declarationsOf = .ok all) : all.map (·.file) = files.map (·.name) := by
  have each := mapM_eq_ok_iff.mp read
  induction each with
  | nil => rfl
  | cons first _ ih =>
    rw [List.map_cons, List.map_cons, (wellFormed_of_declarationsOf first).1,
      ih (mapM_eq_ok_iff.mpr ‹_›)]

/-- The declarations stand in the strict order of their files' names. -/
theorem ordered_of_mapM {set : SourceSet} {all : List Declarations}
    (read : set.files.mapM declarationsOf = .ok all) : all.Pairwise (·.file < ·.file) := by
  have ordered := List.pairwise_map.mpr set.ordered
  rw [← files_of_mapM read] at ordered
  exact List.pairwise_map.mp ordered

end HclLint.Model
