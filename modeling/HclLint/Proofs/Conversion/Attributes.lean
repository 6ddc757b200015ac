/-
# The attributes that a block's structures give

Each structure of a resource block is one occurrence of the attribute with its name: an attribute
with the value of its expression, a nested block with the entries of its body. The names stand in
the order in which they first come, and the occurrences of a name in the order of the structures,
so that none is lost and none is counted twice.

## Main definitions

* `occurrenceOf`: what a structure of a block is as an occurrence.
* `Attribute.ofOccurrences?`: the attribute with some occurrences, of which it needs one.

## Main statements

* `attributesOf_eq_gather`: the attributes of a block are gathered from its structures.
* `keys_attributesOf`, `attribute?_attributesOf`, `count_attributesOf`: their names, what each of
  them is made of, and how many occurrences there are.
-/

import HclLint.Model.Resource
import HclLint.Proofs.Gathering
import Mathlib.Algebra.Ring.Nat

namespace HclLint.Model

open HclLint.Text HclLint.Hcl

/-- What a structure is as an occurrence. An attribute stands where its expression starts, and a
block where it starts itself. -/
def occurrenceOf (source : Source) : Item → Occurrence
  | .attribute _ e => ⟨source.positionAt e.start, Value.ofExpr source e⟩
  | .block start _ _ body => ⟨source.positionAt start, .map (bodyEntries source [] body)⟩

/-- The attribute with some occurrences. Without any there is none. -/
def Attribute.ofOccurrences? : List Occurrence → Option Attribute
  | [] => none
  | first :: more => some ⟨first, more⟩

/-- An attribute with one more occurrence, which is the first one if there is no attribute yet. -/
def Attribute.grown (held : Option Attribute) (o : Occurrence) : Attribute :=
  match held with
  | some a => { a with more := a.more ++ [o] }
  | none => ⟨o, []⟩

variable {source : Source} {body : Body} {name : String}

theorem occurrenceOf_eq (source : Source) (item : Item) :
    ⟨source.positionAt item.start, Value.ofItem source item⟩ = occurrenceOf source item := by
  cases item <;> rfl

theorem addOccurrence_eq_put (name : String) (o : Occurrence) (attributes : Entries Attribute) :
    addOccurrence name o attributes =
      attributes.put name (.grown (attributes.get? name) o) := by
  unfold addOccurrence
  cases attributes.get? name <;> rfl

/-- The attributes of a block are gathered from its structures. -/
theorem attributesOf_eq_gather (source : Source) (body : Body) :
    attributesOf source body =
      Entries.gather Item.name (fun held item => .grown held (occurrenceOf source item)) []
        body := by
  simp only [attributesOf, Entries.gather, addOccurrence_eq_put, occurrenceOf_eq]

/-- Growing from nothing, an attribute has all occurrences in their order. -/
theorem joinAll_grown (source : Source) (items : List Item) :
    Entries.joinAll (fun held item => Attribute.grown held (occurrenceOf source item)) none items =
      Attribute.ofOccurrences? (items.map (occurrenceOf source)) := by
  induction items using List.reverseRecOn with
  | nil => rfl
  | append_singleton items item ih =>
    rw [Entries.joinAll_append, ih, List.map_append]
    cases items <;> rfl

/-- The attribute of a name is made of the structures of that name, in their order. -/
theorem attribute?_attributesOf (source : Source) (body : Body) (name : String) :
    (attributesOf source body).get? name =
      Attribute.ofOccurrences? ((body.filter (·.name == name)).map (occurrenceOf source)) := by
  rw [attributesOf_eq_gather, Entries.get?_gather]
  exact joinAll_grown source _

/-- The names of the attributes stand in the order in which the structures first have them. -/
theorem keys_attributesOf (source : Source) (body : Body) :
    (attributesOf source body).keys = (body.map Item.name).eraseDups := by
  rw [attributesOf_eq_gather, Entries.keys_gather]

theorem nodup_keys_attributesOf (source : Source) (body : Body) :
    (attributesOf source body).keys.Nodup := by
  rw [attributesOf_eq_gather]
  exact Entries.nodup_keys_gather _ _ Entries.nodup_keys_nil body

/-- Each structure adds one occurrence. -/
theorem count_addOccurrence (name : String) (o : Occurrence) (attributes : Entries Attribute) :
    ((addOccurrence name o attributes).map (·.2.occurrences.length)).sum =
      (attributes.map (·.2.occurrences.length)).sum + 1 := by
  have counted := Entries.sum_put (·.occurrences.length) name
    (.grown (attributes.get? name) o) attributes
  rw [← addOccurrence_eq_put] at counted
  cases held : attributes.get? name with
  | none => simpa [held, Attribute.grown, Attribute.occurrences] using counted
  | some a =>
    simp only [held, Attribute.grown, Attribute.occurrences, Option.elim_some, List.length_cons,
      List.length_append, List.length_nil] at counted ⊢
    omega

/-- There are as many occurrences as structures. -/
theorem count_attributesOf (source : Source) (body : Body) :
    ((attributesOf source body).map (·.2.occurrences.length)).sum = body.length := by
  induction body using List.reverseRecOn with
  | nil => rfl
  | append_singleton body item ih =>
    rw [attributesOf, List.foldl_append, ← attributesOf, List.foldl_cons, List.foldl_nil,
      count_addOccurrence, ih, List.length_append, List.length_singleton]

theorem Attribute.occurrences_of_ofOccurrences? {os : List Occurrence} {a : Attribute}
    (made : ofOccurrences? os = some a) : a.occurrences = os := by
  cases os with
  | nil => cases made
  | cons first more =>
    obtain rfl := Option.some.inj made
    rfl

/-- The occurrences of an attribute are the structures of its name. -/
theorem occurrences_of_mem_attributesOf {a : Attribute}
    (member : (name, a) ∈ attributesOf source body) :
    a.occurrences = (body.filter (·.name == name)).map (occurrenceOf source) := by
  have found := (Entries.get?_eq_some_iff (nodup_keys_attributesOf source body)).mpr member
  rw [attribute?_attributesOf] at found
  exact Attribute.occurrences_of_ofOccurrences? found

end HclLint.Model
