/-
# Overriding a resource

A resource that is overridden several times keeps its file, key and position. Each of its
attributes is the one supplied last, whole, and the names of the attributes stand in the order
in which they first came.

## Main definitions

* `Resource.overriddenByAll`: a resource overridden by several others, one after the other.
* `IsMergeOf`: what such a resource has to be.
-/

import HclLint.Model.Resource
import HclLint.Proofs.Entries

namespace HclLint.Model

open HclLint.Text

namespace Resource

variable {r other : Resource} {others : List Resource} {name : String}

/-- The resource after several others have overridden it, one after the other. -/
def overriddenByAll (r : Resource) (others : List Resource) : Resource :=
  others.foldl overriddenBy r

@[simp]
theorem overriddenByAll_nil (r : Resource) : r.overriddenByAll [] = r := rfl

/-- The first of the overriding resources is applied first. -/
@[simp]
theorem overriddenByAll_cons (r other : Resource) (others : List Resource) :
    r.overriddenByAll (other :: others) = (r.overriddenBy other).overriddenByAll others := rfl

/-- Overriding does not change which resource is meant. -/
@[simp]
theorem overriddenBy_key (r other : Resource) : (r.overriddenBy other).key = r.key := rfl

/-- The attributes are those of the resource with all those of the other put over them. -/
theorem overriddenBy_attributes (r other : Resource) :
    (r.overriddenBy other).attributes = r.attributes.putAll other.attributes := rfl

/-- Overriding by several resources changes the attributes only, which are put over each other in
the order of the resources. -/
theorem overriddenByAll_eq (r : Resource) (others : List Resource) :
    r.overriddenByAll others =
      { r with attributes := r.attributes.putAll (others.flatMap (·.attributes)) } := by
  induction others generalizing r with
  | nil => rfl
  | cons other others ih =>
    rw [overriddenByAll_cons, ih, overriddenBy_attributes, List.flatMap_cons,
      Entries.putAll_append]
    rfl

/-- The last supplier among several resources is the last one that has the attribute. -/
theorem get?_reverse_flatMap (distinct : ∀ r ∈ others, r.attributes.keys.Nodup) :
    Entries.get? name (others.flatMap (·.attributes)).reverse =
      others.reverse.findSome? (·.attribute? name) := by
  induction others with
  | nil => rfl
  | cons other others ih =>
    -- Turned round, the attributes of the first resource come last. Their own order is turned
    -- round as well, which does no harm since their names are distinct.
    have here := distinct other List.mem_cons_self
    have there := ih fun r member => distinct r (List.mem_cons_of_mem _ member)
    rw [List.flatMap_cons, List.reverse_append, Entries.get?_append, there,
      Entries.get?_reverse_of_nodup here, List.reverse_cons, List.findSome?_append]
    simp [attribute?]

end Resource

/-- What a declared resource has become under the resources that overrode it: everything but
its attributes is kept, each attribute is the one supplied last, with all its occurrences, and
the names of the attributes stand in the order in which they first came. -/
structure IsMergeOf (owner : Resource) (overriding : List Resource) (r : Resource) : Prop where
  key : r.key = owner.key
  file : r.file = owner.file
  position : r.position = owner.position
  attribute? : ∀ name,
    r.attribute? name = (owner :: overriding).reverse.findSome? (·.attribute? name)
  names : r.attributes.keys =
    ((owner :: overriding).flatMap (·.attributes.keys)).eraseDups

/-- Overriding by a sequence of resources is a merge in the sense of the specification, provided
that no resource names an attribute twice. -/
theorem isMergeOf_overriddenByAll {owner : Resource} {overriding : List Resource}
    (distinct : ∀ r ∈ owner :: overriding, r.attributes.keys.Nodup) :
    IsMergeOf owner overriding (owner.overriddenByAll overriding) := by
  have ownNames := distinct owner List.mem_cons_self
  have otherNames := fun r member => distinct r (List.mem_cons_of_mem owner member)
  -- Overriding resource by resource puts all their attributes in, one after the other.
  rw [Resource.overriddenByAll_eq]
  refine ⟨rfl, rfl, rfl, fun name => ?_, ?_⟩
  · rw [List.reverse_cons, List.findSome?_append, ← Resource.get?_reverse_flatMap otherNames]
    simp [Resource.attribute?, Entries.get?_putAll]
  · have keysOfAll : Entries.keys (overriding.flatMap (·.attributes)) =
        overriding.flatMap (·.attributes.keys) := List.map_flatMap
    rw [Entries.keys_putAll_of_nodup ownNames, keysOfAll, List.flatMap_cons]

end HclLint.Model
