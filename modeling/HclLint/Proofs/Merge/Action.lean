/-
# Overriding as an action

Resources act on resources by overriding them. To be overridden by one resource and then by
another is to be overridden once, by what the second makes of the first; so a whole run of
resources acts like a single one. Being overridden again by the same resource changes nothing.
Resources that have no attribute in common act independently of each other, up to the order in
which new attributes stand.

The laws need that no attribute of the acting resource comes twice. This holds of every resource
that is read, and of what overriding makes of it.

## Main definitions

* `IsWellBehaved`: what is asked of resources that act on each other.

## Main statements

* `overriddenBy_assoc`, `overriddenBy_idempotent`: the laws of the action.
* `overriddenBy_overriddenByAll`: a run of resources acts like one.
* `perm_overriddenBy_comm`: resources without a common attribute.
* `isWellBehaved_overriddenBy`: all laws.
-/

import HclLint.Proofs.Merge.Overriding
import HclLint.Proofs.Putting

namespace HclLint.Model

namespace Resource

variable {r a b : Resource} {name : String}

/-- Overriding keeps the names of the attributes distinct. -/
theorem nodup_names_overriddenBy (distinct : r.attributes.keys.Nodup) (a : Resource) :
    (r.overriddenBy a).attributes.keys.Nodup :=
  Entries.nodup_keys_putAll distinct

/-- It does not matter whether an overriding resource is itself overridden first. -/
theorem overriddenBy_assoc (distinct : a.attributes.keys.Nodup) (r b : Resource) :
    (r.overriddenBy a).overriddenBy b = r.overriddenBy (a.overriddenBy b) :=
  congrArg (fun attributes => { r with attributes }) (Entries.putAll_assoc distinct _ _)

/-- A resource overridden by itself is unchanged. -/
theorem overriddenBy_self (distinct : r.attributes.keys.Nodup) : r.overriddenBy r = r :=
  congrArg (fun attributes => { r with attributes }) (Entries.putAll_self distinct)

/-- Overriding twice by the same resource is overriding once. -/
theorem overriddenBy_idempotent (distinct : a.attributes.keys.Nodup) (r : Resource) :
    (r.overriddenBy a).overriddenBy a = r.overriddenBy a := by
  rw [overriddenBy_assoc distinct, overriddenBy_self distinct]

/-- A run of resources acts like one, which the first of them becomes under the others. -/
theorem overriddenBy_overriddenByAll (distinct : a.attributes.keys.Nodup) (r : Resource)
    (others : List Resource) :
    (r.overriddenBy a).overriddenByAll others = r.overriddenBy (a.overriddenByAll others) := by
  induction others generalizing a with
  | nil => rfl
  | cons b others ih =>
    rw [overriddenByAll_cons, overriddenByAll_cons, overriddenBy_assoc distinct,
      ih (nodup_names_overriddenBy distinct b)]

/-- An attribute that the overriding resource does not name stays as it was. -/
theorem attribute?_overriddenBy_of_not_mem (missing : name ∉ a.attributes.keys) (r : Resource) :
    (r.overriddenBy a).attribute? name = r.attribute? name :=
  Entries.get?_putAll_of_not_mem missing _

/-- One that it names is taken from it. -/
theorem attribute?_overriddenBy_of_mem (distinct : a.attributes.keys.Nodup)
    (present : name ∈ a.attributes.keys) (r : Resource) :
    (r.overriddenBy a).attribute? name = a.attribute? name :=
  Entries.get?_putAll_of_mem distinct present _

/-- The names that were there come first, and new ones follow in their own order. -/
theorem names_overriddenBy (distinct : r.attributes.keys.Nodup) (a : Resource) :
    (r.overriddenBy a).attributes.keys =
      (r.attributes.keys ++ a.attributes.keys).eraseDups :=
  Entries.keys_putAll_of_nodup distinct

/-- Resources without a common attribute override in either order, and the outcome differs at most
in the order of the attributes. -/
theorem perm_overriddenBy_comm (distinct : r.attributes.keys.Nodup)
    (apart : List.Disjoint a.attributes.keys b.attributes.keys) :
    ((r.overriddenBy a).overriddenBy b).attributes.Perm
      ((r.overriddenBy b).overriddenBy a).attributes :=
  Entries.perm_putAll_comm distinct apart

end Resource

/-! ## All laws together -/

/-- The laws of resources that override each other. What acts on a resource replaces the attributes
that it names itself and changes nothing else; attributes keep their slots, and new ones come last.
It acts associatively, so that resources may be merged before they act, and a whole run of them acts
like one; acting again changes nothing; and where no attribute is named by both, two resources may
act in either order. -/
structure IsWellBehaved (act : Resource → Resource → Resource) : Prop where
  file : ∀ r a, (act r a).file = r.file
  key : ∀ r a, (act r a).key = r.key
  position : ∀ r a, (act r a).position = r.position
  names : ∀ r a, r.attributes.keys.Nodup →
    (act r a).attributes.keys = (r.attributes.keys ++ a.attributes.keys).eraseDups
  kept : ∀ r a name, name ∉ a.attributes.keys → (act r a).attribute? name = r.attribute? name
  replaced : ∀ r a name, a.attributes.keys.Nodup → name ∈ a.attributes.keys →
    (act r a).attribute? name = a.attribute? name
  distinct : ∀ r a, r.attributes.keys.Nodup → (act r a).attributes.keys.Nodup
  assoc : ∀ r a b, a.attributes.keys.Nodup → act (act r a) b = act r (act a b)
  run : ∀ r a others, a.attributes.keys.Nodup →
    List.foldl act (act r a) others = act r (List.foldl act a others)
  idempotent : ∀ r a, a.attributes.keys.Nodup → act (act r a) a = act r a
  comm : ∀ r a b, r.attributes.keys.Nodup →
    List.Disjoint a.attributes.keys b.attributes.keys →
    (act (act r a) b).attributes.Perm (act (act r b) a).attributes

theorem isWellBehaved_overriddenBy : IsWellBehaved Resource.overriddenBy where
  file _ _ := rfl
  key _ _ := rfl
  position _ _ := rfl
  names _ a distinct := Resource.names_overriddenBy distinct a
  kept r _ _ missing := Resource.attribute?_overriddenBy_of_not_mem missing r
  replaced r _ _ distinct present := Resource.attribute?_overriddenBy_of_mem distinct present r
  distinct _ a distinct := Resource.nodup_names_overriddenBy distinct a
  assoc r _ b distinct := Resource.overriddenBy_assoc distinct r b
  run r _ others distinct := Resource.overriddenBy_overriddenByAll distinct r others
  idempotent r _ distinct := Resource.overriddenBy_idempotent distinct r
  comm _ _ _ distinct apart := Resource.perm_overriddenBy_comm distinct apart

end HclLint.Model
