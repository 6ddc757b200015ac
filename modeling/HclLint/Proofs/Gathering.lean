/-
# Entries gathered from a list

Items that have names are put into entries one after the other, where each of them joins what its
name holds already. In the end the names stand in the order in which they first come, and what a
name holds is told by the items of that name alone, whatever stands between them.

## Main definitions

* `gather`: the entries after some items have joined what their names hold.
* `joinAll`: what items make of a value, one after the other.

## Main statements

* `keys_gather`, `get?_gather`: the names that come of it, and what they hold.
* `ext_get?`: entries are told by their keys and by what the keys hold.
* `sum_put`: what is put adds to a sum over all entries, and what it replaces is lost from it.
-/

import HclLint.Proofs.Entries
import Mathlib.Algebra.BigOperators.Group.List.Basic
import Mathlib.Data.List.Induction

namespace HclLint.Model.Entries

variable {α β γ : Type} {key : String} {entries others : Entries α}

/-! ## Keys and values -/

/-- Where no key comes twice, a key holds exactly the value that it has an entry with. -/
theorem get?_eq_some_iff {value : α} (distinct : (keys entries).Nodup) :
    get? key entries = some value ↔ (key, value) ∈ entries := by
  refine ⟨mem_of_get?_eq_some, fun member => ?_⟩
  induction entries with
  | nil => cases member
  | cons entry entries ih =>
    obtain ⟨name, other⟩ := entry
    obtain ⟨new, distinct⟩ := List.nodup_cons.mp distinct
    rw [get?_cons]
    rcases List.mem_cons.mp member with same | member
    · obtain ⟨rfl, rfl⟩ := Prod.mk.inj same
      exact if_pos rfl
    · have later : key ∈ keys entries := List.mem_map_of_mem (f := Prod.fst) member
      rw [if_neg fun same : name = key => new (same ▸ later), ih distinct member]

/-- Entries with the same distinct keys are the same if their keys hold the same. -/
theorem ext_get? (distinct : (keys entries).Nodup) (names : keys others = keys entries)
    (held : ∀ key ∈ keys entries, get? key others = get? key entries) : others = entries := by
  induction entries generalizing others with
  | nil => exact List.map_eq_nil_iff.mp names
  | cons entry entries ih =>
    obtain ⟨name, value⟩ := entry
    obtain ⟨⟨name', value'⟩, others, rfl, rfl, later⟩ := List.map_eq_cons_iff.mp names
    obtain ⟨new, apart⟩ := List.nodup_cons.mp distinct
    obtain rfl : value' = value := by simpa [get?_cons] using held name' List.mem_cons_self
    -- The first key comes no more, so the others hold the same behind it.
    rw [ih apart later fun key member => ?_]
    have other : name' ≠ key := fun same => new (same ▸ member)
    simpa [get?_cons, other] using held key (.tail _ member)

/-- The entries with a function applied to their values. -/
def mapValues (f : α → γ) (entries : Entries α) : Entries γ :=
  entries.map fun (key, value) => (key, f value)

@[simp]
theorem mapValues_cons (f : α → γ) (name : String) (value : α) (entries : Entries α) :
    mapValues f ((name, value) :: entries) = (name, f value) :: mapValues f entries := rfl

/-- Mapping the values keeps the keys. -/
@[simp]
theorem keys_mapValues (f : α → γ) (entries : Entries α) :
    keys (mapValues f entries) = keys entries := by
  simp [keys, mapValues]

/-- What is found under a key is mapped. -/
theorem get?_mapValues (f : α → γ) (key : String) (entries : Entries α) :
    get? key (mapValues f entries) = (get? key entries).map f := by
  induction entries with
  | nil => rfl
  | cons entry entries ih =>
    obtain ⟨name, value⟩ := entry
    rw [mapValues_cons, get?_cons, get?_cons, ih]
    split <;> rfl

/-- Mapping and putting may be exchanged. -/
theorem mapValues_put (f : α → γ) (key : String) (value : α) (entries : Entries α) :
    mapValues f (put key value entries) = put key (f value) (mapValues f entries) := by
  induction entries with
  | nil => rfl
  | cons entry entries ih =>
    obtain ⟨name, other⟩ := entry
    rw [put, mapValues_cons, put]
    split
    · rfl
    · rw [mapValues_cons, ih]

/-- Entries with distinct keys are what they make one after the other. -/
theorem putAll_of_nodup (distinct : (keys entries).Nodup) : putAll [] entries = entries := by
  refine ext_get? distinct ?_ fun key _ => ?_
  · rw [keys_putAll_of_nodup nodup_keys_nil]
    exact eraseDups_of_nodup distinct
  · rw [get?_putAll, get?_reverse_of_nodup distinct]
    exact Option.or_none

/-! ## Gathering -/

section Gathering

variable (name : β → String) (join : Option α → β → α)

/-- What some items make of a value, each joining it in turn. -/
def joinAll (held : Option α) (items : List β) : Option α :=
  items.foldl (fun held item => some (join held item)) held

@[simp]
theorem joinAll_nil (held : Option α) : joinAll join held [] = held := rfl

@[simp]
theorem joinAll_cons (held : Option α) (item : β) (items : List β) :
    joinAll join held (item :: items) = joinAll join (some (join held item)) items := rfl

/-- Two runs of items are joined one after the other. -/
theorem joinAll_append (held : Option α) (front back : List β) :
    joinAll join held (front ++ back) = joinAll join (joinAll join held front) back :=
  List.foldl_append

/-- The entries after some items have joined what their names hold. -/
def gather (entries : Entries α) (items : List β) : Entries α :=
  items.foldl
    (fun entries item => put (name item) (join (get? (name item) entries) item) entries) entries

/-- What a name holds in the end is what its own items make of what it held. -/
theorem get?_gather (entries : Entries α) (items : List β) (key : String) :
    get? key (gather name join entries items) =
      joinAll join (get? key entries) (items.filter (name · == key)) := by
  induction items generalizing entries with
  | nil => rfl
  | cons item items ih =>
    rw [gather, List.foldl_cons, ← gather, ih, get?_put]
    by_cases same : name item = key
    · rw [if_pos same, List.filter_cons_of_pos (by simpa using same), joinAll_cons, same]
    · rw [if_neg same, List.filter_cons_of_neg (by simpa using same)]

/-- The names stand in the order in which they first come. -/
theorem keys_gather (items : List β) :
    keys (gather name join [] items) = (items.map name).eraseDups := by
  induction items using List.reverseRecOn with
  | nil => rfl
  | append_singleton items item ih =>
    rw [gather, List.foldl_append, List.foldl_cons, List.foldl_nil, ← gather, keys_put, ih,
      List.map_append, List.eraseDups_append]
    by_cases known : name item ∈ items.map name
    · rw [if_pos (List.mem_eraseDups.mpr known)]
      simp [List.removeAll, List.mem_map.mp known]
    · rw [if_neg fun member => known (List.mem_eraseDups.mp member)]
      have new : List.removeAll [name item] (items.map name) = [name item] := by
        simpa [List.removeAll] using known
      rw [List.map_singleton, new]
      rfl

/-- Gathering keeps the keys distinct. -/
theorem nodup_keys_gather (distinct : (keys entries).Nodup) (items : List β) :
    (keys (gather name join entries items)).Nodup := by
  induction items generalizing entries with
  | nil => exact distinct
  | cons item items ih => exact ih (nodup_keys_put distinct)

end Gathering

/-! ## Sums over all entries -/

/-- What is put adds to a sum over all entries, and what it replaces is lost from it. -/
theorem sum_put {M : Type} [AddCommMonoid M] (f : α → M) (key : String) (value : α)
    (entries : Entries α) :
    ((put key value entries).map (f ·.2)).sum + (get? key entries).elim 0 f =
      (entries.map (f ·.2)).sum + f value := by
  induction entries with
  | nil => simp [put]
  | cons entry entries ih =>
    obtain ⟨name, other⟩ := entry
    rw [put, get?_cons]
    split
    · simp [add_comm, add_left_comm]
    · rw [List.map_cons, List.map_cons, List.sum_cons, List.sum_cons, add_assoc, ih, add_assoc]

end HclLint.Model.Entries
