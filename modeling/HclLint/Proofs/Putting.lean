/-
# Laws of putting entries into others

Entries act on entries. Putting some in and then others is putting in, once, what the others make
of the first, with keys in the same order; putting the same ones in again changes nothing; and
entries without a common key may be put in either order, which matters only for the order of the
keys that they bring.

Putting single entries is less regular, since a new key goes to the end. Two entries change places
freely only where one of their keys has its slot already.

## Main statements

* `putAll_assoc`: two puttings are one.
* `putAll_self`: entries change nothing in themselves.
* `perm_putAll_comm`: entries without a common key may be put in either order.
-/

import HclLint.Proofs.Gathering

namespace HclLint.Model.Entries

variable {α : Type} {key name : String} {value : α} {entries others more : Entries α}

/-! ## Single entries -/

/-- What is put under a key replaces what was put there just before. -/
theorem put_put_self (key : String) (value later : α) (entries : Entries α) :
    (entries.put key value).put key later = entries.put key later := by
  induction entries with
  | nil => simp [put]
  | cons entry entries ih =>
    obtain ⟨name, held⟩ := entry
    by_cases same : name = key
    · simp [put, same]
    · simp [put, same, ih]

/-- A key that has a slot may be put to before or after any other key. -/
theorem put_comm_of_mem (present : key ∈ keys entries) (different : key ≠ name)
    (value other : α) :
    (entries.put name other).put key value = (entries.put key value).put name other := by
  induction entries with
  | nil => cases present
  | cons entry entries ih =>
    obtain ⟨first, held⟩ := entry
    -- The first slot may be that of either key, but not of both.
    by_cases isKey : first = key
    · subst isKey
      simp [put, different]
    · by_cases isName : first = name
      · subst isName
        simp [put, isKey]
      · have behind : key ∈ keys entries :=
          (List.mem_cons.mp present).resolve_left (Ne.symm isKey)
        simp [put, isKey, isName, ih behind]

theorem put_eq_self (held : get? key entries = some value) : entries.put key value = entries := by
  induction entries with
  | nil => cases held
  | cons entry entries ih =>
    obtain ⟨name, other⟩ := entry
    rw [get?_cons] at held
    by_cases same : name = key
    · rw [if_pos same] at held
      rw [put, if_pos same, Option.some.inj held]
    · rw [if_neg same] at held
      rw [put, if_neg same, ih held]

/-! ## Putting all entries -/

theorem nodup_keys_putAll (distinct : (keys entries).Nodup) :
    (keys (entries.putAll others)).Nodup := by
  induction others generalizing entries with
  | nil => exact distinct
  | cons other others ih => exact ih (nodup_keys_put distinct)

theorem mem_keys_put (key : String) (value : α) (entries : Entries α) :
    key ∈ keys (entries.put key value) := by
  by_contra missing
  rw [← get?_eq_none_iff, get?_put_self] at missing
  cases missing

/-- The keys that were there come first, in their order. -/
theorem keys_prefix_putAll (entries others : Entries α) :
    keys entries <+: keys (entries.putAll others) := by
  rw [keys_putAll]
  exact List.prefix_append _ _

/-- Entries that do not concern a key with a slot may be put before or after it. -/
theorem putAll_put_of_mem (present : key ∈ keys entries) (apart : key ∉ keys others) (value : α) :
    (entries.putAll others).put key value = (entries.put key value).putAll others := by
  induction others generalizing entries with
  | nil => rfl
  | cons other others ih =>
    obtain ⟨name, held⟩ := other
    obtain ⟨different, apart⟩ := not_or.mp (mt List.mem_cons.mpr apart)
    have stays : key ∈ keys (entries.put name held) :=
      (keys_prefix_putAll entries [(name, held)]).mem present
    rw [putAll_cons, ih stays apart, put_comm_of_mem present different, putAll_cons]

/-- What is put into entries before they are put into others might as well be put in last. -/
theorem putAll_put (distinct : (keys others).Nodup) (entries : Entries α) (key : String)
    (value : α) : entries.putAll (others.put key value) = (entries.putAll others).put key value := by
  induction others generalizing entries with
  | nil => rfl
  | cons other others ih =>
    obtain ⟨name, held⟩ := other
    obtain ⟨new, distinct⟩ := List.nodup_cons.mp distinct
    by_cases same : name = key
    -- The key has its slot from the first entry on, and the rest do not concern it.
    · subst same
      rw [put, if_pos rfl, putAll_cons, putAll_cons,
        putAll_put_of_mem (mem_keys_put name held entries) new, put_put_self]
    · rw [put, if_neg same, putAll_cons, putAll_cons, ih distinct]

/-- **Two puttings are one**: that of what the second makes of the first. -/
theorem putAll_assoc (distinct : (keys others).Nodup) (entries more : Entries α) :
    (entries.putAll others).putAll more = entries.putAll (others.putAll more) := by
  induction more generalizing others with
  | nil => rfl
  | cons entry more ih =>
    obtain ⟨key, value⟩ := entry
    rw [putAll_cons, putAll_cons, ← ih (nodup_keys_put distinct), putAll_put distinct]

/-- Entries that are all held already change nothing. -/
theorem putAll_eq_self (held : ∀ entry ∈ others, get? entry.1 entries = some entry.2) :
    entries.putAll others = entries := by
  induction others with
  | nil => rfl
  | cons other others ih =>
    obtain ⟨first, held⟩ := List.forall_mem_cons.mp held
    rw [putAll_cons, put_eq_self first, ih held]

theorem putAll_self (distinct : (keys entries).Nodup) : entries.putAll entries = entries :=
  putAll_eq_self fun _ member => (get?_eq_some_iff distinct).mpr member

/-- Keys that are not put to hold what they held. -/
theorem get?_putAll_of_not_mem (missing : key ∉ keys others) (entries : Entries α) :
    get? key (entries.putAll others) = get? key entries := by
  have none : get? key others.reverse = none := by
    rw [get?_eq_none_iff, keys, List.map_reverse, List.mem_reverse]
    exact missing
  rw [get?_putAll, none, Option.none_or]

/-- Keys that are put to hold what is put. -/
theorem get?_putAll_of_mem (distinct : (keys others).Nodup) (present : key ∈ keys others)
    (entries : Entries α) : get? key (entries.putAll others) = get? key others := by
  rw [get?_putAll, get?_reverse_of_nodup distinct]
  cases held : get? key others with
  | none => exact absurd present (get?_eq_none_iff.mp held)
  | some value => rfl

/-- Entries with distinct keys that hold the same are the same up to their order. -/
theorem perm_of_get?_eq (distinct : (keys entries).Nodup) (distinct' : (keys others).Nodup)
    (same : ∀ key, get? key entries = get? key others) : entries.Perm others := by
  rw [List.perm_ext_iff_of_nodup (List.Nodup.of_map _ distinct) (List.Nodup.of_map _ distinct')]
  rintro ⟨key, value⟩
  rw [← get?_eq_some_iff distinct, ← get?_eq_some_iff distinct', same]

/-- **Entries without a common key may be put in either order.** -/
theorem perm_putAll_comm (distinct : (keys entries).Nodup)
    (apart : List.Disjoint (keys others) (keys more)) :
    ((entries.putAll others).putAll more).Perm ((entries.putAll more).putAll others) := by
  apply perm_of_get?_eq
  · exact nodup_keys_putAll (nodup_keys_putAll distinct)
  · exact nodup_keys_putAll (nodup_keys_putAll distinct)
  · intro key
    -- At most one of the two concerns the key, so the other may be left out on both sides.
    by_cases first : key ∈ keys others
    · have second : key ∉ keys more := fun both => apart first both
      rw [get?_putAll_of_not_mem second, get?_putAll, get?_putAll, get?_putAll_of_not_mem second]
    · rw [get?_putAll_of_not_mem first, get?_putAll, get?_putAll_of_not_mem first, get?_putAll]

end HclLint.Model.Entries
