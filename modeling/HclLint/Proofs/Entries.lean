/-
# Entries put one after the other

Putting a list of entries into others, one after the other, gives every key the value that came
last and leaves the keys in the order in which they first came.
-/

import HclLint.Model.Entries
import Mathlib.Data.List.Nodup

namespace HclLint.Model.Entries

variable {α : Type} {key name : String} {value : α} {entries others : Entries α}

/-- The entries after some others have been put into them, one after the other. -/
def putAll (entries others : Entries α) : Entries α :=
  others.foldl (fun entries (name, value) => entries.put name value) entries

@[simp]
theorem putAll_nil (entries : Entries α) : entries.putAll [] = entries := rfl

@[simp]
theorem putAll_cons (entries others : Entries α) (name : String) (value : α) :
    entries.putAll ((name, value) :: others) = (entries.put name value).putAll others := rfl

/-- Putting two sequences of entries in a row is putting them as one. -/
theorem putAll_append (entries first second : Entries α) :
    entries.putAll (first ++ second) = (entries.putAll first).putAll second :=
  List.foldl_append

@[simp]
theorem keys_nil : keys ([] : Entries α) = [] := rfl

@[simp]
theorem keys_cons (name : String) (value : α) (entries : Entries α) :
    keys ((name, value) :: entries) = name :: keys entries := rfl

theorem get?_cons (name : String) (value : α) (entries : Entries α) :
    get? key ((name, value) :: entries) = if name = key then some value else get? key entries :=
  rfl

/-- Where both halves hold a key, the first is found. -/
theorem get?_append (key : String) (first second : Entries α) :
    get? key (first ++ second) = (get? key first).or (get? key second) := by
  induction first with
  | nil => rfl
  | cons entry first ih =>
    obtain ⟨name, value⟩ := entry
    by_cases same : name = key
    · simp [get?_cons, same]
    · simp [get?_cons, same, ih]

/-- Nothing is found under a key exactly if no entry has it. -/
theorem get?_eq_none_iff : get? key entries = none ↔ key ∉ keys entries := by
  induction entries with
  | nil => simp
  | cons entry entries ih =>
    obtain ⟨name, value⟩ := entry
    by_cases same : name = key
    · simp [get?_cons, same]
    · simp [get?_cons, same, Ne.symm same, ih]

/-- What is found under a key is an entry. -/
theorem mem_of_get?_eq_some (found : get? key entries = some value) :
    (key, value) ∈ entries := by
  induction entries with
  | nil => cases found
  | cons entry entries ih =>
    obtain ⟨name, other⟩ := entry
    rw [get?_cons] at found
    split at found
    · next same =>
      obtain rfl := Option.some.inj found
      exact same ▸ List.mem_cons_self
    · exact .tail _ (ih found)

/-- What is put is an entry, and all other entries were there before. -/
theorem mem_put {entry : String × α} (member : entry ∈ entries.put key value) :
    entry = (key, value) ∨ entry ∈ entries := by
  induction entries with
  | nil => exact .inl (List.mem_singleton.mp member)
  | cons other entries ih =>
    obtain ⟨name, before⟩ := other
    rw [put] at member
    split at member
    · next same =>
      rcases List.mem_cons.mp member with new | member
      · exact .inl (same ▸ new)
      · exact .inr (.tail _ member)
    · rcases List.mem_cons.mp member with old | member
      · exact .inr (old ▸ List.mem_cons_self)
      · exact (ih member).imp_right (.tail _)

/-- Every entry afterwards is an old one or one that was put. -/
theorem mem_putAll {entry : String × α} (member : entry ∈ entries.putAll others) :
    entry ∈ others ∨ entry ∈ entries := by
  induction others generalizing entries with
  | nil => exact .inr member
  | cons other others ih =>
    rcases ih member with later | before
    · exact .inl (.tail other later)
    · rcases mem_put before with rfl | before
      · exact .inl List.mem_cons_self
      · exact .inr before

/-- Where no key comes twice, the order of the entries does not matter. -/
theorem get?_reverse_of_nodup (distinct : (keys entries).Nodup) :
    get? key entries.reverse = get? key entries := by
  induction entries with
  | nil => rfl
  | cons entry entries ih =>
    obtain ⟨name, value⟩ := entry
    obtain ⟨new, distinct⟩ := List.nodup_cons.mp distinct
    rw [List.reverse_cons, get?_append, ih distinct, get?_cons, get?_cons]
    by_cases same : name = key
    · subst same
      simp [get?_eq_none_iff.mpr new]
    · simp [same]

/-- A key holds what was put last, and else what it held before. -/
theorem get?_putAll (key : String) (entries others : Entries α) :
    get? key (entries.putAll others) = (get? key others.reverse).or (get? key entries) := by
  induction others generalizing entries with
  | nil => rfl
  | cons other others ih =>
    -- The first of the others is put in before the rest, so the rest overrule it.
    obtain ⟨name, value⟩ := other
    rw [putAll_cons, ih, get?_put, List.reverse_cons, get?_append, Option.or_assoc]
    by_cases same : name = key
    · simp [get?_cons, same]
    · simp [get?_cons, same]

/-- The keys stay where they are, and new ones follow in the order in which they first come. -/
theorem keys_putAll (entries others : Entries α) :
    keys (entries.putAll others) =
      keys entries ++ ((keys others).removeAll (keys entries)).eraseDups := by
  induction others generalizing entries with
  | nil => simp [List.removeAll]
  | cons other others ih =>
    obtain ⟨name, value⟩ := other
    rw [putAll_cons, ih, keys_put, keys_cons]
    by_cases present : name ∈ keys entries
    -- A key that is there keeps its place, and later ones that repeat it are passed over as before.
    · have passed : (name :: keys others).removeAll (keys entries) =
          (keys others).removeAll (keys entries) := by
        simp [List.removeAll, present]
      rw [if_pos present, passed]
    -- A new key goes to the end. From now on its repetitions are passed over too, which is what
    -- `eraseDups` does behind the first member of a list.
    · have later : (keys others).removeAll (keys entries ++ [name]) =
          ((keys others).removeAll (keys entries)).filter (! · == name) := by
        simp only [List.removeAll, List.filter_filter]
        exact List.filter_congr fun other _ => by simp [Bool.and_comm, Bool.beq_eq_decide_eq]
      have first : (name :: keys others).removeAll (keys entries) =
          name :: (keys others).removeAll (keys entries) := by
        simp [List.removeAll, present]
      rw [if_neg present, later, first, List.eraseDups_cons, List.append_assoc,
        List.singleton_append]

/-- Names without repetition stay as they are when repetitions are erased. -/
theorem eraseDups_of_nodup {names : List String} (distinct : names.Nodup) :
    names.eraseDups = names := by
  induction names with
  | nil => rfl
  | cons name names ih =>
    obtain ⟨new, distinct⟩ := List.nodup_cons.mp distinct
    have kept : names.filter (! · == name) = names := by
      refine List.filter_eq_self.mpr fun other member => ?_
      simpa using fun same : other = name => new (same ▸ member)
    rw [List.eraseDups_cons, kept, ih distinct]

/-- Where no key came twice before, the keys stand in the order in which they first came. -/
theorem keys_putAll_of_nodup (distinct : (keys entries).Nodup) :
    keys (entries.putAll others) = (keys entries ++ keys others).eraseDups := by
  rw [keys_putAll, List.eraseDups_append, eraseDups_of_nodup distinct]

theorem nodup_keys_nil : (keys ([] : Entries α)).Nodup := List.nodup_nil

/-- Putting an entry keeps the keys distinct. -/
theorem nodup_keys_put (distinct : (keys entries).Nodup) :
    (keys (entries.put key value)).Nodup := by
  rw [keys_put]
  split
  · exact distinct
  · next new =>
    refine List.nodup_append.mpr ⟨distinct, List.nodup_singleton key, ?_⟩
    rintro other member _ added rfl
    exact new (List.mem_singleton.mp added ▸ member)

end HclLint.Model.Entries
