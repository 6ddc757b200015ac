/-
# Ordered entries

Entries under text keys, in the order in which the keys first came. Putting an entry under
a key that is present replaces its value and keeps its slot; a new key goes to the end.

## Main statements

* `get?_put`: a key holds what was put last.
* `keys_put`: the keys stay, and a new one comes last.
-/

namespace HclLint.Model

/-- Values under text keys, in order. -/
abbrev Entries (α : Type) : Type := List (String × α)

namespace Entries

variable {α : Type}

/-- The keys in order. -/
def keys (entries : Entries α) : List String := entries.map (·.1)

/-- The value under a key. -/
def get? (key : String) : Entries α → Option α
  | [] => none
  | (k, v) :: rest => if k = key then some v else get? key rest

/-- Whether there is an entry under a key. -/
def contains (entries : Entries α) (key : String) : Bool := (get? key entries).isSome

/-- Puts a value under a key, into its slot if it has one and else at the end. -/
def put (key : String) (value : α) : Entries α → Entries α
  | [] => [(key, value)]
  | (k, v) :: rest => if k = key then (k, value) :: rest else (k, v) :: put key value rest

@[simp]
theorem get?_nil (key : String) : get? key ([] : Entries α) = none := rfl

/-- What was put under a key is found there, and other keys are not touched. -/
theorem get?_put (key other : String) (value : α) (entries : Entries α) :
    get? other (put key value entries) =
      if key = other then some value else get? other entries := by
  induction entries with
  | nil => simp [put, get?]
  | cons entry rest ih =>
    obtain ⟨k, v⟩ := entry
    by_cases hk : k = key
    · subst hk
      by_cases ho : k = other <;> simp [put, get?, ho]
    · by_cases ho : k = other
      · subst ho
        simp [put, get?, hk, Ne.symm hk]
      · simp [put, get?, hk, ho, ih]

@[simp]
theorem get?_put_self (key : String) (value : α) (entries : Entries α) :
    get? key (put key value entries) = some value := by
  simp [get?_put]

/-- A new key is put behind the others, and a known one keeps its place. -/
theorem keys_put (key : String) (value : α) (entries : Entries α) :
    keys (put key value entries) =
      if key ∈ keys entries then keys entries else keys entries ++ [key] := by
  induction entries with
  | nil => simp [put, keys]
  | cons entry rest ih =>
    obtain ⟨k, v⟩ := entry
    simp only [keys] at ih
    by_cases hk : k = key
    · subst hk
      simp [put, keys]
    · by_cases hm : key ∈ rest.map (·.1)
      · simp [put, keys, hk, ih, hm]
      · simp [put, keys, hk, ih, hm, Ne.symm hk]

end Entries

end HclLint.Model
