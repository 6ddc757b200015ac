/-
# Computations that may fail, in sequence

A sequence of computations succeeds exactly when each of them does, and what every step of a
fold preserves holds of the value that the fold ends with.
-/

import Mathlib.Data.List.Forall2

namespace HclLint

variable {ε α β σ : Type}

@[simp]
theorem except_bind_eq_ok {x : Except ε α} {f : α → Except ε β} {b : β} :
    x >>= f = .ok b ↔ ∃ a, x = .ok a ∧ f a = .ok b := by
  cases x with
  | error e => simp [bind, Except.bind]
  | ok a => simp [bind, Except.bind]

theorem except_bind_eq_error {x : Except ε α} {f : α → Except ε β} :
    (∃ e, x >>= f = .error e) ↔ (∃ e, x = .error e) ∨ ∃ a, x = .ok a ∧ ∃ e, f a = .error e := by
  cases x with
  | error e => simp [bind, Except.bind]
  | ok a => simp [bind, Except.bind]

theorem except_bind_eq_error_iff {x : Except ε α} {f : α → Except ε β} {e : ε} :
    x >>= f = .error e ↔ x = .error e ∨ ∃ a, x = .ok a ∧ f a = .error e := by
  cases x with
  | error e' => simp [bind, Except.bind]
  | ok a => simp [bind, Except.bind]

theorem mapError_eq_ok_iff {ε' : Type} {f : ε → ε'} {x : Except ε α} {a : α} :
    x.mapError f = .ok a ↔ x = .ok a := by
  cases x <;> simp [Except.mapError]

theorem eq_ok_of_toOption_eq_some {x : Except ε α} {a : α} (h : x.toOption = some a) :
    x = .ok a := by
  cases x with
  | error e => cases h
  | ok b => rw [Option.some.inj h]

theorem eq_ok_of_isSome {x : Except ε α} (h : x.toOption.isSome = true) : ∃ a, x = .ok a := by
  cases x with
  | error e => cases h
  | ok a => exact ⟨a, rfl⟩

theorem exists_eq_ok_of_any {x : Except ε α} {p : α → Bool} (h : x.toOption.any p = true) :
    ∃ a, x = .ok a ∧ p a = true := by
  cases x with
  | error e => cases h
  | ok a => exact ⟨a, rfl, h⟩

/-- Whether a mapping succeeds, and with what, is told member by member. -/
theorem toOption_mapM {f : α → Except ε β} {g : α → Option β} (same : ∀ a, (f a).toOption = g a)
    (as : List α) : (as.mapM f).toOption = as.mapM g := by
  induction as with
  | nil => rfl
  | cons a as ih =>
    rw [List.mapM_cons, List.mapM_cons, ← ih, ← same]
    cases f a with
    | error e => rfl
    | ok b => cases as.mapM f <;> rfl

/-- Mapping succeeds exactly when it succeeds on each member. -/
theorem mapM_eq_ok_iff {f : α → Except ε β} {as : List α} {bs : List β} :
    as.mapM f = .ok bs ↔ List.Forall₂ (fun a b => f a = .ok b) as bs := by
  induction as generalizing bs with
  | nil => simp [pure, Except.pure, eq_comm]
  | cons a as ih =>
    -- The first member is mapped first: its failure is that of the whole list.
    rw [List.mapM_cons, List.forall₂_cons_left_iff]
    constructor
    · intro mapped
      obtain ⟨b, first, mapped⟩ := except_bind_eq_ok.mp mapped
      obtain ⟨rest, others, final⟩ := except_bind_eq_ok.mp mapped
      exact ⟨b, rest, first, ih.mp others, (Except.ok.inj final).symm⟩
    · rintro ⟨b, rest, first, others, rfl⟩
      exact except_bind_eq_ok.mpr ⟨b, first, except_bind_eq_ok.mpr ⟨rest, ih.mpr others, rfl⟩⟩

/-- Mapping fails exactly when it fails on some member. -/
theorem mapM_eq_error_iff {f : α → Except ε β} {as : List α} :
    (∃ e, as.mapM f = .error e) ↔ ∃ a ∈ as, ∃ e, f a = .error e := by
  induction as with
  | nil => simp [pure, Except.pure]
  | cons a as ih =>
    rw [List.mapM_cons, except_bind_eq_error, List.exists_mem_cons_iff, ← ih]
    cases f a with
    | error e => simp
    | ok b => simp [except_bind_eq_error, pure, Except.pure]

/-- A mapping fails as it does on the first member that it fails on. -/
theorem mapM_eq_error_iff_first {f : α → Except ε β} {as : List α} {e : ε} :
    as.mapM f = .error e ↔ ∃ front a back, as = front ++ a :: back ∧
      (∀ b ∈ front, ∃ result, f b = .ok result) ∧ f a = .error e := by
  induction as with
  | nil => simp [pure, Except.pure]
  | cons a as ih =>
    rw [List.mapM_cons, except_bind_eq_error_iff]
    constructor
    · rintro (first | ⟨b, first, failed⟩)
      · exact ⟨[], a, as, rfl, by simp, first⟩
      · rcases except_bind_eq_error_iff.mp failed with others | ⟨_, _, final⟩
        · obtain ⟨front, a', back, rfl, fine, fails⟩ := ih.mp others
          exact ⟨a :: front, a', back, rfl, List.forall_mem_cons.mpr ⟨⟨b, first⟩, fine⟩, fails⟩
        · cases final
    · rintro ⟨front, a', back, split, fine, fails⟩
      rcases List.cons_eq_append_iff.mp split with ⟨rfl, same⟩ | ⟨front, rfl, rest⟩
      · obtain ⟨rfl, rfl⟩ := List.cons.inj same
        exact .inl fails
      · obtain ⟨⟨b, first⟩, fine⟩ := List.forall_mem_cons.mp fine
        have others := ih.mpr ⟨front, a', back, rest, fine, fails⟩
        exact .inr ⟨b, first, except_bind_eq_error_iff.mpr (.inl others)⟩

/-- Every result of a mapping is that of a member. -/
theorem exists_of_mapM {f : α → Except ε β} {as : List α} {bs : List β} {b : β}
    (mapped : as.mapM f = .ok bs) (member : b ∈ bs) : ∃ a ∈ as, f a = .ok b := by
  have each := mapM_eq_ok_iff.mp mapped
  clear mapped
  induction each with
  | nil => cases member
  | @cons a c _ _ first _ ih =>
    rcases List.mem_cons.mp member with rfl | member
    · exact ⟨a, List.mem_cons_self, first⟩
    · obtain ⟨a', later, result⟩ := ih member
      exact ⟨a', .tail a later, result⟩

/-- A fold fails as it does at the first step that fails. -/
theorem foldlM_eq_error_iff_first {step : σ → α → Except ε σ} {as : List α} {s : σ} {e : ε} :
    as.foldlM step s = .error e ↔ ∃ front a back s', as = front ++ a :: back ∧
      front.foldlM step s = .ok s' ∧ step s' a = .error e := by
  induction as generalizing s with
  | nil => simp [pure, Except.pure]
  | cons a as ih =>
    rw [List.foldlM_cons, except_bind_eq_error_iff]
    constructor
    · rintro (first | ⟨next, first, failed⟩)
      · exact ⟨[], a, as, s, rfl, rfl, first⟩
      · obtain ⟨front, a', back, s', rfl, run, fails⟩ := ih.mp failed
        have onward : (a :: front).foldlM step s = .ok s' := by
          rw [List.foldlM_cons]
          exact except_bind_eq_ok.mpr ⟨next, first, run⟩
        exact ⟨a :: front, a', back, s', rfl, onward, fails⟩
    · rintro ⟨front, a', back, s', split, run, fails⟩
      rcases List.cons_eq_append_iff.mp split with ⟨rfl, same⟩ | ⟨front, rfl, rest⟩
      · obtain ⟨rfl, rfl⟩ := List.cons.inj same
        obtain rfl := Except.ok.inj run
        exact .inl fails
      · rw [List.foldlM_cons] at run
        obtain ⟨next, first, run⟩ := except_bind_eq_ok.mp run
        exact .inr ⟨next, first, ih.mpr ⟨front, a', back, s', rest, run, fails⟩⟩

/-- What holds at the start and is preserved by each step of a fold holds at its end. -/
theorem foldlM_invariant_of_mem (holds : σ → Prop) {step : σ → α → Except ε σ} {as : List α}
    (preserved : ∀ a ∈ as, ∀ {s s'}, holds s → step s a = .ok s' → holds s') {s s' : σ}
    (start : holds s) (run : as.foldlM step s = .ok s') : holds s' := by
  induction as generalizing s with
  | nil =>
    obtain rfl := Except.ok.inj run
    exact start
  | cons a as ih =>
    obtain ⟨first, others⟩ := List.forall_mem_cons.mp preserved
    rw [List.foldlM_cons] at run
    obtain ⟨next, taken, rest⟩ := except_bind_eq_ok.mp run
    exact ih others (first start taken) rest

/-- What every step preserves, whatever it is taken with. -/
theorem foldlM_invariant (holds : σ → Prop) {step : σ → α → Except ε σ}
    (preserved : ∀ {s a s'}, holds s → step s a = .ok s' → holds s') {as : List α} {s s' : σ}
    (start : holds s) (run : as.foldlM step s = .ok s') : holds s' :=
  foldlM_invariant_of_mem holds (fun _ _ {_ _} => preserved) start run

end HclLint
