/-
# Pieces of text

A text cut at a separator, and a text filled up to a width.

## Main statements

* `intercalate_split`: the pieces with the separator between them are the text.
* `not_mem_of_mem_split`: no piece holds the separator.
* `split_append_cons`: a separator parts the pieces before it from those behind it.
-/

namespace HclLint.Text

/-- The stretches of a text between its separators. -/
def split (separator : Char) : List Char → List (List Char)
  | [] => [[]]
  | c :: rest =>
    if c = separator then [] :: split separator rest
    else
      match split separator rest with
      | [] => [[c]]
      | piece :: more => (c :: piece) :: more

/-- A text with blanks behind it, as many as fill it up to a width. -/
def padRight (width : Nat) (text : String) : String :=
  text ++ String.ofList (List.replicate (width - text.length) ' ')

/-- There is always a piece, be it empty. -/
theorem split_ne_nil (separator : Char) (cs : List Char) : split separator cs ≠ [] := by
  cases cs with
  | nil => simp [split]
  | cons c rest =>
    simp only [split]
    split
    · simp
    · split <;> simp

/-- The pieces joined again are the text. -/
theorem intercalate_split (separator : Char) (cs : List Char) :
    List.intercalate [separator] (split separator cs) = cs := by
  induction cs with
  | nil => rfl
  | cons c rest ih =>
    simp only [split]
    have hne := split_ne_nil separator rest
    cases hs : split separator rest with
    | nil => exact absurd hs hne
    | cons piece more =>
      rw [hs] at ih
      by_cases h : c = separator
      · subst h
        simpa [List.intercalate_cons_cons] using ih
      · simp only [h, if_false]
        cases more with
        | nil => simpa [List.intercalate] using ih
        | cons next others => simpa [List.intercalate_cons_cons] using ih

/-- No piece contains the separator. -/
theorem not_mem_of_mem_split {separator : Char} {cs piece : List Char}
    (h : piece ∈ split separator cs) : separator ∉ piece := by
  induction cs generalizing piece with
  | nil => simp_all [split]
  | cons c rest ih =>
    simp only [split] at h
    cases hs : split separator rest with
    | nil => exact absurd hs (split_ne_nil separator rest)
    | cons first more =>
      rw [hs] at h ih
      by_cases hc : c = separator
      · simp only [hc, if_true, List.mem_cons] at h
        rcases h with rfl | h
        · simp
        · exact ih (by simpa using h)
      · simp only [hc, if_false, List.mem_cons] at h
        rcases h with rfl | h
        · have : separator ∉ first := ih (by simp)
          simpa [Ne.symm hc, eq_comm] using this
        · exact ih (by simp [h])

/-- A separator in a text separates the pieces of what is before it from those of what is behind. -/
theorem split_append_cons (separator : Char) (before after : List Char) :
    split separator (before ++ separator :: after) =
      split separator before ++ split separator after := by
  induction before with
  | nil => simp [split]
  | cons c before ih =>
    rw [List.cons_append, split, split, ih]
    cases hs : split separator before with
    | nil => exact absurd hs (split_ne_nil separator before)
    | cons first more =>
      by_cases hc : c = separator
      · simp [hc]
      · simp [hc]

/-- A text without the separator is one piece. -/
theorem split_of_not_mem {separator : Char} {cs : List Char} (h : separator ∉ cs) :
    split separator cs = [cs] := by
  induction cs with
  | nil => rfl
  | cons c rest ih =>
    obtain ⟨hc, hrest⟩ := not_or.1 (mt List.mem_cons.2 h)
    rw [split, if_neg (Ne.symm hc), ih hrest]

/-- There is one piece more than there are separators. -/
theorem length_split (separator : Char) (cs : List Char) :
    (split separator cs).length = cs.count separator + 1 := by
  induction cs with
  | nil => rfl
  | cons c rest ih =>
    rw [split]
    cases hs : split separator rest with
    | nil => exact absurd hs (split_ne_nil separator rest)
    | cons first more =>
      rw [hs] at ih
      by_cases hc : c = separator
      · subst hc
        simpa using ih
      · simpa [hc, List.count_cons] using ih

end HclLint.Text
