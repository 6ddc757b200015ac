/-
# Strings told from their own text

A string is read up to its closing quote, and nothing behind the quote plays a part: no escape and
no marker reaches over it. So a string is what the text between its quotes is read as, wherever
that text is put between quotes.

## Main statements

* `escapeAt_eq_decoded`: an escape is the same whatever follows it.
* `QuotedRun.readsQuoted`: what is read up to a quote is read whatever stands behind it.
* `readsQuoted_of_stringForm`: a string is what the text between its quotes is read as.
-/

import HclLint.Proofs.Hcl.Cutting
import HclLint.Proofs.Hcl.Literal

namespace HclLint.Hcl.Grammar

open HclLint.Text HclLint.Hcl.Parser

variable {x : Char} {text rest value : List Char} {c next past last : Cursor}

/-! ## Escapes -/

/-- The digits of a number settle it, whatever follows them. -/
theorem hexNumber?_eq_some {value count n : Nat} {xs : List Char}
    (found : hexNumber? value count xs = some n) : ∃ front rest, xs = front ++ rest ∧
      front.length = count ∧ ∀ rest', hexNumber? value count (front ++ rest') = some n := by
  induction count generalizing value xs with
  | zero => exact ⟨[], xs, rfl, rfl, fun _ => found⟩
  | succ count ih =>
    cases xs with
    | nil => cases found
    | cons x xs =>
      obtain ⟨d, digit, more⟩ := Option.bind_eq_some_iff.mp found
      obtain ⟨front, rest, rfl, rfl, again⟩ := ih more
      refine ⟨x :: front, rest, rfl, rfl, fun rest' => ?_⟩
      exact Option.bind_eq_some_iff.mpr ⟨d, digit, again rest'⟩

theorem codePointEscape_eq_decoded {count : Nat}
    (decoded : codePointEscape count c = .decoded x next) : ∃ front, c.Passes front next ∧
      ∀ rest offset, ∃ last, codePointEscape count ⟨front ++ rest, offset⟩ =
        .decoded x ⟨rest, last⟩ := by
  unfold codePointEscape at decoded
  split at decoded
  · next y found =>
    obtain ⟨rfl, rfl⟩ := Escape.decoded.inj decoded
    obtain ⟨n, number, named⟩ := Option.bind_eq_some_iff.mp found
    obtain ⟨front, rest, same, rfl, again⟩ := hexNumber?_eq_some number
    refine ⟨front, ?_, fun rest' offset => ⟨offset + byteLength front, ?_⟩⟩
    · obtain ⟨_, offset⟩ := c
      obtain rfl : _ = front ++ rest := same
      rw [drop_append]
      exact ⟨rfl, rfl⟩
    · simp [codePointEscape, again, named, drop_append]
  · cases decoded

theorem codePointEscape_eq_malformed {count place : Nat} {complaint : Complaint}
    (malformed : codePointEscape count c = .malformed complaint place past) : past = c := by
  unfold codePointEscape at malformed
  split at malformed
  · cases malformed
  · exact (Escape.malformed.inj malformed).2.2.symm

theorem codePointEscape_quote (count : Nat) (rest : List Char) (offset : Nat) :
    codePointEscape (count + 1) ⟨'"' :: rest, offset⟩ =
      .malformed (.codePoint (count + 1)) offset ⟨'"' :: rest, offset⟩ := by
  have noDigit : hexValue? '"' = none := by decide
  simp [codePointEscape, hexNumber?, noDigit]

/-- The character behind a backslash announces a number of digits, or it settles whether there is
an escape. -/
theorem escapeAt_cases (x : Char) :
    (∃ count, ∀ text offset, escapeAt ⟨x :: text, offset⟩ =
      codePointEscape (count + 1) ⟨text, offset + x.utf8Size⟩) ∨
    (∃ y, ∀ text offset, escapeAt ⟨x :: text, offset⟩ = .decoded y ⟨text, offset + x.utf8Size⟩) ∨
    ∀ text offset, escapeAt ⟨x :: text, offset⟩ =
      .malformed .escape (offset + 1) ⟨text, offset + x.utf8Size⟩ := by
  by_cases short : x = 'u'
  · exact .inl ⟨3, fun text offset => by rw [short]; rfl⟩
  by_cases long : x = 'U'
  · exact .inl ⟨7, fun text offset => by rw [long]; rfl⟩
  cases letter : simpleEscape? x with
  | some y => exact .inr (.inl ⟨y, fun text offset => by simp [escapeAt, letter, Cursor.drop]⟩)
  | none => exact .inr (.inr fun text offset => by simp [escapeAt, letter, Cursor.drop])

/-- An escape is the same whatever follows it. -/
theorem escapeAt_eq_decoded (decoded : escapeAt c = .decoded x next) :
    ∃ front, c.Passes front next ∧
      ∀ rest offset, ∃ last, escapeAt ⟨front ++ rest, offset⟩ = .decoded x ⟨rest, last⟩ := by
  obtain ⟨text, offset⟩ := c
  cases text with
  | nil => cases decoded
  | cons y text =>
    have first := Cursor.passes_tail y text offset
    rcases escapeAt_cases y with ⟨count, digits⟩ | ⟨z, letter⟩ | none
    · rw [digits] at decoded
      obtain ⟨front, passes, again⟩ := codePointEscape_eq_decoded decoded
      refine ⟨y :: front, first.trans passes, fun rest offset => ?_⟩
      rw [List.cons_append, digits]
      exact again rest _
    · rw [letter] at decoded
      obtain ⟨rfl, rfl⟩ := Escape.decoded.inj decoded
      exact ⟨[y], first, fun rest offset => ⟨_, letter rest offset⟩⟩
    · rw [none] at decoded
      cases decoded

/-- What is no escape and ends in front of a quote is none in front of any other text with a quote
there. -/
theorem escapeAt_eq_malformed {complaint : Complaint} {place : Nat}
    (malformed : escapeAt c = .malformed complaint place past) (quote : past.rest = '"' :: rest) :
    ∃ y, c.Passes [y] past ∧ ∀ rest offset, ∃ complaint place last,
      escapeAt ⟨y :: '"' :: rest, offset⟩ = .malformed complaint place ⟨'"' :: rest, last⟩ := by
  obtain ⟨text, offset⟩ := c
  cases text with
  | nil => cases malformed
  | cons y text =>
    have first := Cursor.passes_tail y text offset
    rcases escapeAt_cases y with ⟨count, digits⟩ | ⟨z, letter⟩ | none
    · rw [digits] at malformed
      obtain rfl := codePointEscape_eq_malformed malformed
      obtain rfl : text = '"' :: rest := quote
      refine ⟨y, first, fun rest offset => ?_⟩
      rw [digits]
      exact ⟨_, _, _, codePointEscape_quote count rest _⟩
    · rw [letter] at malformed
      cases malformed
    · rw [none] at malformed
      obtain ⟨_, _, rfl⟩ := Escape.malformed.inj malformed
      exact ⟨y, first, fun rest offset => ⟨_, _, _, none _ offset⟩⟩

/-! ## Text between quotes -/

theorem doubledMarker?_eq_some {marker : List Char} (doubled : doubledMarker? text = some marker) :
    ∃ sign more, text = sign :: sign :: '\x7b' :: more ∧ marker = [sign, '\x7b'] ∧
      ∀ more, doubledMarker? (sign :: sign :: '\x7b' :: more) = some [sign, '\x7b'] := by
  unfold doubledMarker? at doubled
  split at doubled
  · exact ⟨'$', _, rfl, (Option.some.inj doubled).symm, fun _ => rfl⟩
  · exact ⟨'%', _, rfl, (Option.some.inj doubled).symm, fun _ => rfl⟩
  · cases doubled

theorem readsQuoted_malformed
    (malformed : ∀ rest offset, ∃ complaint place next,
      escapeAt ⟨x :: '"' :: rest, offset⟩ = .malformed complaint place ⟨'"' :: rest, next⟩) :
    ReadsQuoted ['\\', x] [] := by
  intro rest limit offset enough
  obtain ⟨y, limit, rfl⟩ := List.exists_cons_of_length_pos (Nat.zero_lt_of_lt enough)
  obtain ⟨complaint, place, next, malformed⟩ := malformed rest (offset + 1)
  exact ⟨next, quotedRest_malformed malformed⟩

/-- What is read up to a quote is read whatever stands behind the quote. -/
theorem QuotedRun.readsQuoted (run : QuotedRun c value last) (quote : last.rest = '"' :: rest) :
    ∃ body, c.Passes body last ∧ ReadsQuoted body value := by
  induction run with
  | stop => exact ⟨[], .refl _, readsQuoted_nil⟩
  | @malformed c _ text _ _ backslash malformed =>
    obtain ⟨_, offset⟩ := c
    obtain rfl : _ = '\\' :: text := backslash
    obtain ⟨z, passed, malformed⟩ := escapeAt_eq_malformed malformed quote
    exact ⟨_, (Cursor.passes_tail '\\' text offset).trans passed, readsQuoted_malformed malformed⟩
  | @doubled c _ _ _ doubled _ ih =>
    obtain ⟨_, offset⟩ := c
    obtain ⟨sign, text, rfl, rfl, double⟩ := doubledMarker?_eq_some doubled
    obtain ⟨body, passes, again⟩ := ih quote
    have front : Cursor.Passes ⟨sign :: sign :: '\x7b' :: text, offset⟩ [sign, sign, '\x7b'] _ :=
      ⟨rfl, congrArg Cursor.offset (drop_append [sign, sign, '\x7b'] text offset)⟩
    exact ⟨_, front.trans passes, again.doubled double⟩
  | @escape c _ _ text _ _ backslash decoded _ ih =>
    obtain ⟨_, offset⟩ := c
    obtain rfl : _ = '\\' :: text := backslash
    obtain ⟨escape, passed, decoded⟩ := escapeAt_eq_decoded decoded
    obtain ⟨body, passes, again⟩ := ih quote
    exact ⟨_, ((Cursor.passes_tail '\\' text offset).trans passed).trans passes,
      again.escape decoded⟩
  | @plain c _ text _ x first notQuote notBackslash noMarker noDouble _ ih =>
    obtain ⟨_, offset⟩ := c
    obtain rfl : _ = x :: text := first
    obtain ⟨body, passes, again⟩ := ih quote
    have whole : text = body ++ '"' :: rest := quote ▸ passes.1
    simp only [whole] at noMarker noDouble
    exact ⟨_, (Cursor.passes_tail x text offset).trans passes,
      again.plain notQuote notBackslash noMarker noDouble⟩

theorem quotedRest_of_quotedText {run : String} (read : quotedText c = .read run next) :
    ∃ value, run = String.ofList value ∧ value ≠ [] ∧ quotedRest c.rest c = (value, next) := by
  unfold quotedText at read
  split at read
  · cases read
  · split at read
    · cases read
    · split at read
      · cases read
      · dsimp only at read
        split at read
        · cases read
        · next some =>
          obtain ⟨rfl, rfl⟩ := Outcome.read.inj read
          exact ⟨_, rfl, by simpa using some, rfl⟩

/-- A string is what the text between its quotes is read as. -/
theorem readsQuoted_of_stringForm {form : Form} (read : stringForm c = .read form next) :
    ∃ body value, c.Passes ('"' :: (body ++ ['"'])) next ∧ form = .string (String.ofList value) ∧
      ReadsQuoted body value ∧ (value = [] → body = []) := by
  obtain ⟨_, start, opening, more⟩ := bind_eq_read_iff.mp read
  obtain ⟨text, last, taken, more⟩ := bind_eq_read_iff.mp more
  obtain ⟨_, behind, closing, made⟩ := bind_eq_read_iff.mp more
  obtain ⟨rfl, rfl⟩ := Outcome.read.inj made
  have first := passes_char opening
  have after := passes_char closing
  rcases optional_eq_read_iff.mp taken with ⟨run, found, rfl⟩ | ⟨_, rfl, rfl⟩
  · obtain ⟨value, rfl, some, rest⟩ := quotedRest_of_quotedText found
    obtain ⟨body, passes, reads⟩ := (quotedRun_of_quotedRest rest).readsQuoted after.1
    exact ⟨body, value, first.trans (passes.trans after), rfl, reads, fun none => absurd none some⟩
  · exact ⟨[], [], first.trans after, rfl, readsQuoted_nil, fun _ => rfl⟩

end HclLint.Hcl.Grammar
