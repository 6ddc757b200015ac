/-
# Literals are read back

The token of a text doubles the markers of the text and then escapes it. A reader of quoted
text undoes both at once, from left to right. It can because a marker in the escaped text is
always a doubled one: an escape starts with a backslash, and behind a dollar or percent sign
that stands for itself no brace can come.

## Main definitions

* `literalText`: a text as it stands between the quotes of its literal.
* `ReadsQuoted`: what the text in front of a quote is read as.

## Main statements

* `escapeChar_cases`: a character stands for itself, or its escape is read back.
* `startsMarker_literalText`: no marker starts in front of a literal's text.
* `ReadsQuoted.reads_stringForm`: a string denotes what its text is read as.
* `readsQuoted_literalText`: the text of a literal is read back.
-/

import HclLint.Model.Token
import HclLint.Proofs.Hcl.Reading
import HclLint.Hcl.Grammar.Template

namespace HclLint.Hcl.Grammar

open HclLint.Text HclLint.Hcl.Parser HclLint.Model

variable {c : Char} {text rest value : List Char}

/-! ## Escapes -/

/-- Every character is that of its code point. -/
theorem charOfCodePoint?_toNat (c : Char) : charOfCodePoint? c.toNat = some c := by
  have valid : c.toNat.isValidChar := c.valid
  rw [charOfCodePoint?, if_pos valid, Char.ofNat_toNat]

/-- The four digits of a control character are read back. -/
theorem codePointEscape_control (control : c.toNat < 0x20) (rest : List Char) (offset : Nat) :
    ∃ next, codePointEscape 4 ⟨'0' :: '0' :: hexDigit (c.toNat / 16) :: hexDigit (c.toNat % 16) ::
      rest, offset⟩ = .decoded c ⟨rest, next⟩ := by
  have high := hexValue?_hexDigit (c.toNat / 16) (by omega)
  have low := hexValue?_hexDigit (c.toNat % 16) (by omega)
  have zero : hexValue? '0' = some 0 := rfl
  have whole : 16 * (c.toNat / 16) + c.toNat % 16 = c.toNat := Nat.div_add_mod _ _
  -- The two leading digits are zero, so the number is that of the other two.
  have past := drop_append ['0', '0', hexDigit (c.toNat / 16), hexDigit (c.toNat % 16)] rest offset
  refine ⟨offset + byteLength ['0', '0', hexDigit (c.toNat / 16), hexDigit (c.toNat % 16)], ?_⟩
  simp only [codePointEscape, hexNumber?, zero, high, low, Option.bind_some, Nat.mul_zero,
    Nat.zero_add, whole, charOfCodePoint?_toNat]
  exact congrArg (Escape.decoded c) past

/-- A character stands for itself, or it is escaped and the escape is read back. -/
theorem escapeChar_cases (c : Char) :
    (escapeChar c = [c] ∧ c ≠ '"' ∧ c ≠ '\\') ∨
      ∃ body, escapeChar c = '\\' :: body ∧
        ∀ rest offset, ∃ next, escapeAt ⟨body ++ rest, offset⟩ = .decoded c ⟨rest, next⟩ := by
  by_cases short : c ∈ ['"', '\\', '\x08', '\x0c', '\n', '\r', '\t']
  · refine .inr ?_
    simp only [List.mem_cons, List.not_mem_nil, or_false] at short
    rcases short with rfl | rfl | rfl | rfl | rfl | rfl | rfl
    all_goals exact ⟨_, rfl, fun rest offset => ⟨_, rfl⟩⟩
  · simp only [List.mem_cons, List.not_mem_nil, or_false, not_or] at short
    obtain ⟨quote, backslash, bell, feed, line, back, tab⟩ := short
    -- What has no letter of its own is written by its code point if it is a control character.
    by_cases control : c.toNat < 0x20
    · refine .inr ⟨'u' :: '0' :: '0' :: [hexDigit (c.toNat / 16), hexDigit (c.toNat % 16)], ?_, ?_⟩
      · simp [escapeChar, quote, backslash, bell, feed, line, back, tab, control]
      · exact fun rest offset => codePointEscape_control control rest _
    · refine .inl ⟨?_, quote, backslash⟩
      simp [escapeChar, quote, backslash, bell, feed, line, back, tab, control]

/-! ## Markers -/

/-- A text as it stands between the quotes of its literal. -/
def literalText (value : List Char) : List Char := escapeText (Token.doubleMarkers value)

/-- A character is escaped by itself unless it starts a marker. -/
theorem literalText_cons {cs : List Char} (dollar : ∀ more, c = '$' → cs = '\x7b' :: more → False)
    (percent : ∀ more, c = '%' → cs = '\x7b' :: more → False) :
    literalText (c :: cs) = escapeChar c ++ literalText cs := by
  rw [literalText, Token.doubleMarkers.eq_4 c cs dollar percent, escapeText_cons, literalText]

/-- There are two markers. -/
theorem startsMarker_eq_true_iff :
    startsMarker text = true ↔
      ∃ more, text = '$' :: '\x7b' :: more ∨ text = '%' :: '\x7b' :: more := by
  constructor
  · intro starts
    unfold startsMarker at starts
    split at starts
    · next more => exact ⟨more, .inl rfl⟩
    · next more => exact ⟨more, .inr rfl⟩
    · cases starts
  · rintro ⟨more, rfl | rfl⟩
    · rfl
    · rfl

theorem exists_doubleMarkers_cons (c : Char) (cs : List Char) :
    ∃ more, Token.doubleMarkers (c :: cs) = c :: more := by
  unfold Token.doubleMarkers
  split
  · next same => cases same
  · next same => exact ⟨_, by rw [(List.cons.inj same).1]⟩
  · next same => exact ⟨_, by rw [(List.cons.inj same).1]⟩
  · next same => exact ⟨_, by rw [(List.cons.inj same).1]⟩

/-- In front of a literal's text stands an escape or the first character of the value. -/
theorem head_literalText {rest : List Char} :
    '\x7b' ∈ (literalText value ++ '"' :: rest).head? → '\x7b' ∈ value.head? := by
  intro brace
  match value with
  | [] => cases brace
  | c :: cs =>
    obtain ⟨more, same⟩ := exists_doubleMarkers_cons c cs
    rw [literalText, same, escapeText_cons] at brace
    rcases escapeChar_cases c with ⟨plain, _, _⟩ | ⟨body, escaped, _⟩
    · rw [plain] at brace
      exact brace
    · rw [escaped] at brace
      cases brace

/-- No marker starts in a text whose markers are doubled. -/
theorem startsMarker_cons_literalText (rest : List Char)
    (dollar : ∀ more, c = '$' → value = '\x7b' :: more → False)
    (percent : ∀ more, c = '%' → value = '\x7b' :: more → False) :
    startsMarker (c :: (literalText value ++ '"' :: rest)) = false := by
  rw [Bool.eq_false_iff]
  intro starts
  -- Behind the sign the marker would go on with a brace, and so would the value.
  have brace : ∀ more, literalText value ++ '"' :: rest = '\x7b' :: more →
      ∃ more, value = '\x7b' :: more := by
    intro more same
    have first := head_literalText (by rw [same]; rfl)
    exact List.head?_eq_some_iff.mp first
  obtain ⟨more, same | same⟩ := startsMarker_eq_true_iff.mp starts
  · obtain ⟨sign, behind⟩ := List.cons.inj same
    obtain ⟨more, value⟩ := brace _ behind
    exact dollar more sign value
  · obtain ⟨sign, behind⟩ := List.cons.inj same
    obtain ⟨more, value⟩ := brace _ behind
    exact percent more sign value

/-- No marker starts in front of a literal's text. -/
theorem startsMarker_literalText (value rest : List Char) :
    startsMarker (literalText value ++ '"' :: rest) = false := by
  induction value using Token.doubleMarkers.induct with
  | case1 => rfl
  | case2 cs => rfl
  | case3 cs => rfl
  | case4 c cs dollar percent =>
    rw [literalText_cons dollar percent]
    rcases escapeChar_cases c with ⟨plain, _, _⟩ | ⟨body, escaped, _⟩
    · rw [plain]
      exact startsMarker_cons_literalText rest dollar percent
    · rw [escaped]
      rfl

theorem doubledMarker?_cons_eq_none (none : startsMarker text = false) (c : Char) :
    doubledMarker? (c :: text) = .none := by
  unfold doubledMarker?
  split
  · next same =>
    rw [(List.cons.inj same).2] at none
    cases none
  · next same =>
    rw [(List.cons.inj same).2] at none
    cases none
  · rfl

/-- Whether a marker starts in front of a quote does not depend on what stands behind the quote. -/
theorem startsMarker_quote (body rest rest' : List Char) :
    startsMarker (body ++ '"' :: rest) = startsMarker (body ++ '"' :: rest') := by
  rcases body with _ | ⟨a, _ | ⟨b, body⟩⟩
  · rfl
  · simp [startsMarker]
  · simp only [startsMarker, List.cons_append]
    split <;> simp_all

/-- A quote ends a marker, so what follows it does not matter. -/
theorem doubledMarker?_quote (body rest rest' : List Char) :
    doubledMarker? (body ++ '"' :: rest) = doubledMarker? (body ++ '"' :: rest') := by
  rcases body with _ | ⟨a, _ | ⟨b, _ | ⟨c, body⟩⟩⟩
  · rfl
  · simp [doubledMarker?]
  · simp [doubledMarker?]
  · simp only [doubledMarker?, List.cons_append]
    split
    · simp_all
    · simp_all
    · split <;> simp_all

/-! ## One step of reading -/

section Step

variable {x : Char} {limit : List Char} {offset : Nat}

theorem quotedRest_quote (limit rest : List Char) (offset : Nat) :
    quotedRest limit ⟨'"' :: rest, offset⟩ = ([], ⟨'"' :: rest, offset⟩) := by
  cases limit with
  | nil => rfl
  | cons x limit => rfl

/-- No text is read where a marker starts. -/
theorem quotedRest_marker (starts : startsMarker text = true) :
    quotedRest limit ⟨text, offset⟩ = ([], ⟨text, offset⟩) := by
  cases limit with
  | nil => rfl
  | cons x limit =>
    obtain ⟨more, rfl | rfl⟩ := startsMarker_eq_true_iff.mp starts
    · rfl
    · rfl

/-- No text is read behind a backslash that starts no escape. -/
theorem quotedRest_malformed {complaint : Complaint} {place : Nat} {past : Cursor}
    (malformed : escapeAt ⟨text, offset + 1⟩ = .malformed complaint place past) :
    quotedRest (x :: limit) ⟨'\\' :: text, offset⟩ = ([], past) := by
  have behind : escapeAt (Cursor.drop ⟨'\\' :: text, offset⟩ 1) =
    .malformed complaint place past := malformed
  simp [quotedRest, doubledMarker?, startsMarker, behind]

/-- A doubled marker is read as one. -/
theorem quotedRest_doubled {sign : Char}
    (double : doubledMarker? (sign :: sign :: '\x7b' :: text) = some [sign, '\x7b']) :
    quotedRest (x :: limit) ⟨sign :: sign :: '\x7b' :: text, offset⟩ =
      (sign :: '\x7b' :: (quotedRest limit ⟨text, offset + byteLength [sign, sign, '\x7b']⟩).1,
        (quotedRest limit ⟨text, offset + byteLength [sign, sign, '\x7b']⟩).2) := by
  have past : Cursor.drop ⟨sign :: sign :: '\x7b' :: text, offset⟩ 3 = _ :=
    drop_append [sign, sign, '\x7b'] text offset
  simp only [quotedRest, double, past]
  rfl

/-- A character that is no sign stands for itself. -/
theorem quotedRest_plain (notQuote : c ≠ '"') (notBackslash : c ≠ '\\')
    (noMarker : startsMarker (c :: text) = false) (noDouble : doubledMarker? (c :: text) = none) :
    quotedRest (x :: limit) ⟨c :: text, offset⟩ =
      (c :: (quotedRest limit ⟨text, offset + c.utf8Size⟩).1,
        (quotedRest limit ⟨text, offset + c.utf8Size⟩).2) := by
  simp [quotedRest, noDouble, noMarker, notQuote, notBackslash, Cursor.drop]

/-- An escape is read as its character. -/
theorem quotedRest_escape {next : Cursor}
    (decoded : escapeAt ⟨text, offset + 1⟩ = .decoded c next) :
    quotedRest (x :: limit) ⟨'\\' :: text, offset⟩ =
      (c :: (quotedRest limit next).1, (quotedRest limit next).2) := by
  have decodedBehind : escapeAt (Cursor.drop ⟨'\\' :: text, offset⟩ 1) = .decoded c next := decoded
  simp [quotedRest, doubledMarker?, startsMarker, decodedBehind]

end Step

/-! ## Text in front of a quote -/

/-- The text in front of a quote is read as a value, wherever it stands and whatever stands behind
the quote. One piece of the limit for each of its characters is enough. -/
def ReadsQuoted (body value : List Char) : Prop :=
  ∀ rest limit offset, body.length ≤ limit.length →
    ∃ next, quotedRest limit ⟨body ++ '"' :: rest, offset⟩ = (value, ⟨'"' :: rest, next⟩)

section ReadsQuoted

variable {body : List Char}

theorem readsQuoted_nil : ReadsQuoted [] [] :=
  fun rest limit offset _ => ⟨offset, quotedRest_quote limit rest offset⟩

/-- At least one piece is read for each step, and the others for what follows. -/
theorem exists_limit_cons {front limit : List Char} (some : front ≠ [])
    (enough : (front ++ body).length ≤ limit.length) :
    ∃ x more, limit = x :: more ∧ body.length ≤ more.length := by
  have positive := List.length_pos_iff.mpr some
  rw [List.length_append] at enough
  obtain ⟨x, more, rfl⟩ := List.exists_cons_of_length_pos (l := limit) (by omega)
  rw [List.length_cons] at enough
  exact ⟨x, more, rfl, by omega⟩

/-- A doubled marker in front of quoted text denotes the marker. -/
theorem ReadsQuoted.doubled {sign : Char} (reads : ReadsQuoted body value)
    (double : ∀ more, doubledMarker? (sign :: sign :: '\x7b' :: more) = some [sign, '\x7b']) :
    ReadsQuoted ([sign, sign, '\x7b'] ++ body) (sign :: '\x7b' :: value) := by
  intro rest limit offset enough
  obtain ⟨x, limit, rfl, room⟩ := exists_limit_cons (List.cons_ne_nil _ _) enough
  obtain ⟨next, read⟩ := reads rest limit (offset + byteLength [sign, sign, '\x7b']) room
  refine ⟨next, (quotedRest_doubled (double _)).trans ?_⟩
  exact congrArg (fun result => (sign :: '\x7b' :: result.1, result.2)) read

/-- A plain character in front of it denotes itself. -/
theorem ReadsQuoted.plain (reads : ReadsQuoted body value) (notQuote : c ≠ '"')
    (notBackslash : c ≠ '\\') (noMarker : startsMarker (c :: (body ++ '"' :: rest)) = false)
    (noDouble : doubledMarker? (c :: (body ++ '"' :: rest)) = none) :
    ReadsQuoted ([c] ++ body) (c :: value) := by
  intro rest' limit offset enough
  obtain ⟨x, limit, rfl, room⟩ := exists_limit_cons (List.cons_ne_nil _ _) enough
  obtain ⟨next, read⟩ := reads rest' limit (offset + c.utf8Size) room
  -- A marker in front of this quote would have shown in front of the other one.
  have noMarker' := (startsMarker_quote (c :: body) rest' rest).trans noMarker
  have noDouble' := (doubledMarker?_quote (c :: body) rest' rest).trans noDouble
  refine ⟨next, (quotedRest_plain notQuote notBackslash noMarker' noDouble').trans ?_⟩
  exact congrArg (fun result => (c :: result.1, result.2)) read

/-- An escape in front of it denotes its character. -/
theorem ReadsQuoted.escape {escape : List Char} (reads : ReadsQuoted body value)
    (decoded : ∀ rest offset, ∃ next, escapeAt ⟨escape ++ rest, offset⟩ = .decoded c ⟨rest, next⟩) :
    ReadsQuoted ('\\' :: escape ++ body) (c :: value) := by
  intro rest limit offset enough
  obtain ⟨x, limit, rfl, room⟩ := exists_limit_cons (List.cons_ne_nil _ _) enough
  obtain ⟨past, decoded⟩ := decoded (body ++ '"' :: rest) (offset + 1)
  obtain ⟨next, read⟩ := reads rest limit past room
  refine ⟨next, ?_⟩
  rw [List.append_assoc, List.cons_append, quotedRest_escape decoded, read]

omit body in
/-- Text that is not empty starts with no quote, no marker and no malformed escape, so it is a run
of quoted text. -/
theorem quotedText_of_quotedRest {text : List Char} {offset : Nat} {last : Cursor}
    (some : value ≠ []) (read : quotedRest text ⟨text, offset⟩ = (value, last)) :
    quotedText ⟨text, offset⟩ = .read (String.ofList value) last := by
  cases text with
  | nil => exact absurd (congrArg Prod.fst read).symm some
  | cons x more =>
    have notQuote : x ≠ '"' := by
      rintro rfl
      rw [quotedRest_quote] at read
      exact some (congrArg Prod.fst read).symm
    have noMarker : startsMarker (x :: more) = false := by
      rw [Bool.eq_false_iff]
      intro starts
      rw [quotedRest_marker starts] at read
      exact some (congrArg Prod.fst read).symm
    by_cases backslash : x = '\\'
    · subst backslash
      cases escape : escapeAt (Cursor.drop ⟨'\\' :: more, offset⟩ 1) with
      | malformed complaint place past =>
        rw [quotedRest_malformed escape] at read
        exact absurd (congrArg Prod.fst read).symm some
      | decoded y last => simp [quotedText, noMarker, escape, read, some]
      | cutOff => simp [quotedText, noMarker, escape, read, some]
    · simp [quotedText, notQuote, noMarker, backslash, read, some]

/-- Quoted text that denotes something is one run. -/
theorem ReadsQuoted.reads_quotedText (reads : ReadsQuoted body value) (some : value ≠ [])
    (rest : List Char) :
    Reads quotedText (body ++ '"' :: rest) (· = String.ofList value) ('"' :: rest) := by
  intro offset
  obtain ⟨next, read⟩ := reads rest (body ++ '"' :: rest) offset (by simp)
  exact ⟨String.ofList value, _, quotedText_of_quotedRest some read, rfl⟩

end ReadsQuoted

/-! ## Whole strings -/

theorem isUndone_quotedText_quote (rest : List Char) : IsUndone quotedText ('"' :: rest) :=
  fun _ => ⟨_, rfl⟩

/-- A string denotes what its text is read as. Nothing is no run of text. -/
theorem ReadsQuoted.reads_stringForm {body : List Char} (reads : ReadsQuoted body value)
    (empty : value = [] → body = []) (rest : List Char) :
    Reads stringForm ('"' :: (body ++ '"' :: rest)) (· = .string (String.ofList value)) rest := by
  refine (reads_char '"' _).bind fun _ _ => ?_
  have text : Reads (Parser.optional quotedText) (body ++ '"' :: rest)
      (fun text => text.getD "" = String.ofList value) ('"' :: rest) := by
    cases value with
    | nil =>
      rw [empty rfl]
      refine (isUndone_quotedText_quote rest).optional.imp ?_
      rintro _ rfl
      rfl
    | cons c cs =>
      refine (reads.reads_quotedText (List.cons_ne_nil c cs) rest).optional.imp ?_
      rintro _ ⟨_, rfl, rfl⟩
      rfl
  refine text.bind fun read same => (reads_char '"' rest).bind fun _ _ => ?_
  rw [same]
  exact reads_pure _ rest

/-- The text of a literal is read back. -/
theorem readsQuoted_literalText (value : List Char) : ReadsQuoted (literalText value) value := by
  -- By the cases of the doubling: one piece is read for a marker, and one for any other character.
  induction value using Token.doubleMarkers.induct with
  | case1 => exact readsQuoted_nil
  | case2 cs ih => exact ih.doubled fun _ => rfl
  | case3 cs ih => exact ih.doubled fun _ => rfl
  | case4 c cs dollar percent ih =>
    rw [literalText_cons dollar percent]
    rcases escapeChar_cases c with ⟨plain, notQuote, notBackslash⟩ | ⟨body, escaped, decoded⟩
    · rw [plain]
      have noMarker := startsMarker_cons_literalText [] dollar percent
      have noDouble := doubledMarker?_cons_eq_none (startsMarker_literalText cs []) c
      exact ih.plain notQuote notBackslash noMarker noDouble
    · rw [escaped]
      exact ih.escape decoded

/-- In a run of signs before a brace only the last one belongs to the marker. -/
example : literalText "$$\x7b%\"".toList = "$$$\x7b%\\\"".toList := by decide

/-- The literal of a text denotes it. -/
theorem reads_stringForm (value rest : List Char) :
    Reads stringForm ('"' :: (literalText value ++ '"' :: rest))
      (· = .string (String.ofList value)) rest :=
  (readsQuoted_literalText value).reads_stringForm (by rintro rfl; rfl) rest

end HclLint.Hcl.Grammar
