/-
# Text of templates in a window

Text between quotes ends at a quote, at a marker or at a malformed escape, and text in a heredoc at
a marker or in front of the line that ends it. None of these holds a closing bracket, and where the
sign that closes a window is a quote, it ends quoted text in both texts. So text that ends in a
window is read alike whatever closes the window. The same is true of text in front of a
quote and in front of an interpolation, if its last character does not double the marker.

## Main definitions

* `IsApart`: a text behind a window that completes no marker and no escape of the window.
* `StepsAlike`: a step of reading a text that is the same whatever closes the window.
* `GoesOn`: a window behind which quoted text does not end for want of characters.

## Main statements

* `exists_scan_window`: texts whose steps are the same are read alike.
* `quotedRest_window`, `heredocRest_window`: so is quoted text that ends in a window, and the text
  of a heredoc.
* `tracks_quotedText`, `tracks_heredocText`: so are the runs of text in templates.
-/

import HclLint.Proofs.Hcl.Quoted
import HclLint.Proofs.Hcl.Window.Blanks

namespace HclLint.Hcl.Grammar

open HclLint.Text HclLint.Hcl.Parser

variable {x : Char} {front window text close close' limit limit' : List Char} {k : Frame}
  {bound : Nat} {c c' next : Cursor}

/-! ## Markers and escapes -/

/-- Two characters tell whether a marker starts. -/
theorem startsMarker_append (enough : 2 ≤ front.length) (text : List Char) :
    startsMarker (front ++ text) = startsMarker front := by
  obtain ⟨a, b, rest, rfl⟩ : ∃ a b rest, front = a :: b :: rest := by
    match front, enough with
    | a :: b :: rest, _ => exact ⟨a, b, rest, rfl⟩
  refine Bool.eq_iff_iff.mpr ?_
  rw [startsMarker_eq_true_iff, startsMarker_eq_true_iff]
  simp [exists_or]

/-- Three characters tell whether it is doubled. -/
theorem doubledMarker?_append (enough : 3 ≤ front.length) (text : List Char) :
    doubledMarker? (front ++ text) = doubledMarker? front := by
  obtain ⟨a, b, d, rest, rfl⟩ : ∃ a b d rest, front = a :: b :: d :: rest := by
    match front, enough with
    | a :: b :: d :: rest, _ => exact ⟨a, b, d, rest, rfl⟩
  have again {text text' marker : List Char}
      (doubled : doubledMarker? (a :: b :: d :: rest ++ text) = some marker) :
      doubledMarker? (a :: b :: d :: rest ++ text') = some marker := by
    obtain ⟨sign, more, same, rfl, again⟩ := doubledMarker?_eq_some doubled
    obtain ⟨rfl, rfl, rfl, _⟩ : a = sign ∧ b = sign ∧ d = '\x7b' ∧ rest ++ text = more := by
      simpa using same
    exact again (rest ++ text')
  refine Option.ext fun marker => ⟨fun doubled => ?_, fun doubled => ?_⟩
  · rw [← List.append_nil (a :: b :: d :: rest)]
    exact again doubled
  · rw [← List.append_nil (a :: b :: d :: rest)] at doubled
    exact again doubled

theorem doubledMarker?_of_short (short : text.length < 3) : doubledMarker? text = none := by
  rw [Option.eq_none_iff_forall_ne_some]
  intro marker doubled
  obtain ⟨sign, more, rfl, _⟩ := doubledMarker?_eq_some doubled
  exact absurd short (by simp)

theorem startsMarker_of_short (short : text.length < 2) : startsMarker text = false := by
  refine Bool.eq_false_iff.mpr fun starts => ?_
  obtain ⟨more, rfl | rfl⟩ := startsMarker_eq_true_iff.mp starts
  · exact absurd short (by simp)
  · exact absurd short (by simp)

/-- No marker of the window goes on in the text behind it, and no digits of an escape do. -/
structure IsApart (window text : List Char) : Prop where
  marker : ∀ ⦃rest⦄, rest <:+ window → rest ≠ [] → startsMarker (rest ++ text) = startsMarker rest
  doubled : ∀ ⦃rest⦄, rest <:+ window → rest ≠ [] →
    doubledMarker? (rest ++ text) = doubledMarker? rest
  digit : ∀ x ∈ text.head?, hexValue? x = none

/-- What completes nothing of a window completes nothing of its end. -/
theorem IsApart.of_suffix {whole : List Char} (apart : IsApart whole text)
    (within : window <:+ whole) : IsApart window text :=
  ⟨fun _ part => apart.marker (part.trans within), fun _ part => apart.doubled (part.trans within),
    apart.digit⟩

theorem IsApart.of_append (apart : IsApart (front ++ window) text) : IsApart window text :=
  apart.of_suffix (List.suffix_append front window)

/-- The first characters of a text tell whether it completes anything. -/
theorem isApart_of_head (brace : ∀ x ∈ text.head?, x ≠ '\x7b')
    (sign : ∀ x ∈ window.getLast?, doubledMarker? (x :: text) = none)
    (digit : ∀ x ∈ text.head?, hexValue? x = none) : IsApart window text := by
  have last {x : Char} {rest : List Char} (within : rest ++ [x] <:+ window) :
      doubledMarker? (x :: text) = none := by
    obtain ⟨front, rfl⟩ := within
    refine sign x ?_
    rw [← List.append_assoc, List.getLast?_concat]
    rfl
  refine ⟨fun rest within some => ?_, fun rest within some => ?_, digit⟩
  · match rest, some with
    | [x], _ =>
      rw [startsMarker_of_short (show [x].length < 2 by simp), Bool.eq_false_iff]
      intro starts
      obtain ⟨more, same | same⟩ := startsMarker_eq_true_iff.mp starts
      · obtain ⟨rfl, rfl⟩ := List.cons.inj same
        exact brace _ rfl rfl
      · obtain ⟨rfl, rfl⟩ := List.cons.inj same
        exact brace _ rfl rfl
    | x :: y :: rest, _ => exact startsMarker_append (by simp) text
  · match rest, some with
    | [x], _ =>
      rw [doubledMarker?_of_short (show [x].length < 3 by simp)]
      exact last (show [] ++ [x] <:+ window from within)
    | [x, y], _ =>
      rw [doubledMarker?_of_short (show [x, y].length < 3 by simp),
        Option.eq_none_iff_forall_ne_some]
      intro marker doubled
      obtain ⟨sign, more, same, _⟩ := doubledMarker?_eq_some doubled
      obtain ⟨_, _, rfl⟩ : x = sign ∧ y = sign ∧ text = '\x7b' :: more := by simpa using same
      exact brace _ rfl rfl
    | x :: y :: z :: rest, _ => exact doubledMarker?_append (by simp) text

/-- A closing sign completes neither a marker nor an escape. -/
theorem isApart_of_closes (closes : Closes close) (window : List Char) : IsApart window close := by
  refine isApart_of_head (closes.head (by decide)) (fun x _ => ?_) (closes.head (by decide))
  rw [Option.eq_none_iff_forall_ne_some]
  intro marker doubled
  obtain ⟨sign, more, same, rfl, again⟩ := doubledMarker?_eq_some doubled
  have closer : sign ∈ closers := closes sign (by rw [(List.cons.inj same).2]; rfl)
  have none : ∀ y ∈ closers, doubledMarker? [y, y, '\x7b'] = none := by decide
  exact Option.some_ne_none _ ((again []).symm.trans (none sign closer))

/-- Whether a marker starts in the window is told there. -/
theorem startsMarker_window (window : List Char) (closes : Closes close)
    (closes' : Closes close') :
    startsMarker (window ++ close) = startsMarker (window ++ close') := by
  cases window with
  | nil =>
    have none {close : List Char} (closes : Closes close) : startsMarker close = false := by
      have closed : ∀ x ∈ closers, x ≠ '$' ∧ x ≠ '%' := by decide
      refine Bool.eq_false_iff.mpr fun starts => ?_
      obtain ⟨more, rfl | rfl⟩ := startsMarker_eq_true_iff.mp starts
      · exact (closed '$' (closes '$' rfl)).1 rfl
      · exact (closed '%' (closes '%' rfl)).2 rfl
    exact (none closes).trans (none closes').symm
  | cons x window =>
    have whole := List.suffix_refl (x :: window)
    rw [(isApart_of_closes closes _).marker whole (List.cons_ne_nil _ _),
      (isApart_of_closes closes' _).marker whole (List.cons_ne_nil _ _)]

/-- The digits of an escape lie in the window, or they are not enough in either text. -/
theorem hexNumber?_window (value count : Nat) (window : List Char)
    (digit : ∀ x ∈ close.head?, hexValue? x = none)
    (digit' : ∀ x ∈ close'.head?, hexValue? x = none) :
    hexNumber? value count (window ++ close) = hexNumber? value count (window ++ close') ∧
      ∀ n, hexNumber? value count (window ++ close) = some n → count ≤ window.length := by
  induction count generalizing value window with
  | zero => exact ⟨rfl, fun _ _ => Nat.zero_le _⟩
  | succ count ih =>
    cases window with
    | nil =>
      have none {text : List Char} (digit : ∀ x ∈ text.head?, hexValue? x = none) :
          hexNumber? value (count + 1) ([] ++ text) = none := by
        cases text with
        | nil => rfl
        | cons x text => simp [hexNumber?, digit x rfl]
      rw [none digit, none digit']
      exact ⟨rfl, by rintro _ ⟨⟩⟩
    | cons x window =>
      simp only [List.cons_append, hexNumber?]
      cases hexValue? x with
      | none => simp
      | some d =>
        obtain ⟨same, inside⟩ := ih (16 * value + d) window
        exact ⟨same, fun n found => Nat.succ_le_succ (inside n found)⟩

/-- Where an escape starts in a window, it is the same whatever closes the window: either the same
character off the same front, or a malformed one that ends behind the same front. -/
theorem escapeAt_window (views : c.Views (x :: window) close)
    (views' : c'.Views (x :: window) close') (digit : ∀ x ∈ close.head?, hexValue? x = none)
    (digit' : ∀ x ∈ close'.head?, hexValue? x = none) :
    ∃ front next next' rest, x :: window = front ++ rest ∧ c.Passes front next ∧
      c'.Passes front next' ∧
      ((∃ y, escapeAt c = .decoded y next ∧ escapeAt c' = .decoded y next') ∨
        ∃ complaint complaint' place place', escapeAt c = .malformed complaint place next ∧
          escapeAt c' = .malformed complaint' place' next') := by
  obtain ⟨_, offset⟩ := c
  obtain ⟨_, offset'⟩ := c'
  obtain rfl : _ = x :: (window ++ close) := views
  obtain rfl : _ = x :: (window ++ close') := views'
  have first := Cursor.passes_tail x (window ++ close) offset
  have first' := Cursor.passes_tail x (window ++ close') offset'
  rcases escapeAt_cases x with ⟨count, digits⟩ | ⟨z, letter⟩ | none
  · obtain ⟨same, inside⟩ := hexNumber?_window 0 (count + 1) window digit digit'
    rw [digits, digits, codePointEscape, codePointEscape, ← same]
    cases found : (hexNumber? 0 (count + 1) (window ++ close)).bind charOfCodePoint? with
    | some y =>
      obtain ⟨n, number, _⟩ := Option.bind_eq_some_iff.mp found
      have length : (window.take (count + 1)).length = count + 1 :=
        List.length_take_of_le (inside n number)
      have split : window.take (count + 1) ++ window.drop (count + 1) = window :=
        List.take_append_drop _ _
      have passes (close : List Char) (offset : Nat) :
          Cursor.Passes ⟨window ++ close, offset⟩ (window.take (count + 1))
            (Cursor.drop ⟨window ++ close, offset⟩ (count + 1)) := by
        have whole : Cursor.Views (window.take (count + 1) ++ window.drop (count + 1)) close
            ⟨window ++ close, offset⟩ := by
          rw [split]
          rfl
        have passed := whole.passes_drop
        rwa [length] at passed
      refine ⟨x :: window.take (count + 1), _, _, window.drop (count + 1), ?_,
        first.trans (passes _ _), first'.trans (passes _ _), .inl ⟨y, rfl, rfl⟩⟩
      rw [List.cons_append, split]
    | none => exact ⟨[x], _, _, window, rfl, first, first', .inr ⟨_, _, _, _, rfl, rfl⟩⟩
  · exact ⟨[x], _, _, window, rfl, first, first', .inl ⟨z, letter _ _, letter _ _⟩⟩
  · exact ⟨[x], _, _, window, rfl, first, first', .inr ⟨_, _, _, _, none _ _, none _ _⟩⟩

/-! ## Steps of reading a text -/

/-- A reader of text, which takes at most one piece for every character of a limit. -/
abbrev Scan := List Char → Cursor → Option (List Char × Cursor)

/-- The first step at two cursors in front of a window: the text ends behind the same front of the
window, or the same piece of text is read off the same front. -/
inductive StepsAlike (scan : Scan) (window : List Char) (c c' : Cursor) : Prop where
  | ends {front : List Char} {next next' : Cursor} (passes : c.Passes front next)
      (passes' : c'.Passes front next') (stops : ∀ y limit, scan (y :: limit) c = some ([], next))
      (stops' : ∀ y limit, scan (y :: limit) c' = some ([], next'))
  | piece (front added : List Char) {rest : List Char} {next next' : Cursor}
      (split : window = front ++ rest)
      (nonempty : front ≠ []) (passes : c.Passes front next) (passes' : c'.Passes front next')
      (reads : ∀ y limit, scan (y :: limit) c =
        (scan limit next).map fun result => (added ++ result.1, result.2))
      (reads' : ∀ y limit, scan (y :: limit) c' =
        (scan limit next').map fun result => (added ++ result.1, result.2))

/-- A piece of the limit pays for what a step passes. -/
theorem length_le_of_passes {n : Nat} (passes : c.Passes front next) (nonempty : front ≠ [])
    (enough : c.rest.length ≤ n + 1) : next.rest.length ≤ n := by
  have positive := List.length_pos_iff.mpr nonempty
  rw [passes.1, List.length_append] at enough
  omega

/-- Where every step in a window is the same whatever closes it, and so is the end of a text where
the window is closed, texts that end in the window are read alike. -/
theorem exists_scan_window (scan : Scan) (fits : Cursor → Prop) {whole value : List Char}
    {last : Cursor}
    (steps : ∀ x window c c', x :: window <:+ whole → c.Views (x :: window) close →
      c'.Views (x :: window) close' →
      (∃ y limit value last, scan (y :: limit) c = some (value, last) ∧ fits last) →
        StepsAlike scan (x :: window) c c')
    (stops : ∀ limit limit' c c' value last, c.rest.length ≤ limit.length → c.Views [] close →
      c'.Views [] close' → scan limit c = some (value, last) → fits last →
        last = c ∧ scan limit' c' = some (value, c'))
    (enough : c.rest.length ≤ limit.length) (enough' : c'.rest.length ≤ limit'.length)
    (views : c.Views window close) (views' : c'.Views window close') (within : window <:+ whole)
    (read : scan limit c = some (value, last)) (fit : fits last) :
    ∃ front last', scan limit' c' = some (value, last') ∧ c.Passes front last ∧
      c'.Passes front last' := by
  -- The induction is on the limit; a step leaves a suffix of the window.
  induction limit generalizing limit' window c c' value with
  | nil =>
    have none : window ++ close = [] :=
      views.symm.trans (List.eq_nil_of_length_eq_zero (Nat.le_zero.mp enough))
    obtain rfl := (List.append_eq_nil_iff.mp none).1
    obtain ⟨rfl, again⟩ := stops _ limit' _ _ _ _ enough views views' read fit
    exact ⟨[], c', again, .refl _, .refl _⟩
  | cons y limit ih =>
    cases window with
    | nil =>
      obtain ⟨rfl, again⟩ := stops _ limit' _ _ _ _ enough views views' read fit
      exact ⟨[], c', again, .refl _, .refl _⟩
    | cons x window =>
      have positive : 0 < c'.rest.length := by
        rw [views']
        exact Nat.zero_lt_succ _
      obtain ⟨y', limit', rfl⟩ :=
        List.exists_cons_of_length_pos (Nat.lt_of_lt_of_le positive enough')
      cases steps x window c c' within views views' ⟨y, limit, value, last, read, fit⟩ with
      | ends passes passes' stops stops' =>
        rw [stops] at read
        obtain ⟨rfl, rfl⟩ := Prod.mk.inj (Option.some.inj read)
        exact ⟨_, _, stops' _ _, passes, passes'⟩
      | piece front added split nonempty passes passes' reads reads' =>
        rw [reads] at read
        obtain ⟨⟨more, _⟩, taken, same⟩ := Option.map_eq_some_iff.mp read
        obtain ⟨rfl, rfl⟩ := Prod.mk.inj same
        rw [split] at views views' within
        obtain ⟨back, last', again, onward, onward'⟩ :=
          ih (length_le_of_passes passes nonempty enough)
            (length_le_of_passes passes' nonempty enough') (passes.views views)
            (passes'.views views') ((List.suffix_append _ _).trans within) taken
        exact ⟨_, last', by rw [reads', again]; rfl, passes.trans onward, passes'.trans onward'⟩

/-! ## Quoted text -/

/-- Quoted text goes on in front of the text, or ends there for a reason of its own: not because
nothing is left, and not at a last backslash. -/
structure GoesOn (text : List Char) : Prop where
  some : text ≠ []
  escape : text ≠ ['\\']

/-- No quoted text is read in front of the text. -/
def EndsText (text : List Char) : Prop :=
  ∀ limit offset, quotedRest limit ⟨text, offset⟩ = ([], ⟨text, offset⟩)

theorem endsText_quote (rest : List Char) : EndsText ('"' :: rest) :=
  fun limit offset => quotedRest_quote limit rest offset

/-- A marker ends text, as a quote does. -/
theorem endsText_of_startsMarker (starts : startsMarker text = true) : EndsText text :=
  fun _ _ => quotedRest_marker starts

/-- What is taken for an escape takes its first character. -/
theorem length_escapeAt {y : Char} {offset : Nat}
    (escape : escapeAt ⟨x :: text, offset⟩ = .decoded y next ∨
      ∃ complaint place, escapeAt ⟨x :: text, offset⟩ = .malformed complaint place next) :
    next.rest.length ≤ text.length := by
  rcases escapeAt_cases x with ⟨count, digits⟩ | ⟨z, letter⟩ | none
  · rw [digits] at escape
    rcases escape with decoded | ⟨_, _, malformed⟩
    · obtain ⟨front, passes, _⟩ := codePointEscape_eq_decoded decoded
      exact Cursor.LeadsTo.length_le ⟨front, passes⟩
    · obtain rfl := codePointEscape_eq_malformed malformed
      exact Nat.le_refl _
  · rw [letter] at escape
    rcases escape with decoded | ⟨_, _, malformed⟩
    · obtain ⟨_, rfl⟩ := Escape.decoded.inj decoded
      exact Nat.le_refl _
    · cases malformed
  · rw [none] at escape
    rcases escape with decoded | ⟨_, _, malformed⟩
    · cases decoded
    · obtain ⟨_, _, rfl⟩ := Escape.malformed.inj malformed
      exact Nat.le_refl _

/-- A backslash in front of the end of a window is no part of text that ends in the window. -/
theorem length_quotedRest_backslash {offset : Nat}
    (goesOn : GoesOn (quotedRest (x :: limit) ⟨'\\' :: text, offset⟩).2.rest) :
    (quotedRest (x :: limit) ⟨'\\' :: text, offset⟩).2.rest.length < text.length := by
  cases text with
  | nil => exact absurd rfl goesOn.escape
  | cons z text =>
    refine Nat.lt_succ_of_le ?_
    cases escape : escapeAt ⟨z :: text, offset + 1⟩ with
    | decoded y next =>
      rw [quotedRest_escape escape]
      exact Nat.le_trans (leadsTo_quotedRest limit next).length_le (length_escapeAt (.inl escape))
    | malformed complaint place past =>
      rw [quotedRest_malformed escape]
      exact length_escapeAt (y := z) (.inr ⟨_, _, escape⟩)
    | cutOff =>
      have some := escapeAt_cases z
      rcases some with ⟨count, digits⟩ | ⟨_, letter⟩ | none
      · rw [digits, codePointEscape] at escape
        split at escape
        · cases escape
        · cases escape
      · rw [letter] at escape
        cases escape
      · rw [none] at escape
        cases escape

/-- A step of quoted text in a window is the same whatever closes the window, unless it is a
backslash in front of the end of the window. -/
theorem stepsAlike_quotedRest (apart : IsApart (x :: window) close)
    (apart' : IsApart (x :: window) close') (views : c.Views (x :: window) close)
    (views' : c'.Views (x :: window) close') (escapes : x = '\\' → window ≠ []) :
    StepsAlike (fun limit c => some (quotedRest limit c)) (x :: window) c c' := by
  obtain ⟨_, offset⟩ := c
  obtain ⟨_, offset'⟩ := c'
  obtain rfl : _ = x :: (window ++ close) := views
  obtain rfl : _ = x :: (window ++ close') := views'
  have whole : x :: window <:+ x :: window := List.suffix_refl _
  have nonempty : x :: window ≠ [] := List.cons_ne_nil _ _
  have marked := apart.marker whole nonempty
  have marked' := apart'.marker whole nonempty
  have doubled := apart.doubled whole nonempty
  have doubled' := apart'.doubled whole nonempty
  cases marker : startsMarker (x :: window) with
  | true =>
    rw [marker] at marked marked'
    exact .ends (.refl _) (.refl _) (fun _ _ => congrArg some (quotedRest_marker marked))
      (fun _ _ => congrArg some (quotedRest_marker marked'))
  | false =>
    rw [marker] at marked marked'
    cases double : doubledMarker? (x :: window) with
    | some pair =>
      obtain ⟨sign, rest, same, rfl, again⟩ := doubledMarker?_eq_some double
      obtain ⟨rfl, rfl⟩ := List.cons.inj same
      exact .piece [x, x, '\x7b'] [x, '\x7b'] rfl (List.cons_ne_nil _ _) ⟨rfl, rfl⟩ ⟨rfl, rfl⟩
        (fun _ _ => congrArg some (quotedRest_doubled (again _)))
        (fun _ _ => congrArg some (quotedRest_doubled (again _)))
    | none =>
      rw [double] at doubled doubled'
      have first (text : List Char) (offset : Nat) := Cursor.passes_tail x text offset
      by_cases quote : x = '"'
      · subst quote
        exact .ends (.refl _) (.refl _) (fun _ _ => congrArg some (quotedRest_quote _ _ _))
          (fun _ _ => congrArg some (quotedRest_quote _ _ _))
      by_cases backslash : x = '\\'
      · subst backslash
        obtain ⟨z, window, rfl⟩ := List.exists_cons_of_ne_nil (escapes rfl)
        obtain ⟨front, next, next', rest, split, passes, passes', escape⟩ :=
          escapeAt_window (show Cursor.Views (z :: window) close ⟨_, offset + 1⟩ from rfl)
            (show Cursor.Views (z :: window) close' ⟨_, offset' + 1⟩ from rfl)
            apart.digit apart'.digit
        have behind := (first _ _).trans passes
        have behind' := (first _ _).trans passes'
        rcases escape with ⟨y, decoded, decoded'⟩ | ⟨_, _, _, _, malformed, malformed'⟩
        · exact .piece _ [y] (congrArg _ split) (List.cons_ne_nil _ _) behind behind'
            (fun _ _ => congrArg some (quotedRest_escape decoded))
            (fun _ _ => congrArg some (quotedRest_escape decoded'))
        · exact .ends behind behind' (fun _ _ => congrArg some (quotedRest_malformed malformed))
            (fun _ _ => congrArg some (quotedRest_malformed malformed'))
      · exact .piece [x] [x] rfl (List.cons_ne_nil _ _) (first _ _) (first _ _)
          (fun _ _ => congrArg some (quotedRest_plain quote backslash marked doubled))
          (fun _ _ => congrArg some (quotedRest_plain quote backslash marked' doubled'))

/-- Quoted text that ends in the window, or where it is closed, is read alike. -/
theorem quotedRest_window (enough : c.rest.length ≤ limit.length)
    (enough' : c'.rest.length ≤ limit'.length) (views : c.Views window close)
    (views' : c'.Views window close') (apart : IsApart window close)
    (apart' : IsApart window close')
    (ends : ∀ ⦃limit offset⦄, close.length ≤ limit.length →
      close.length ≤ (quotedRest limit ⟨close, offset⟩).2.rest.length →
        (quotedRest limit ⟨close, offset⟩).2.rest ≠ [] → EndsText close ∧ EndsText close')
    (inside : close.length ≤ (quotedRest limit c).2.rest.length)
    (goesOn : GoesOn (quotedRest limit c).2.rest) :
    (quotedRest limit' c').1 = (quotedRest limit c).1 ∧
      ∃ front, c.Passes front (quotedRest limit c).2 ∧
        c'.Passes front (quotedRest limit' c').2 := by
  have read : some (quotedRest limit c) = some ((quotedRest limit c).1, (quotedRest limit c).2) :=
    rfl
  refine Exists.elim (exists_scan_window (fun limit c => some (quotedRest limit c))
    (fun last => close.length ≤ last.rest.length ∧ GoesOn last.rest) ?steps ?stops
    enough enough' views views' (List.suffix_refl _) read ⟨inside, goesOn⟩) ?_
  case steps =>
    rintro x window c c' within views views' ⟨y, limit, value, last, read, inside, goesOn⟩
    refine stepsAlike_quotedRest (apart.of_suffix within) (apart'.of_suffix within) views views' ?_
    rintro rfl rfl
    obtain ⟨text, offset⟩ := c
    obtain rfl : text = '\\' :: close := views
    obtain rfl := congrArg Prod.snd (Option.some.inj read)
    exact absurd (length_quotedRest_backslash goesOn) (Nat.not_lt_of_le inside)
  case stops =>
    rintro limit limit' ⟨_, offset⟩ ⟨_, offset'⟩ value last enough rfl rfl read ⟨inside, goesOn⟩
    obtain rfl := congrArg Prod.snd (Option.some.inj read)
    obtain ⟨here, there⟩ := ends enough inside goesOn.some
    have none := Option.some.inj read
    rw [here] at none
    obtain ⟨rfl, _⟩ := Prod.mk.inj none
    exact ⟨congrArg Prod.snd (here _ _), congrArg some (there _ _)⟩
  rintro front ⟨last', same, passes, passes'⟩
  have again : quotedRest limit' c' = ((quotedRest limit c).1, last') := Option.some.inj same
  rw [again]
  exact ⟨rfl, front, passes, passes'⟩

/-- Of the closing signs only the quote ends quoted text. -/
theorem exists_quote_of_closes {offset : Nat} (closes : Closes close)
    (enough : close.length ≤ limit.length)
    (inside : close.length ≤ (quotedRest limit ⟨close, offset⟩).2.rest.length)
    (some : (quotedRest limit ⟨close, offset⟩).2.rest ≠ []) : ∃ rest, close = '"' :: rest := by
  have forward := (leadsTo_quotedRest limit ⟨close, offset⟩).length_le
  cases close with
  | nil => exact absurd (List.eq_nil_of_length_eq_zero (Nat.le_zero.mp forward)) some
  | cons x close =>
    refine ⟨close, congrArg (· :: close) (Decidable.by_contra fun other => ?_)⟩
    obtain ⟨y, limit, rfl⟩ :=
      List.exists_cons_of_length_pos (Nat.lt_of_lt_of_le (Nat.zero_lt_succ _) enough)
    -- Every other sign stands for itself, and so it is taken.
    have plain : x ≠ '\\' ∧ ∀ more, startsMarker (x :: more) = false ∧
        doubledMarker? (x :: more) = none := by
      have closer := closes x rfl
      simp only [closers, List.mem_cons, List.not_mem_nil, or_false, other] at closer
      rcases closer with rfl | rfl | rfl
      all_goals exact ⟨by decide, fun _ => ⟨rfl, rfl⟩⟩
    rw [quotedRest_plain other plain.1 (plain.2 _).1 (plain.2 _).2] at inside
    have left := (leadsTo_quotedRest limit ⟨close, offset + x.utf8Size⟩).length_le
    exact Nat.not_lt_of_le left inside

/-- Where quoted text ends in front of what closes a window, it ends there in both texts. -/
theorem endsText_of_frame {offset : Nat} (k : Frame) (enough : k.left.length ≤ limit.length)
    (inside : k.left.length ≤ (quotedRest limit ⟨k.left, offset⟩).2.rest.length)
    (some : (quotedRest limit ⟨k.left, offset⟩).2.rest ≠ []) :
    EndsText k.left ∧ EndsText k.right := by
  obtain ⟨rest, left⟩ := exists_quote_of_closes k.closesLeft enough inside some
  have first := k.sameSign (left ▸ List.cons_ne_nil _ _)
  rw [left, List.head?_cons] at first
  obtain ⟨rest', right⟩ := List.head?_eq_some_iff.mp first
  rw [left, right]
  exact ⟨endsText_quote rest, endsText_quote rest'⟩

/-- Where a run was read, the text did not end for want of characters. -/
theorem goesOn_of_quotedText {run : String} (read : quotedText c = .read run next) :
    GoesOn c.rest := by
  obtain ⟨_, offset⟩ := c
  refine ⟨?_, ?_⟩
  · rintro rfl
    cases read
  · rintro rfl
    cases read

/-- Quoted text is read alike where a quote or a marker comes behind it. -/
theorem tracks_quotedText : Tracks k bound id (fun w => GoesOn (w ++ k.left))
    (fun w => GoesOn (w ++ k.left)) quotedText quotedText := by
  refine ⟨fun _ => advances_quotedText, ?_⟩
  intro front window c run next passes views _ ending read
  have here := passes.views_append views
  refine ⟨here ▸ goesOn_of_quotedText read, fun c' there => ?_⟩
  obtain ⟨value, rfl, some, whole⟩ := quotedRest_of_quotedText read
  rw [← views] at ending
  have last : (quotedRest c.rest c).2 = next := by rw [whole]
  have inside : k.left.length ≤ next.rest.length := by
    rw [views, List.length_append]
    exact Nat.le_add_left _ _
  rw [← last] at inside ending
  obtain ⟨same, between, passed, passed'⟩ := quotedRest_window (Nat.le_refl _)
    (Nat.le_refl c'.rest.length) here there (isApart_of_closes k.closesLeft _)
    (isApart_of_closes k.closesRight _) (fun _ _ => endsText_of_frame k) inside ending
  rw [whole] at same passed
  obtain rfl := passes.eq passed
  obtain ⟨text, offset⟩ := c'
  have again : quotedRest text ⟨text, offset⟩ = (value, (quotedRest text ⟨text, offset⟩).2) :=
    Prod.ext same rfl
  exact ⟨_, _, quotedText_of_quotedRest some again, passed', rfl⟩

/-! ## Heredocs -/

/-- The line that ends a heredoc starts in the window if it starts in front of it. -/
theorem startsHeredocEnd_iff {delimiter : List Char} (apart : ∀ x ∈ delimiter, x ∉ closers)
    (closes : Closes close) : startsHeredocEnd delimiter (window ++ close) = true ↔
      ∃ ending rest more, (ending = ['\n'] ∨ ending = ['\r', '\n']) ∧ window = ending ++ rest ∧
        rest.dropWhile isSpace = delimiter ++ more := by
  have line (rest : List Char) : delimiter.isPrefixOf ((rest ++ close).dropWhile isSpace) =
      true ↔ ∃ more, rest.dropWhile isSpace = delimiter ++ more := by
    have blanks : (rest ++ close).dropWhile isSpace = rest.dropWhile isSpace ++ close := by
      induction rest with
      | nil =>
        cases close with
        | nil => rfl
        | cons x close =>
          have solid : isSpace x = false :=
            closes.head (by decide : ∀ y ∈ closers, isSpace y = false) x rfl
          simp [solid]
      | cons x rest ih =>
        rw [List.cons_append, List.dropWhile_cons, List.dropWhile_cons]
        split
        · exact ih
        · rfl
    rw [blanks]
    refine ⟨exists_of_isPrefixOf apart closes, ?_⟩
    rintro ⟨more, same⟩
    rw [same]
    exact List.isPrefixOf_iff_prefix.mpr ⟨more ++ close, (List.append_assoc _ _ _).symm⟩
  have starts {w more : List Char} (same : window ++ close = w ++ more) :
      w.isPrefixOf (window ++ close) = true :=
    List.isPrefixOf_iff_prefix.mpr ⟨more, same.symm⟩
  constructor
  · intro ends
    unfold startsHeredocEnd at ends
    dsimp only at ends
    split at ends
    · next rest same =>
      obtain ⟨rest, rfl⟩ := exists_of_isPrefixOf (by decide) closes (starts (w := ['\n']) same)
      obtain rfl := (List.cons.inj same).2
      obtain ⟨more, left⟩ := (line rest).mp ends
      exact ⟨_, rest, more, .inl rfl, rfl, left⟩
    · next rest same =>
      obtain ⟨rest, rfl⟩ :=
        exists_of_isPrefixOf (by decide) closes (starts (w := ['\r', '\n']) same)
      obtain rfl := (List.cons.inj (List.cons.inj same).2).2
      obtain ⟨more, left⟩ := (line rest).mp ends
      exact ⟨_, rest, more, .inr rfl, rfl, left⟩
    · cases ends
  · rintro ⟨ending, rest, more, rfl | rfl, rfl, left⟩
    · exact (line rest).mpr ⟨more, left⟩
    · exact (line rest).mpr ⟨more, left⟩

/-- Whether the line that ends a heredoc comes next is told in the window. -/
theorem startsHeredocEnd_window {delimiter : List Char} (apart : ∀ x ∈ delimiter, x ∉ closers)
    (window : List Char) (closes : Closes close) (closes' : Closes close') :
    startsHeredocEnd delimiter (window ++ close) = startsHeredocEnd delimiter (window ++ close') :=
  Bool.eq_iff_iff.mpr
    ((startsHeredocEnd_iff apart closes).trans (startsHeredocEnd_iff apart closes').symm)

section Heredoc

variable {delimiter text : List Char} {offset : Nat}

/-- A marker and the line of the delimiter end the text of a heredoc. -/
theorem heredocRest_end (ends : (startsMarker text || startsHeredocEnd delimiter text) = true) :
    heredocRest delimiter (x :: limit) ⟨text, offset⟩ = some ([], ⟨text, offset⟩) := by
  have noDouble : doubledMarker? text = none := by
    unfold doubledMarker?
    split
    · cases ends
    · cases ends
    · rfl
  cases text with
  | nil => cases ends
  | cons y text => simp [heredocRest, noDouble, ends]

/-- A doubled marker is read as one. -/
theorem heredocRest_doubled {sign : Char}
    (double : doubledMarker? (sign :: sign :: '\x7b' :: text) = some [sign, '\x7b']) :
    heredocRest delimiter (x :: limit) ⟨sign :: sign :: '\x7b' :: text, offset⟩ =
      (heredocRest delimiter limit ⟨text, offset + byteLength [sign, sign, '\x7b']⟩).map
        fun result => ([sign, '\x7b'] ++ result.1, result.2) := by
  have past : Cursor.drop ⟨sign :: sign :: '\x7b' :: text, offset⟩ 3 = _ :=
    drop_append [sign, sign, '\x7b'] text offset
  simp only [heredocRest, double, past]

/-- Any other character stands for itself. -/
theorem heredocRest_plain {y : Char} (noDouble : doubledMarker? (y :: text) = none)
    (goesOn : (startsMarker (y :: text) || startsHeredocEnd delimiter (y :: text)) = false) :
    heredocRest delimiter (x :: limit) ⟨y :: text, offset⟩ =
      (heredocRest delimiter limit ⟨text, offset + y.utf8Size⟩).map
        fun result => ([y] ++ result.1, result.2) := by
  simp [heredocRest, noDouble, goesOn, Cursor.drop]

/-- A step of a heredoc's text in a window is the same whatever closes the window. -/
theorem stepsAlike_heredocRest (apart : ∀ x ∈ delimiter, x ∉ closers) (closes : Closes close)
    (closes' : Closes close') (views : c.Views (x :: window) close)
    (views' : c'.Views (x :: window) close') :
    StepsAlike (heredocRest delimiter) (x :: window) c c' := by
  obtain ⟨_, offset⟩ := c
  obtain ⟨_, offset'⟩ := c'
  obtain rfl : _ = x :: (window ++ close) := views
  obtain rfl : _ = x :: (window ++ close') := views'
  have ended {text : List Char} (closes : Closes text) :
      startsMarker (x :: (window ++ text)) = startsMarker (x :: window) ∧
        doubledMarker? (x :: (window ++ text)) = doubledMarker? (x :: window) :=
    have apart := isApart_of_closes closes (x :: window)
    ⟨apart.marker (List.suffix_refl _) (List.cons_ne_nil _ _),
      apart.doubled (List.suffix_refl _) (List.cons_ne_nil _ _)⟩
  obtain ⟨marked, doubled⟩ := ended closes
  obtain ⟨marked', doubled'⟩ := ended closes'
  have line : startsHeredocEnd delimiter (x :: (window ++ close)) =
      startsHeredocEnd delimiter (x :: (window ++ close')) :=
    startsHeredocEnd_window apart (x :: window) closes closes'
  have same : (startsMarker (x :: (window ++ close)) ||
      startsHeredocEnd delimiter (x :: (window ++ close))) =
      (startsMarker (x :: (window ++ close')) ||
        startsHeredocEnd delimiter (x :: (window ++ close'))) := by
    rw [marked, marked', line]
  cases ends : startsMarker (x :: (window ++ close)) ||
      startsHeredocEnd delimiter (x :: (window ++ close)) with
  | true =>
    exact .ends (.refl _) (.refl _) (fun _ _ => heredocRest_end ends)
      (fun _ _ => heredocRest_end (same.symm.trans ends))
  | false =>
    cases double : doubledMarker? (x :: window) with
    | some pair =>
      obtain ⟨sign, rest, here, rfl, again⟩ := doubledMarker?_eq_some double
      obtain ⟨rfl, rfl⟩ := List.cons.inj here
      exact .piece [x, x, '\x7b'] _ rfl (List.cons_ne_nil _ _) ⟨rfl, rfl⟩ ⟨rfl, rfl⟩
        (fun _ _ => heredocRest_doubled (again _)) (fun _ _ => heredocRest_doubled (again _))
    | none =>
      exact .piece [x] _ rfl (List.cons_ne_nil _ _) (Cursor.passes_tail _ _ _)
        (Cursor.passes_tail _ _ _)
        (fun _ _ => heredocRest_plain (doubled.trans double) ends)
        (fun _ _ => heredocRest_plain (doubled'.trans double) (same.symm.trans ends))

/-- No heredoc's text ends where a window is closed: no line starts there, and no marker. -/
theorem not_length_le_of_heredocRest {value : List Char} {last : Cursor} (closes : Closes close)
    (read : heredocRest delimiter limit ⟨close, offset⟩ = some (value, last)) :
    ¬ close.length ≤ last.rest.length := by
  intro inside
  cases limit with
  | nil => cases read
  | cons y limit =>
    cases close with
    | nil => cases read
    | cons x close =>
      have plain : doubledMarker? (x :: close) = none ∧
          (startsMarker (x :: close) || startsHeredocEnd delimiter (x :: close)) = false := by
        have closer := closes x rfl
        simp only [closers, List.mem_cons, List.not_mem_nil, or_false] at closer
        rcases closer with rfl | rfl | rfl | rfl <;> exact ⟨rfl, rfl⟩
      rw [heredocRest_plain plain.1 plain.2] at read
      obtain ⟨⟨more, _⟩, taken, same⟩ := Option.map_eq_some_iff.mp read
      obtain ⟨rfl, rfl⟩ := Prod.mk.inj same
      exact Nat.not_lt_of_le inside
        (Nat.lt_succ_of_le (leadsTo_heredocRest taken).length_le)

/-- A heredoc's text that ends in the window, or where it is closed, is read alike. -/
theorem heredocRest_window {value : List Char} {last : Cursor}
    (apart : ∀ x ∈ delimiter, x ∉ closers) (closes : Closes close) (closes' : Closes close')
    (enough : c.rest.length ≤ limit.length) (enough' : c'.rest.length ≤ limit'.length)
    (views : c.Views window close) (views' : c'.Views window close')
    (read : heredocRest delimiter limit c = some (value, last))
    (inside : close.length ≤ last.rest.length) :
    ∃ front last', heredocRest delimiter limit' c' = some (value, last') ∧ c.Passes front last ∧
      c'.Passes front last' := by
  refine exists_scan_window _ (fun last => close.length ≤ last.rest.length)
    (fun x window c c' _ views views' _ =>
      stepsAlike_heredocRest apart closes closes' views views')
    (fun limit limit' c c' value last _ here _ read inside => ?_)
    enough enough' views views' (List.suffix_refl _) read inside
  obtain ⟨_, offset⟩ := c
  obtain rfl : _ = close := here
  exact absurd inside (not_length_le_of_heredocRest closes read)

end Heredoc

theorem goesOn_of_heredocText {run delimiter : String}
    (read : heredocText delimiter c = .read run next) : GoesOn c.rest := by
  obtain ⟨_, offset⟩ := c
  refine ⟨?_, ?_⟩
  · rintro rfl
    cases read
  · rintro rfl
    cases read

/-- The text of a heredoc is read alike, since what ends it lies in the window. -/
theorem tracks_heredocText {ends : List Char → Prop} {delimiter : String}
    (apart : ∀ x ∈ delimiter.toList, x ∉ closers) : Tracks k bound id ends
      (fun w => GoesOn (w ++ k.left)) (heredocText delimiter) (heredocText delimiter) := by
  refine ⟨fun _ => advances_heredocText delimiter, ?_⟩
  intro front window c run next passes views _ _ read
  have here := passes.views_append views
  refine ⟨here ▸ goesOn_of_heredocText read, fun c' there => ?_⟩
  unfold heredocText at read
  split at read
  · next x xs last taken =>
    obtain ⟨rfl, rfl⟩ := Outcome.read.inj read
    have inside : k.left.length ≤ last.rest.length := by
      rw [views, List.length_append]
      exact Nat.le_add_left _ _
    obtain ⟨between, last', again, passed, passed'⟩ := heredocRest_window apart k.closesLeft
      k.closesRight (Nat.le_refl _) (Nat.le_refl c'.rest.length) here there taken inside
    obtain rfl := passes.eq passed
    exact ⟨_, last', by rw [heredocText, again], passed', rfl⟩
  · cases read

/-! ## Every run of text takes something -/

section Runs

variable {last : Cursor} {limit value delimiter : List Char}

/-- A run that denotes something takes some of the text. -/
theorem QuotedRun.length_lt (run : QuotedRun c value last) (some : value ≠ []) :
    last.rest.length < c.rest.length := by
  cases run with
  | stop => exact absurd rfl some
  | malformed => exact absurd rfl some
  | doubled doubled more =>
    obtain ⟨sign, text, same, _⟩ := doubledMarker?_eq_some doubled
    exact length_lt_of_drop same more.leadsTo
  | escape backslash decoded more =>
    exact length_lt_of_drop backslash (((leadsTo_escapeAt _).1 _ _ decoded).trans more.leadsTo)
  | plain first _ _ _ _ more => exact length_lt_of_drop first more.leadsTo

theorem takesSome_quotedText : TakesSome quotedText := by
  intro c run next read
  obtain ⟨value, rfl, some, rest⟩ := quotedRest_of_quotedText read
  exact (quotedRun_of_quotedRest rest).length_lt some

theorem length_heredocRest_lt (read : heredocRest delimiter limit c = some (value, last))
    (nonempty : value ≠ []) : last.rest.length < c.rest.length := by
  cases limit with
  | nil => cases read
  | cons y limit =>
    rw [heredocRest] at read
    split at read
    · next marker doubled =>
      obtain ⟨sign, more, same, _⟩ := doubledMarker?_eq_some doubled
      obtain ⟨_, taken, made⟩ := Option.map_eq_some_iff.mp read
      obtain ⟨_, rfl⟩ := Prod.mk.inj made
      exact length_lt_of_drop same (leadsTo_heredocRest taken)
    · split at read
      · cases read
      · next x more same =>
        split at read
        · obtain ⟨rfl, rfl⟩ := Prod.mk.inj (Option.some.inj read)
          exact absurd rfl nonempty
        · obtain ⟨_, taken, made⟩ := Option.map_eq_some_iff.mp read
          obtain ⟨_, rfl⟩ := Prod.mk.inj made
          exact length_lt_of_drop same (leadsTo_heredocRest taken)

theorem takesSome_heredocText (delimiter : String) : TakesSome (heredocText delimiter) := by
  intro c run next read
  unfold heredocText at read
  split at read
  · next taken =>
    obtain ⟨_, rfl⟩ := Outcome.read.inj read
    exact length_heredocRest_lt taken (List.cons_ne_nil _ _)
  · cases read

theorem takesSome_templateText (quoting : Quoting) : TakesSome (templateText quoting) := by
  cases quoting with
  | quoted => exact takesSome_quotedText
  | heredoc delimiter => exact takesSome_heredocText delimiter

end Runs

/-- No run of text starts where the text of a heredoc ends. -/
theorem isUndone_heredocText {delimiter : String} {text : List Char}
    (ends : (startsMarker text || startsHeredocEnd delimiter.toList text) = true) :
    IsUndone (heredocText delimiter) text := by
  intro offset
  cases text with
  | nil => cases ends
  | cons x text =>
    rw [heredocText, heredocRest_end ends]
    exact ⟨_, rfl⟩

end HclLint.Hcl.Grammar
