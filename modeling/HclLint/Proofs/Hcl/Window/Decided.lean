/-
# What the text before a closing sign decides

A closing bracket belongs to no word of the grammar, and neither does a quote or the end of a text.
So the readers of words and signs come to the same result on all texts that agree up to such a
place: they read the same value off the same characters in front of it, or fail in the same way. The
text up to the place is called a window.

## Main definitions

* `Closes`: a text that may stand behind a window.
* `Cursor.Views`: a cursor in front of a window and what closes it.
* `Outcome.Matches`: two outcomes that are the same in a window.
* `IsDecided`: a parser whose outcome is settled by the window it starts at.

## Main statements

* `IsDecided.bind`, `IsDecided.choice`, `isDecided_many_satisfy`: combinations of decided parsers.
* `isDecided_identifier`, `isDecided_number`: the readers of words are decided.
-/

import HclLint.Hcl.Grammar.Expression
import HclLint.Proofs.Hcl.Cutting

namespace HclLint.Hcl

open HclLint.Text

-- Without these, a statement about the characters of a list or of an option may be decided over all
-- the characters there are.
instance decidableForallMem (holds : Char → Prop) [DecidablePred holds] (chars : List Char) :
    Decidable (∀ x ∈ chars, holds x) :=
  List.decidableBAll holds chars

instance decidableForallMemOption (holds : Char → Prop) [DecidablePred holds] (o : Option Char) :
    Decidable (∀ x ∈ o, holds x) :=
  Option.decidableForallMem o

/-- The signs that close a window: the closing brackets and the quote. -/
def closers : List Char := [']', ')', '\x7d', '"']

/-- What stands behind a window: a text that a closing sign starts, or nothing. -/
def Closes (text : List Char) : Prop := ∀ x ∈ text.head?, x ∈ closers

theorem closes_nil : Closes [] := by simp [Closes]

/-- A text closes a window by its first character alone. -/
theorem closes_cons {x : Char} (closer : x ∈ closers) (text : List Char) : Closes (x :: text) := by
  rintro _ ⟨⟩
  exact closer

/-- What holds of all closing signs holds of the character behind a window, if there is one. -/
theorem Closes.head {text : List Char} {holds : Char → Prop} (closes : Closes text)
    (each : ∀ x ∈ closers, holds x) : ∀ x ∈ text.head?, holds x :=
  fun x first => each x (closes x first)

namespace Cursor

variable {c next : Cursor} {front window rest close : List Char}

/-- The cursor stands in front of the window and of what closes it. -/
def Views (window close : List Char) (c : Cursor) : Prop := c.rest = window ++ close

/-- What is left of a window is seen behind its front. -/
theorem Passes.views (passes : c.Passes front next) (views : c.Views (front ++ window) close) :
    next.Views window close :=
  List.append_cancel_left (passes.1.symm.trans (views.trans (List.append_assoc _ _ _)))

/-- A window is seen together with what was passed to reach it. -/
theorem Passes.views_append (passes : c.Passes front next) (views : next.Views window close) :
    c.Views (front ++ window) close := by
  rw [Views, List.append_assoc, ← views]
  exact passes.1

/-- Going forward leaves no more text than there was. -/
theorem LeadsTo.length_le (forward : c.LeadsTo next) : next.rest.length ≤ c.rest.length := by
  obtain ⟨between, passes⟩ := forward
  rw [passes.1, List.length_append]
  omega

/-- What stands in front of the end of a window has a window of its own. -/
theorem Views.exists_rest (views : c.Views window close) (passes : c.Passes front next)
    (inside : close.length ≤ next.rest.length) :
    ∃ rest, next.Views rest close ∧ window = front ++ rest := by
  have whole : window ++ close = front ++ next.rest := views.symm.trans passes.1
  rcases List.append_eq_append_iff.mp whole with ⟨more, rfl, behind⟩ | ⟨rest, rfl, same⟩
  · have lengths := congrArg List.length behind
    rw [List.length_append] at lengths
    obtain rfl : more = [] := List.eq_nil_of_length_eq_zero (by omega)
    exact ⟨[], behind.symm, by simp⟩
  · exact ⟨rest, same, rfl⟩

/-- A front of the window is passed in as many characters as it has. -/
theorem Views.passes_drop (views : c.Views (front ++ window) close) :
    c.Passes front (c.drop front.length) := by
  obtain ⟨_, offset⟩ := c
  obtain rfl : _ = front ++ window ++ close := views
  rw [List.append_assoc, Parser.drop_append]
  exact ⟨rfl, rfl⟩

end Cursor

/-- The outcomes of reading at two cursors in front of a window are the same: the same value off
the same characters of the window, or a failure of the same kind. -/
inductive Outcome.Matches {α : Type} (window : List Char) (c c' : Cursor) :
    Outcome α → Outcome α → Prop where
  | read {a : α} {front rest : List Char} {next next' : Cursor} (split : window = front ++ rest)
      (passes : c.Passes front next) (passes' : c'.Passes front next') :
      Matches window c c' (.read a next) (.read a next')
  | undone (complaint complaint' : Complaint) :
      Matches window c c' (.undone complaint) (.undone complaint')
  | final (complaint complaint' : Complaint) (place place' : Nat) :
      Matches window c c' (.final complaint place) (.final complaint' place')

namespace Parser

variable {α β : Type} {p q : Parser α} {f : α → Parser β} {test : Char → Bool}
  {window close close' : List Char} {c c' next : Cursor}

/-- The window that the parser starts at settles what it reads, whatever closes the window. -/
def IsDecided (p : Parser α) : Prop :=
  ∀ ⦃window close close' c c'⦄, Closes close → Closes close' → Cursor.Views window close c →
    Cursor.Views window close' c' → Outcome.Matches window c c' (p c) (p c')

/-! ## Combinations -/

/-- A value that is given without reading is decided. -/
theorem isDecided_pure (a : α) : IsDecided (pure a) :=
  fun _ _ _ c c' _ _ _ _ => .read (List.nil_append _).symm (.refl c) (.refl c')

theorem isDecided_undone (complaint : Complaint) :
    IsDecided fun _ => (.undone complaint : Outcome α) :=
  fun _ _ _ _ _ _ _ _ _ => .undone _ _

theorem isDecided_fail : IsDecided (fail : Parser α) := isDecided_undone .unexpected

theorem IsDecided.ite {condition : Prop} [Decidable condition] (yes : IsDecided p)
    (no : IsDecided q) : IsDecided (if condition then p else q) := by
  split
  · exact yes
  · exact no

/-- What is left of the window decides the second parser of a sequence. -/
theorem IsDecided.bind (first : IsDecided p) (second : ∀ a, IsDecided (f a)) :
    IsDecided (p >>= f) := by
  intro window close close' c c' closes closes' views views'
  have outcomes := first closes closes' views views'
  rw [bind_apply, bind_apply]
  generalize p c = outcome, p c' = outcome' at outcomes ⊢
  cases outcomes with
  | undone => exact .undone _ _
  | final => exact .final _ _ _ _
  | @read a front rest next next' split passes passes' =>
    subst split
    have onward := second a closes closes' (passes.views views) (passes'.views views')
    dsimp only
    generalize f a next = outcome, f a next' = outcome' at onward ⊢
    cases onward with
    | undone => exact .undone _ _
    | final => exact .final _ _ _ _
    | read split later later' =>
      subst split
      exact .read (List.append_assoc _ _ _).symm (passes.trans later) (passes'.trans later')

/-- The window decides which of two alternatives is taken. -/
theorem IsDecided.choice (first : IsDecided p) (second : IsDecided q) :
    IsDecided (choice p q) := by
  intro window close close' c c' closes closes' views views'
  have outcomes := first closes closes' views views'
  rw [Parser.choice, Parser.choice]
  generalize p c = outcome, p c' = outcome' at outcomes ⊢
  cases outcomes with
  | undone => exact second closes closes' views views'
  | final => exact .final _ _ _ _
  | read split passes passes' => exact .read split passes passes'

/-- It decides as well whether an option is there. -/
theorem IsDecided.optional (decided : IsDecided p) : IsDecided (optional p) := by
  intro window close close' c c' closes closes' views views'
  have outcomes := decided closes closes' views views'
  rw [Parser.optional, Parser.optional]
  generalize p c = outcome, p c' = outcome' at outcomes ⊢
  cases outcomes with
  | undone => exact .read (List.nil_append _).symm (.refl c) (.refl c')
  | final => exact .final _ _ _ _
  | read split passes passes' => exact .read split passes passes'

theorem IsDecided.demand (decided : IsDecided p) (complaint : Complaint) :
    IsDecided (demand complaint p) := by
  intro window close close' c c' closes closes' views views'
  have outcomes := decided closes closes' views views'
  rw [Parser.demand, Parser.demand]
  generalize p c = outcome, p c' = outcome' at outcomes ⊢
  cases outcomes with
  | undone => exact .final _ _ _ _
  | final => exact .final _ _ _ _
  | read split passes passes' => exact .read split passes passes'

/-! ## Characters and words -/

/-- A test that no closing sign satisfies fails behind the window as it does at the end. -/
theorem isDecided_satisfy (apart : ∀ x ∈ closers, test x = false) : IsDecided (satisfy test) := by
  rintro window close close' ⟨_, offset⟩ ⟨_, offset'⟩ closes closes' rfl rfl
  cases window with
  | nil =>
    have undone {text : List Char} (closes : Closes text) (offset : Nat) :
        ∃ complaint, satisfy test ⟨[] ++ text, offset⟩ = .undone complaint :=
      isUndone_satisfy (closes.head apart) offset
    obtain ⟨_, failed⟩ := undone closes offset
    obtain ⟨_, failed'⟩ := undone closes' offset'
    rw [failed, failed']
    exact .undone _ _
  | cons x window =>
    simp only [satisfy, List.cons_append]
    split
    · exact .read (show x :: window = [x] ++ window from rfl) (Cursor.passes_tail x _ _)
        (Cursor.passes_tail x _ _)
    · exact .undone _ _

theorem isDecided_char {x : Char} (apart : x ∉ closers) : IsDecided (char x) :=
  isDecided_satisfy fun _ closer => beq_false_of_ne fun same => apart (same ▸ closer)

/-- A word without closing signs starts a text where it starts the window. -/
theorem exists_of_isPrefixOf {w : List Char} (apart : ∀ x ∈ w, x ∉ closers) (closes : Closes close)
    (starts : w.isPrefixOf (window ++ close) = true) : ∃ rest, window = w ++ rest := by
  obtain ⟨rest, same⟩ := List.isPrefixOf_iff_prefix.mp starts
  rcases List.append_eq_append_iff.mp same with ⟨more, rfl, _⟩ | ⟨more, rfl, behind⟩
  · exact ⟨more, rfl⟩
  · cases more with
    | nil => exact ⟨[], by simp⟩
    | cons x more =>
      exact absurd (closes x (by rw [behind]; rfl))
        (apart x (List.mem_append_right window List.mem_cons_self))

/-- A word without closing signs lies in the window or is not there. -/
theorem isDecided_word {w : List Char} (apart : ∀ x ∈ w, x ∉ closers) : IsDecided (word w) := by
  intro window close close' c c' closes closes' views views'
  have prefixes {close : List Char} (closes : Closes close) :
      w.isPrefixOf (window ++ close) = true ↔ ∃ rest, window = w ++ rest := by
    refine ⟨exists_of_isPrefixOf apart closes, ?_⟩
    rintro ⟨rest, rfl⟩
    exact List.isPrefixOf_iff_prefix.mpr ⟨rest ++ close, (List.append_assoc _ _ _).symm⟩
  rw [word, word, views, views']
  by_cases starts : ∃ rest, window = w ++ rest
  · obtain ⟨rest, rfl⟩ := starts
    rw [if_pos ((prefixes closes).mpr ⟨rest, rfl⟩), if_pos ((prefixes closes').mpr ⟨rest, rfl⟩)]
    exact .read rfl views.passes_drop views'.passes_drop
  · rw [if_neg (mt (prefixes closes).mp starts), if_neg (mt (prefixes closes').mp starts)]
    exact .undone _ _

theorem isDecided_demandWord {w : String} (apart : ∀ x ∈ w.toList, x ∉ closers) :
    IsDecided (demandWord w) :=
  (isDecided_word apart).demand _

/-- A run of characters ends in the window, or with it. -/
theorem isDecided_many_satisfy (apart : ∀ x ∈ closers, test x = false) :
    IsDecided (many (satisfy test)) := by
  intro window close close' c c' closes closes' views views'
  have passing : ∀ x ∈ window.takeWhile test, test x = true :=
    List.all_eq_true.mp List.all_takeWhile
  -- In the window or at what closes it the run comes to its end.
  have stops {close : List Char} (closes : Closes close) :
      ∀ x ∈ (window.dropWhile test ++ close).head?, test x = false := by
    intro x head
    have fails := List.head?_dropWhile_not test window
    cases left : window.dropWhile test with
    | nil =>
      rw [left] at head
      exact closes.head apart x head
    | cons y more =>
      rw [left] at head fails
      cases head
      simpa using fails
  have run {close : List Char} (closes : Closes close) {c : Cursor} (views : c.Views window close) :
      ∃ next, many (satisfy test) c = .read (window.takeWhile test) next ∧
        c.Passes (window.takeWhile test) next := by
    obtain ⟨_, offset⟩ := c
    obtain rfl : _ = window ++ close := views
    have reads := reads_many_satisfy passing (stops closes)
    rw [← List.append_assoc, List.takeWhile_append_dropWhile] at reads
    obtain ⟨_, next, read, rfl⟩ := reads offset
    exact ⟨_, read, passes_many_satisfy read⟩
  obtain ⟨next, read, passes⟩ := run closes views
  obtain ⟨next', read', passes'⟩ := run closes' views'
  rw [read, read']
  exact .read List.takeWhile_append_dropWhile.symm passes passes'

end Parser

namespace Grammar

open HclLint.Hcl.Parser

/-! ## Identifiers and numbers -/

/-- A closing sign is part of no identifier. -/
theorem isDecided_identifier : IsDecided identifier :=
  (isDecided_satisfy (by decide)).bind fun _ => (isDecided_many_satisfy (by decide)).bind fun _ =>
    isDecided_pure _

/-- It is no digit either. -/
theorem isDecided_digits : IsDecided digits :=
  (isDecided_satisfy (by decide)).bind fun _ => (isDecided_many_satisfy (by decide)).bind fun _ =>
    isDecided_pure _

theorem isDecided_exponent : IsDecided exponent :=
  (isDecided_satisfy (by decide)).bind fun _ => (isDecided_satisfy (by decide)).optional.bind
    fun _ => (isDecided_digits.demand _).bind fun _ => isDecided_pure _

/-- Whether a number is a decimal is decided, and with it whether it is too large for one. -/
theorem isDecided_decimal : IsDecided decimal := by
  have fraction : IsDecided fraction := (isDecided_char (by decide)).bind fun _ => isDecided_digits
  have scaled := fraction.bind fun behind => isDecided_exponent.optional.bind fun scale =>
    isDecided_pure (behind, scale.getD 0)
  have whole := isDecided_exponent.bind fun scale => isDecided_pure (([] : List Char), scale)
  refine isDecided_digits.bind fun ds => (scaled.choice whole).bind fun ⟨behind, scale⟩ => ?_
  dsimp only
  cases Numeral.ofDecimal (digitsValue (ds ++ behind)) (scale - behind.length) with
  | some value => exact isDecided_pure value
  | none => exact isDecided_fail

/-- So the window decides which number is read. -/
theorem isDecided_number : IsDecided number :=
  isDecided_decimal.choice
    (isDecided_digits.bind fun _ => .ite (isDecided_pure _) (isDecided_undone _))

/-! ## Signs -/

/-- A line break is one of two words. -/
theorem lineBreak_eq_choice : lineBreak =
    choice (do word ['\n']; return ['\n']) (do word ['\r', '\n']; return ['\r', '\n']) := by
  funext ⟨rest, offset⟩
  unfold lineBreak
  split
  · next same =>
    obtain rfl := same
    rfl
  · next same =>
    obtain rfl := same
    rfl
  · next feed carriage =>
    have other : ['\n'].isPrefixOf rest = false := by
      refine Bool.eq_false_iff.mpr fun starts => ?_
      obtain ⟨more, rfl⟩ := List.isPrefixOf_iff_prefix.mp starts
      exact feed more rfl
    have other' : ['\r', '\n'].isPrefixOf rest = false := by
      refine Bool.eq_false_iff.mpr fun starts => ?_
      obtain ⟨more, rfl⟩ := List.isPrefixOf_iff_prefix.mp starts
      exact carriage more rfl
    simp [choice, word, other, other']

theorem isDecided_lineBreak : IsDecided lineBreak := by
  rw [lineBreak_eq_choice]
  exact ((isDecided_word (by decide)).bind fun _ => isDecided_pure _).choice
    ((isDecided_word (by decide)).bind fun _ => isDecided_pure _)

/-- The end of arguments is one of two words, the second of which is demanded from its second dot
on. -/
theorem argumentsEnd_eq_choice : argumentsEnd =
    choice (do let _ ← char ','; return false)
      (do let _ ← char '.'; demandWord ".."; return true) := by
  funext ⟨rest, offset⟩
  unfold argumentsEnd
  split
  · next same =>
    obtain rfl := same
    rfl
  · next same =>
    obtain rfl := same
    rfl
  · next comma dot =>
    cases rest with
    | nil => rfl
    | cons x rest =>
      have noComma : (x == ',') = false := beq_false_of_ne fun same => comma rest (by rw [same])
      have noDot : (x == '.') = false := beq_false_of_ne fun same => dot rest (by rw [same])
      simp [choice, char, satisfy, noComma, noDot]

theorem isDecided_argumentsEnd : IsDecided argumentsEnd := by
  rw [argumentsEnd_eq_choice]
  exact ((isDecided_char (by decide)).bind fun _ => isDecided_pure _).choice
    ((isDecided_char (by decide)).bind fun _ => (isDecided_demandWord (by decide)).bind
      fun _ => isDecided_pure _)

/-- An index behind a dot is a zero or other digits that denote a small number. -/
theorem legacyIndex_eq_choice : legacyIndex =
    choice (do let _ ← char '0'; return 0) (do
      let ds ← digits
      if digitsValue ds < Numeral.wordLimit then return digitsValue ds
        else fun _ => .undone .unexpected) := by
  funext ⟨rest, offset⟩
  unfold legacyIndex
  split
  · next same =>
    obtain rfl := same
    rfl
  · next zero =>
    have first : ∃ complaint, char '0' ⟨rest, offset⟩ = .undone complaint := by
      refine isUndone_char (fun y head same => ?_) offset
      obtain ⟨more, rfl⟩ := List.head?_eq_some_iff.mp head
      exact zero more (by rw [same])
    obtain ⟨complaint, first⟩ := first
    rw [choice, bind_apply, first, bind_apply]
    dsimp only
    cases digits ⟨rest, offset⟩ with
    | read ds next =>
      by_cases small : digitsValue ds < Numeral.wordLimit
      · simp [small]
      · simp [small]
    | undone => rfl
    | final => rfl

theorem isDecided_legacyIndex : IsDecided legacyIndex := by
  rw [legacyIndex_eq_choice]
  exact ((isDecided_char (by decide)).bind fun _ => isDecided_pure _).choice
    (isDecided_digits.bind fun _ => .ite (isDecided_pure _) (isDecided_undone _))

end Grammar

end HclLint.Hcl
