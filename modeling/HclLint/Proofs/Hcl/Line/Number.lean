/-
# Numbers within a line

A number whose double is infinite falls back to its leading digits, and what stands behind them may
make it infinite. A whole part of 64 bits is far from that, so only an exponent does. Where neither
an exponent stands behind the digits nor a fraction with an exponent, the same number is read
however the line is cut.

## Main definitions

* `LacksScale`: a text that starts with no exponent, and with no fraction that has one.
* `EndsNumber`: a text in which no number goes on.

## Main statements

* `ofDecimal_ne_none`: a decimal whose whole part fits 64 bits is finite.
* `readsInLine_number`: a number is read within its line.
-/

import HclLint.Proofs.Hcl.Line.Reading
import Mathlib.Data.Nat.Digits.Defs

namespace HclLint.Hcl

open HclLint.Text

namespace Numeral

/-- A fraction that is no larger than a word is finite. -/
theorem ofFraction_ne_none {num den : Nat} (small : num < wordLimit * den) :
    ofFraction num den ≠ none := by
  have log : num.log2 ≤ 64 + den.log2 := by
    by_cases zero : num = 0
    · rw [zero]
      exact Nat.zero_le _
    · have den_lt : den < 2 ^ (den.log2 + 1) := Nat.lt_log2_self
      have bound : num < 2 ^ (64 + den.log2 + 1) := calc
        num < wordLimit * den := small
        _ ≤ wordLimit * 2 ^ (den.log2 + 1) := Nat.mul_le_mul_left _ den_lt.le
        _ = 2 ^ (64 + den.log2 + 1) := by
          rw [wordLimit, Nat.one_shiftLeft, ← Nat.pow_add, Nat.add_assoc]
      exact Nat.le_of_lt_succ ((Nat.log2_lt zero).mpr bound)
  -- So the unit of the significand is far below the largest one.
  have unit : ∀ log : Int, log ≤ 64 → max (log - 52) (-1074) < 971 := by omega
  unfold ofFraction
  extract_lets estimate below log scale significand
  have estimate_le : estimate ≤ 64 := by omega
  have log_le : log ≤ 64 := by
    show (if below then estimate - 1 else estimate) ≤ 64
    split <;> omega
  have scale_lt : scale < 971 := unit log log_le
  rw [if_neg (by omega)]
  nofun

/-- A decimal whose whole part fits 64 bits is finite. -/
theorem ofDecimal_ne_none {digits places : Nat} (small : digits < wordLimit * 10 ^ places) :
    ofDecimal digits (0 - places) ≠ none := by
  unfold ofDecimal
  split
  · nofun
  have length : (Nat.toDigits 10 digits).length ≤ 20 + places := by
    refine Nat.toDigits_length 10 digits (20 + places) (by omega) ?_
    calc
      digits < wordLimit * 10 ^ places := small
      _ ≤ 10 ^ 20 * 10 ^ places := Nat.mul_le_mul_right _ (by decide)
      _ = 10 ^ (20 + places) := (Nat.pow_add 10 20 places).symm
  extract_lets magnitude
  have magnitude_le : magnitude ≤ 310 := by omega
  rw [if_neg (by omega)]
  split
  · nofun
  split
  · next none =>
    obtain rfl : places = 0 := by omega
    exact ofFraction_ne_none (by simpa using small)
  · rw [show (-(0 - (places : Int))).toNat = places by omega]
    exact ofFraction_ne_none small

end Numeral

namespace Grammar

open HclLint.Hcl.Parser

variable {c middle next : Cursor} {ds es front kept cut : List Char} {bound : Nat}

/-! ## Digits -/

/-- What is read as digits is some digits and no other character. -/
theorem isDigit_of_digits (read : digits c = .read ds next) : ∀ x ∈ ds, x.isDigit = true := by
  obtain ⟨first, start, taken, more⟩ := bind_eq_read_iff.mp read
  obtain ⟨run, last, goesOn, made⟩ := bind_eq_read_iff.mp more
  obtain ⟨rfl, rfl⟩ := Outcome.read.inj made
  exact List.forall_mem_cons.mpr ⟨passing_of_satisfy taken, (run_of_many_satisfy goesOn).1⟩

/-- The first digits count as many places more as there are others. -/
theorem digitsValue_append (ds es : List Char) :
    digitsValue (ds ++ es) = 10 ^ es.length * digitsValue ds + digitsValue es :=
  (Nat.ofDigitChars_append 0).trans Nat.ofDigitChars_eq_ofDigitChars_zero

/-- Digits denote a number with at most as many places. -/
theorem digitsValue_lt (all : ∀ x ∈ es, x.isDigit = true) : digitsValue es < 10 ^ es.length := by
  induction es with
  | nil => decide
  | cons d es ih =>
    have small := ih fun x member => all x (List.mem_cons_of_mem d member)
    have digit : d.toNat - '0'.toNat ≤ 9 := by
      have isDigit := all d List.mem_cons_self
      simp only [Char.isDigit, ge_iff_le, Bool.and_eq_true, decide_eq_true_eq] at isDigit
      have upper : d.toNat ≤ 57 := UInt32.le_iff_toNat_le.mp isDigit.2
      have zero : '0'.toNat = 48 := rfl
      omega
    have first : digitsValue [d] = d.toNat - '0'.toNat := by simp [digitsValue]
    calc digitsValue (d :: es)
        _ = 10 ^ es.length * digitsValue [d] + digitsValue es := digitsValue_append [d] es
        _ < 10 ^ es.length * 9 + 10 ^ es.length :=
          Nat.add_lt_add_of_le_of_lt (Nat.mul_le_mul_left _ (first ▸ digit)) small
        _ = 10 ^ (d :: es).length := by rw [List.length_cons, Nat.pow_succ]; omega

/-- A decimal without an exponent is finite if its whole part fits 64 bits. -/
theorem ofDecimal_digits_ne_none (small : digitsValue ds < Numeral.wordLimit)
    (all : ∀ x ∈ es, x.isDigit = true) :
    Numeral.ofDecimal (digitsValue (ds ++ es)) (0 - es.length) ≠ none := by
  refine Numeral.ofDecimal_ne_none ?_
  calc digitsValue (ds ++ es)
      _ = 10 ^ es.length * digitsValue ds + digitsValue es := digitsValue_append ds es
      _ < 10 ^ es.length * digitsValue ds + 10 ^ es.length :=
        Nat.add_lt_add_left (digitsValue_lt all) _
      _ = 10 ^ es.length * (digitsValue ds + 1) := rfl
      _ ≤ 10 ^ es.length * Numeral.wordLimit := Nat.mul_le_mul_left _ small
      _ = Numeral.wordLimit * 10 ^ es.length := Nat.mul_comm _ _

/-! ## Numbers -/

/-- The text starts with no exponent, and with no fraction that has one. -/
structure LacksScale (text : List Char) : Prop where
  exponent : IsUndone exponent text
  fraction : ∀ ⦃c es next⦄, c.rest = text → Grammar.fraction c = .read es next →
    IsUndone Grammar.exponent next.rest

/-- A whole number is made of its digits. -/
theorem wholeNumber_eq_read {value : Numeral} (read : wholeNumber c = .read value next) :
    ∃ ds, digits c = .read ds next ∧ digitsValue ds < Numeral.wordLimit := by
  obtain ⟨ds, middle, taken, made⟩ := bind_eq_read_iff.mp read
  by_cases small : digitsValue ds < Numeral.wordLimit
  · obtain ⟨_, rfl⟩ : _ ∧ middle = next := by simpa [small] using made
    exact ⟨ds, taken, small⟩
  · simp [small] at made

/-- A number that was not read as a decimal has no fraction behind it, since with that fraction it
would be finite. -/
theorem undone_fraction {complaint : Complaint} (undone : decimal c = .undone complaint)
    (taken : digits c = .read ds middle) (small : digitsValue ds < Numeral.wordLimit)
    (lacks : LacksScale middle.rest) : ∃ complaint, fraction middle = .undone complaint := by
  rw [decimal, bind_apply, taken] at undone
  dsimp only at undone
  rw [bind_apply, Parser.choice, bind_apply] at undone
  cases behind : fraction middle with
  | undone complaint => exact ⟨complaint, rfl⟩
  | final =>
    rw [behind] at undone
    cases undone
  | read es last =>
    exfalso
    obtain ⟨_, failed⟩ := (lacks.fraction rfl behind).at rfl
    obtain ⟨_, _, _, more⟩ := bind_eq_read_iff.mp behind
    have finite := ofDecimal_digits_ne_none small (isDigit_of_digits more)
    obtain ⟨value, some⟩ := Option.ne_none_iff_exists'.mp finite
    have noScale : Parser.optional exponent last = .read none last := by
      rw [Parser.optional, failed]
    rw [Int.zero_sub] at some
    simp [behind, noScale, some] at undone

/-- A number is read within its line if no exponent follows it. -/
theorem readsInLine_number : ReadsInLine bound LacksScale id number number := by
  refine ⟨fun _ => advances_number, ?_⟩
  intro c value next front kept cut read passes _ left _ lacks
  rcases choice_eq_read_iff.mp read with read | ⟨⟨_, undone⟩, read⟩
  · obtain ⟨between, passes', again⟩ := isLocal_decimal read
    obtain rfl := passes.eq passes'
    exact (again kept cut left).choice _
  obtain ⟨ds, taken, small⟩ := wholeNumber_eq_read read
  obtain ⟨between, passes', again⟩ := isLocal_wholeNumber read
  obtain rfl := passes.eq passes'
  obtain ⟨_, passes', digitsAgain⟩ := isLocal_digits taken
  obtain rfl := passes.eq passes'
  -- What is cut off takes neither a fraction nor an exponent with it.
  obtain ⟨_, noFraction⟩ := undone_fraction undone taken small lacks
  obtain ⟨_, noExponent⟩ := lacks.exponent.at rfl
  have cutFraction := isLocallyUndone_fraction noFraction kept cut left
  have cutExponent := isLocallyUndone_exponent noExponent kept cut left
  have noDecimal : IsUndone decimal (front ++ kept) :=
    (digitsAgain kept cut left).bind_isUndone fun _ _ =>
      ((cutFraction.bind _).choice (cutExponent.bind _)).bind _
  exact (again kept cut left).choice_right noDecimal

/-! ## Where numbers end -/

/-- The character may stand in a number behind a digit. -/
def goesOnNumber (x : Char) : Bool := x.isDigit || x == 'e' || x == 'E'

/-- No number goes on in the text. -/
def EndsNumber (text : List Char) : Prop := ∀ x ∈ text.head?, goesOnNumber x = false

theorem endsNumber_cons {x : Char} (other : goesOnNumber x = false) (rest : List Char) :
    EndsNumber (x :: rest) :=
  forall_mem_head?_cons other rest

/-- What goes on with a number is no blank. -/
theorem startsBlank_of_goesOnNumber {x : Char} (goesOn : goesOnNumber x = true) :
    startsBlank x = false := by
  simp only [goesOnNumber, Bool.or_eq_true, beq_iff_eq] at goesOn
  rcases goesOn with (digit | rfl) | rfl
  · exact startsBlank_of_isDigit digit
  · decide
  · decide

/-- No blank goes on with a number, and so none does in front of blanks. -/
theorem endsNumber_of_skip {breaks : Bool} {a : Unit} (skipped : skip breaks c = .read a middle)
    (ending : EndsNumber middle.rest) : EndsNumber c.rest :=
  forall_mem_head?_of_skip (fun _ blank => Bool.eq_false_iff.mpr fun goesOn =>
    Bool.false_ne_true ((startsBlank_of_goesOnNumber goesOn).symm.trans blank)) skipped ending

end Grammar

end HclLint.Hcl
