/-
# References to an element by its index

A reference to a variable, and behind it a number between brackets. The number is written with the
decimal digits of the index, and as long as it fits 64 bits they denote it again.

## Main definitions

* `Selects`: a step to the element with an index.
* `IsElementOf`: an expression that refers to an element of a variable.

## Main statements

* `Numeral.toIndex?_ofNat`: a natural number that fits 64 bits is an index.
* `readExpr_element`: the text of a reference to an element is read as that reference.
-/

import HclLint.Proofs.Hcl.Rereading
import Mathlib.Algebra.Group.Nat.Defs

namespace HclLint.Hcl

/-! ## Natural numbers as numerals -/

namespace Numeral

/-- Moving factors of two to the exponent keeps the number. -/
theorem reduce_eq (fuel significand : Nat) (exponent : Int) :
    ∃ moved : Nat, (reduce fuel significand exponent).2 = exponent + moved ∧
      (reduce fuel significand exponent).1 * 2 ^ moved = significand := by
  induction fuel generalizing significand exponent with
  | zero => exact ⟨0, by simp [reduce]⟩
  | succ fuel ih =>
    rw [reduce]
    split
    · next even =>
      obtain ⟨moved, exponents, product⟩ := ih (significand / 2) (exponent + 1)
      refine ⟨moved + 1, by rw [exponents]; omega, ?_⟩
      rw [Nat.pow_succ, ← Nat.mul_assoc, product]
      exact Nat.div_mul_cancel (Nat.dvd_of_mod_eq_zero even)
    · exact ⟨0, by simp⟩

/-- A natural number that fits 64 bits is an index. -/
theorem toIndex?_ofNat {n : Nat} (small : n < wordLimit) : (ofNat n).toIndex? = some n := by
  by_cases zero : n = 0
  · subst zero
    decide
  · obtain ⟨moved, exponents, product⟩ := reduce_eq (n.log2 + 1) n 0
    have numeral : ofNat n = ⟨false, (reduce (n.log2 + 1) n 0).1, moved⟩ := by
      have whole : (reduce (n.log2 + 1) n 0).2 = moved := by omega
      rw [ofNat, ofDyadic, if_neg zero, ← whole]
    -- The significand is not zero, so that the exponent is bounded by the number.
    have positive : (reduce (n.log2 + 1) n 0).1 ≠ 0 := by
      intro none
      rw [none, Nat.zero_mul] at product
      exact zero product.symm
    have few : moved ≤ 64 := by
      refine Nat.le_of_not_lt fun many => ?_
      have large : 2 ^ 64 ≤ 2 ^ moved := Nat.pow_le_pow_right (by decide) (by omega)
      have below : 2 ^ moved ≤ n :=
        product ▸ Nat.le_mul_of_pos_left _ (Nat.pos_of_ne_zero positive)
      have limit : wordLimit = 2 ^ 64 := by decide
      omega
    rw [numeral]
    unfold toIndex?
    simp [Nat.shiftLeft_eq, product, small]
    omega

end Numeral

/-- The step leads to the element with an index, written between brackets or behind a dot. -/
inductive Selects (index : Nat) : Step → Prop where
  | number (extent : Extent) {value : Numeral} (whole : value.toIndex? = some index) :
      Selects index (.index (.mk extent (.number value)))
  | legacy : Selects index (.legacyIndex index)

/-- An expression that refers to the element of a variable with an index, and no further into its
value. -/
def IsElementOf (name : String) (index : Nat) (e : Expr) : Prop :=
  ∃ root step, e.form = .traversal root [.attribute name, step] ∧ root.form = .variable "var" ∧
    Selects index step

namespace Grammar

open HclLint.Text HclLint.Hcl.Parser

variable {level : Level} {setting : Setting} {rest : List Char} {name : String} {index : Nat}

/-! ## Decimal digits -/

theorem digitsValue_toDigits (n : Nat) : digitsValue (Nat.toDigits 10 n) = n :=
  Nat.ofDigitChars_toDigits (by decide) (by decide)

theorem isDigit_of_mem_toDigits {n : Nat} {x : Char} (member : x ∈ Nat.toDigits 10 n) :
    x.isDigit = true :=
  Nat.isDigit_of_mem_toDigits (by decide) (by decide) member

/-- The digits of a number, the first one set off. -/
theorem exists_toDigits_cons (n : Nat) :
    ∃ first more, Nat.toDigits 10 n = first :: more ∧ first.isDigit = true := by
  have some : Nat.toDigits 10 n ≠ [] := Nat.toDigits_ne_nil
  obtain ⟨first, more, same⟩ := List.exists_cons_of_ne_nil some
  exact ⟨first, more, same, isDigit_of_mem_toDigits (same ▸ List.mem_cons_self)⟩

/-- An index between brackets as it is written, and the text behind it. -/
def indexText (index : Nat) (rest : List Char) : List Char :=
  '[' :: (Nat.toDigits 10 index ++ ']' :: rest)

/-- A closing bracket ends all that is read before it. -/
theorem endsReference_closing (rest : List Char) : EndsReference (']' :: rest) where
  name := forall_mem_head?_cons (by decide) rest
  solid := forall_mem_head?_cons (by decide) rest
  dot := forall_mem_head?_cons (by decide) rest
  bracket := forall_mem_head?_cons (by decide) rest
  sequel := by cases rest <;> rfl

theorem reads_digits (index : Nat) (rest : List Char) :
    Reads digits (Nat.toDigits 10 index ++ ']' :: rest) (· = Nat.toDigits 10 index)
      (']' :: rest) := by
  obtain ⟨first, more, same, digit⟩ := exists_toDigits_cons index
  have all : ∀ x ∈ more, x.isDigit = true := fun x member =>
    isDigit_of_mem_toDigits (same ▸ List.mem_cons_of_mem first member)
  rw [same]
  refine (reads_satisfy digit _).bind fun _ isFirst => ?_
  refine (reads_many_satisfy all (forall_mem_head?_cons (by decide) rest)).bind fun _ isRest => ?_
  rw [isFirst, isRest]
  exact reads_pure _ _

/-- Digits in front of a bracket are a whole number, since no point and no exponent follows. -/
theorem reads_number (small : index < Numeral.wordLimit) (rest : List Char) :
    Reads number (Nat.toDigits 10 index ++ ']' :: rest) (· = .ofNat index) (']' :: rest) := by
  have noFraction : IsUndone fraction (']' :: rest) :=
    (isUndone_char (forall_mem_head?_cons (by decide) rest)).bind _
  have noExponent : IsUndone exponent (']' :: rest) :=
    (isUndone_satisfy (forall_mem_head?_cons (by decide) rest)).bind _
  have noDecimal : IsUndone decimal (Nat.toDigits 10 index ++ ']' :: rest) :=
    (reads_digits index rest).bind_isUndone fun _ _ =>
      IsUndone.bind ((noFraction.bind _).choice (noExponent.bind _)) _
  refine Reads.choice_right noDecimal ((reads_digits index rest).bind fun _ same offset => ?_)
  exact ⟨.ofNat index, offset, by simp [same, digitsValue_toDigits, small], rfl⟩

theorem reads_expr_number (depth : Nat) (setting : Setting) (small : index < Numeral.wordLimit)
    (rest : List Char) :
    Reads ((levelOf (depth + 2)).expr setting) (Nat.toDigits 10 index ++ ']' :: rest)
      (·.form = .number (.ofNat index)) (']' :: rest) := by
  obtain ⟨first, more, same, digit⟩ := exists_toDigits_cons index
  have form : Reads (do return Form.number (← number)) (Nat.toDigits 10 index ++ ']' :: rest)
      (· = .number (.ofNat index)) (']' :: rest) :=
    (reads_number small rest).map fun _ => congrArg _
  rw [same] at form ⊢
  have term : Reads (termAt (levelOf depth) setting) _ _ _ :=
    reads_termAt_of_readsTerm (.number digit) (reads_plain form setting)
  exact reads_expr_of_termAt (· = .number (.ofNat index)) term (endsReference_closing rest)

/-! ## Steps -/

theorem solid_indexText (index : Nat) (rest : List Char) :
    ∀ x ∈ (indexText index rest).head?, startsBlank x = false :=
  forall_mem_head?_cons (by decide) _

theorem reads_bracketStep (depth : Nat) (small : index < Numeral.wordLimit) (rest : List Char) :
    Reads (bracketStep (levelOf (depth + 2))) (indexText index rest) (Selects index) rest := by
  obtain ⟨first, more, same, digit⟩ := exists_toDigits_cons index
  have head : (Nat.toDigits 10 index ++ ']' :: rest).head? = some first := by rw [same]; rfl
  have solid : ∀ x ∈ (Nat.toDigits 10 index ++ ']' :: rest).head?, startsBlank x = false := by
    rw [head]
    rintro _ ⟨⟩
    exact startsBlank_of_isDigit digit
  have star : ∀ x ∈ (Nat.toDigits 10 index ++ ']' :: rest).head?, x ≠ '*' := by
    rw [head]
    rintro _ ⟨⟩ rfl
    exact absurd digit (by decide)
  have noStar : IsUndone (do let _ ← char '*'; return Step.fullSplat : Parser Step)
      (Nat.toDigits 10 index ++ ']' :: rest) := (isUndone_char star).bind _
  have key : Reads (do return Step.index (← (levelOf (depth + 2)).expr .bracket) : Parser Step)
      (Nat.toDigits 10 index ++ ']' :: rest) (Selects index) (']' :: rest) := by
    refine (reads_expr_number depth .bracket small rest).map ?_
    rintro ⟨extent, form⟩ number
    obtain rfl : form = .number _ := number
    exact .number extent (Numeral.toIndex?_ofNat small)
  refine (reads_char '[' _).bind fun _ _ => (reads_skip true solid).bind fun _ _ => ?_
  refine (Reads.choice_right noStar key).bind fun step selects => ?_
  refine (reads_skip true (endsReference_closing rest).solid).bind fun _ _ => ?_
  refine (reads_demandWord "]" rest).bind fun _ _ => ?_
  exact (reads_pure step rest).imp fun _ same => same ▸ selects

/-- The name and the index behind it are two steps, and nothing more is one. -/
theorem reads_elementSteps (depth : Nat) (breaks : Bool) (known : isIdentifier name = true)
    (small : index < Numeral.wordLimit) (ends : EndsReference rest) :
    Reads (many1 (step (levelOf (depth + 2)) breaks)) ('.' :: (name.toList ++ indexText index rest))
      (fun path => ∃ step, path = [.attribute name, step] ∧ Selects index step) rest := by
  have named : ∀ x ∈ (indexText index rest).head?, isIdentifierRest x = false :=
    forall_mem_head?_cons (by decide) _
  have noDot : IsUndone dotStep (indexText index rest) :=
    (isUndone_char (forall_mem_head?_cons (by decide) _)).bind _
  have indexed : Reads (step (levelOf (depth + 2)) breaks) (indexText index rest) (Selects index)
      rest :=
    (reads_skip breaks (solid_indexText index rest)).bind fun _ _ offset =>
      Reads.choice_right noDot (reads_bracketStep depth small rest) offset
  refine (reads_step _ breaks known named).bind fun _ first => ?_
  refine (reads_many_one indexed (List.cons_ne_nil _ _) (isUndone_step _ breaks ends)).bind
    fun _ others => ?_
  obtain ⟨step, rfl, selects⟩ := others
  rw [first]
  exact (reads_pure _ rest).imp fun _ same => ⟨step, same, selects⟩

/-! ## References -/

theorem reads_expr_element (depth : Nat) (setting : Setting) (known : isIdentifier name = true)
    (small : index < Numeral.wordLimit) (ends : EndsReference rest) :
    Reads ((levelOf (depth + 4)).expr setting) (referenceText name (indexText index rest))
      (IsElementOf name index) rest := by
  have term := reads_termAt_var (levelOf (depth + 2)) setting (name.toList ++ indexText index rest)
  refine reads_exprAt (levelOf (depth + 3)) term ?_
  rintro first ⟨e, after⟩ ⟨form, same⟩
  obtain rfl : setting = after := same.symm
  have steps := reads_elementSteps (depth + 1) setting.breaks known small ends
  refine (reads_extend_steps _ first _ ' ' '.' _ setting e known steps ends).imp ?_
  rintro _ ⟨_, traversal, step, rfl, selects⟩
  exact ⟨e, step, traversal, form, selects⟩

/-- The text of a reference to an element is read as that reference. -/
theorem readExpr_element (known : isIdentifier name = true) (small : index < Numeral.wordLimit) :
    ∃ e, readExpr ("var." ++ name ++ "[" ++ toString index ++ "]") = .ok e ∧
      IsElementOf name index e := by
  have text : ("var." ++ name ++ "[" ++ toString index ++ "]").toList =
      referenceText name (indexText index []) := by
    simp [referenceText, indexText, Nat.toString_eq_repr, Nat.toList_repr]
  refine readExpr_of_reads (by simp) fun depth => ?_
  rw [text]
  exact reads_expr_element (depth + 1) .line known small endsReference_nil

end Grammar

end HclLint.Hcl
