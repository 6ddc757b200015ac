/-
# Whole identifiers

An identifier holds no blank, no digit at its front, and none of the signs of the grammar.

## Main definitions

* `isIdentifier`: a text that is an identifier.

## Main statements

* `isIdentifier_iff`: its first character and the others.
* `isBlank_of_isIdentifierStart`, `isBlank_of_isIdentifierRest`: no blank is part of one.
* `trim_of_isIdentifier`: nothing is trimmed from one.
-/

import HclLint.Text.Blank
import HclLint.Text.Identifier

namespace HclLint.Text

/-- Whether a text is an identifier. -/
def isIdentifier (name : String) : Bool :=
  match name.toList with
  | [] => false
  | first :: rest => isIdentifierStart first && rest.all isIdentifierRest

/-- An identifier is a starting character with characters of the rest behind it. -/
theorem isIdentifier_iff {name : String} :
    isIdentifier name = true ↔ ∃ first rest, name.toList = first :: rest ∧
      isIdentifierStart first = true ∧ ∀ x ∈ rest, isIdentifierRest x = true := by
  unfold isIdentifier
  cases name.toList with
  | nil => simp
  | cons first rest =>
    rw [Bool.and_eq_true, List.all_eq_true]
    constructor
    · intro parts
      exact ⟨first, rest, rfl, parts⟩
    · rintro ⟨_, _, same, parts⟩
      obtain ⟨rfl, rfl⟩ := List.cons.inj same
      exact parts

/-- The code points of the blanks. -/
def blankCodes : List Nat :=
  [9, 10, 11, 12, 13, 0x20, 0x85, 0xA0, 0x1680, 0x2000, 0x2001, 0x2002, 0x2003, 0x2004, 0x2005,
    0x2006, 0x2007, 0x2008, 0x2009, 0x200A, 0x2028, 0x2029, 0x202F, 0x205F, 0x3000]

/-- Every blank has its code in the table of blanks. -/
theorem mem_blankCodes {c : Char} (blank : isBlank c = true) : c.toNat ∈ blankCodes := by
  simp only [isBlank, Bool.or_eq_true, Bool.and_eq_true, decide_eq_true_eq, beq_iff_eq] at blank
  simp only [blankCodes, List.mem_cons, List.not_mem_nil, or_false]
  omega

/-- No code of the table is that of a character of an identifier, which is checked code by code. -/
theorem not_identifier_of_mem_blankCodes : ∀ n ∈ blankCodes,
    isIdentifierStart (Char.ofNat n) = false ∧ isIdentifierRest (Char.ofNat n) = false := by
  decide +kernel

/-- No identifier starts with a blank. -/
theorem isBlank_of_isIdentifierStart {c : Char} (start : isIdentifierStart c = true) :
    isBlank c = false := by
  rw [Bool.eq_false_iff]
  intro blank
  have outside := (not_identifier_of_mem_blankCodes c.toNat (mem_blankCodes blank)).1
  rw [Char.ofNat_toNat, start] at outside
  cases outside

theorem isBlank_of_isIdentifierRest {c : Char} (rest : isIdentifierRest c = true) :
    isBlank c = false := by
  rw [Bool.eq_false_iff]
  intro blank
  have outside := (not_identifier_of_mem_blankCodes c.toNat (mem_blankCodes blank)).2
  rw [Char.ofNat_toNat, rest] at outside
  cases outside

theorem isIdentifierStart_ofNat_digit :
    ∀ n < 58, 48 ≤ n → isIdentifierStart (Char.ofNat n) = false := by
  decide +kernel

/-- An identifier does not start with a digit. -/
theorem isDigit_of_isIdentifierStart {c : Char} (start : isIdentifierStart c = true) :
    c.isDigit = false := by
  rw [Bool.eq_false_iff]
  intro digit
  simp only [Char.isDigit, Bool.and_eq_true, decide_eq_true_eq, ge_iff_le,
    UInt32.le_iff_toNat_le] at digit
  have outside := isIdentifierStart_ofNat_digit c.toNat (Nat.lt_succ_of_le digit.2) digit.1
  rw [Char.ofNat_toNat, start] at outside
  cases outside

theorem isBlank_of_isDigit {c : Char} (digit : c.isDigit = true) : isBlank c = false := by
  rw [Bool.eq_false_iff]
  intro blank
  have code := mem_blankCodes blank
  simp only [Char.isDigit, Bool.and_eq_true, decide_eq_true_eq, ge_iff_le,
    UInt32.le_iff_toNat_le] at digit
  have outside : ∀ n ∈ blankCodes, n < 48 ∨ 57 < n := by decide
  have out : c.toNat < 48 ∨ 57 < c.toNat := outside c.toNat code
  have lower : 48 ≤ c.toNat := digit.1
  have upper : c.toNat ≤ 57 := digit.2
  omega

theorem ne_of_isIdentifierStart {c x : Char} (start : isIdentifierStart c = true)
    (other : isIdentifierStart x = false) : c ≠ x := by
  rintro rfl
  rw [start] at other
  cases other

/-- A text that neither starts nor ends with a blank is trimmed already. -/
theorem trim_of_ends {cs : List Char} (first : ∀ x ∈ cs.head?, isBlank x = false)
    (last : ∀ x ∈ cs.getLast?, isBlank x = false) : trim cs = cs := by
  have kept : ∀ xs : List Char, (∀ x ∈ xs.head?, isBlank x = false) →
      xs.dropWhile isBlank = xs := by
    intro xs solid
    cases xs with
    | nil => rfl
    | cons x xs => exact List.dropWhile_cons_of_neg (by simp [solid x rfl])
  rw [trim, kept cs first, kept _ (by rwa [List.head?_reverse]), List.reverse_reverse]

/-- Where no character is blank, nothing is trimmed. -/
theorem trim_of_solid {cs : List Char} (solid : ∀ x ∈ cs, isBlank x = false) : trim cs = cs :=
  trim_of_ends (fun x head => solid x (List.mem_of_mem_head? head))
    fun x last => solid x (List.mem_of_getLast? last)

/-- Every character of an identifier has the properties that its start and its other characters
have. -/
theorem forall_mem_of_isIdentifier {name : String} {holds : Char → Prop}
    (identifier : isIdentifier name = true) (start : ∀ x, isIdentifierStart x = true → holds x)
    (others : ∀ x, isIdentifierRest x = true → holds x) : ∀ x ∈ name.toList, holds x := by
  obtain ⟨first, rest, same, starts, goesOn⟩ := isIdentifier_iff.mp identifier
  rw [same]
  intro x member
  rcases List.mem_cons.mp member with rfl | member
  · exact start x starts
  · exact others x (goesOn x member)

/-- An identifier is not changed by trimming. -/
theorem trim_of_isIdentifier {name : String} (identifier : isIdentifier name = true) :
    trim name.toList = name.toList := by
  exact trim_of_solid (forall_mem_of_isIdentifier identifier
    (fun _ => isBlank_of_isIdentifierStart) fun _ => isBlank_of_isIdentifierRest)

end HclLint.Text
