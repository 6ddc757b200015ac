/-
# Numerals

The value of a number literal. A literal without fraction and exponent denotes itself, as
long as it fits 64 bits; every other literal denotes the nearest double precision number,
a tie going to the even neighbour. Values are kept in lowest terms, so that two spellings
of one number give one value.

## Main definitions

* `Numeral`: a dyadic number in lowest terms.
* `Numeral.ofDecimal`: the double nearest to `digits · 10 ^ exponent`.
* `Numeral.toIndex?`: the numeral as an index into a list.
-/

namespace HclLint.Hcl

/-- The number `± significand · 2 ^ exponent`. The significand is odd, or everything is
zero. -/
structure Numeral where
  negative : Bool
  significand : Nat
  exponent : Int
  deriving DecidableEq, Repr, Inhabited

namespace Numeral

/-- Moves factors of two from the significand to the exponent, at most `fuel` of them. -/
def reduce (fuel : Nat) (significand : Nat) (exponent : Int) : Nat × Int :=
  match fuel with
  | 0 => (significand, exponent)
  | fuel + 1 =>
    if significand % 2 = 0 then reduce fuel (significand / 2) (exponent + 1)
    else (significand, exponent)

/-- The numeral `significand · 2 ^ exponent` in lowest terms. -/
def ofDyadic (significand : Nat) (exponent : Int) : Numeral :=
  if significand = 0 then ⟨false, 0, 0⟩
  else
    let (m, e) := reduce (significand.log2 + 1) significand exponent
    ⟨false, m, e⟩

/-- A natural number as a numeral. -/
def ofNat (n : Nat) : Numeral := ofDyadic n 0

/-- The numeral with the other sign; zero has none. -/
def neg (a : Numeral) : Numeral :=
  if a.significand = 0 then a else { a with negative := !a.negative }

/-- The quotient rounded to the nearest integer, a tie going to the even one. -/
def roundDiv (num den : Nat) : Nat :=
  let quotient := num / den
  let twice := 2 * (num % den)
  if twice < den then quotient
  else if den < twice then quotient + 1
  else quotient + quotient % 2

/-- The double nearest to a positive fraction, if it is finite. The exponent is chosen so
that the significand has 53 bits, or is that of the least positive double. -/
def ofFraction (num den : Nat) : Option Numeral :=
  -- The binary logarithm of the fraction is `estimate` or one less.
  let estimate : Int := (num.log2 : Int) - den.log2
  let below := if 0 ≤ estimate then num < den <<< estimate.toNat
    else num <<< (-estimate).toNat < den
  let log := if below then estimate - 1 else estimate
  -- A unit of the significand is worth `2 ^ scale`.
  let scale := max (log - 52) (-1074)
  let significand := if 0 ≤ scale then roundDiv num (den <<< scale.toNat)
    else roundDiv (num <<< (-scale).toNat) den
  if 971 < scale ∨ (scale = 971 ∧ 1 <<< 53 ≤ significand) then none
  else some (ofDyadic significand scale)

/-- The double nearest to `digits · 10 ^ exponent`, if it is finite. Exponents far outside
the range of doubles are settled by the number of digits alone. -/
def ofDecimal (digits : Nat) (exponent : Int) : Option Numeral :=
  if digits = 0 then some (ofNat 0)
  else
    let magnitude : Int := (Nat.toDigits 10 digits).length + exponent
    if 310 < magnitude then none
    else if magnitude < -330 then some (ofNat 0)
    else if 0 ≤ exponent then ofFraction (digits * Nat.pow 10 exponent.toNat) 1
    else ofFraction digits (Nat.pow 10 (-exponent).toNat)

/-- The least number that does not fit 64 bits. -/
def wordLimit : Nat := 1 <<< 64

/-- The numeral as an index: a whole number that fits 64 bits. -/
def toIndex? (a : Numeral) : Option Nat :=
  if a.negative || a.exponent < 0 then none
  else if 64 < a.exponent then none
  else
    let value := a.significand <<< a.exponent.toNat
    if value < wordLimit then some value else none

example : ofDecimal 10 (-1) = some (ofNat 1) := by decide +kernel
example : ofDecimal 1 308 ≠ none ∧ ofDecimal 18 307 = none := by decide +kernel
example : ofDecimal 5 (-324) = some ⟨false, 1, -1074⟩ := by decide +kernel
example : (ofDecimal 90071992547409930 (-1)).bind toIndex? = some 9007199254740992 := by
  decide +kernel
example : (ofNat 0).neg.toIndex? = some 0 ∧ (ofNat 1).neg.toIndex? = none := by decide +kernel

end Numeral

end HclLint.Hcl
