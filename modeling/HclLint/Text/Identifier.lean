/-
# Identifiers

An identifier starts with a letter of XID_Start or an underscore and goes on with
characters of XID_Continue or hyphens. ASCII is decided by its own ranges; the boundary
lists are consulted above it.
-/

import HclLint.Text.IdentifierRanges

namespace HclLint.Text

/-- Membership in a set given by the increasing boundaries of its ranges: the number of
boundaries at or below `n` is odd exactly inside a range. -/
def inRanges (bounds : List Nat) (n : Nat) : Bool :=
  (bounds.takeWhile (· ≤ n)).length % 2 == 1

/-- A character that an identifier may start with. -/
def isIdentifierStart (c : Char) : Bool :=
  if c.toNat < 128 then c.isAlpha || c == '_' else inRanges startBounds c.toNat

/-- A character that an identifier may go on with. -/
def isIdentifierRest (c : Char) : Bool :=
  if c.toNat < 128 then c.isAlphanum || c == '_' || c == '-'
  else inRanges continueBounds c.toNat

@[simp]
theorem isIdentifierStart_underscore : isIdentifierStart '_' = true := rfl

@[simp]
theorem isIdentifierRest_hyphen : isIdentifierRest '-' = true := rfl

/-- Every ASCII start of an identifier may also stand inside one. -/
theorem isIdentifierRest_of_start {c : Char} (hc : c.toNat < 128)
    (h : isIdentifierStart c = true) : isIdentifierRest c = true := by
  simp only [isIdentifierStart, hc, if_true, Bool.or_eq_true] at h
  simp only [isIdentifierRest, hc, if_true, Char.isAlphanum, Bool.or_eq_true]
  rcases h with h | h <;> simp [h]

end HclLint.Text
