import DocPath.Json.Numeral
import DocPath.Proofs.Lookup.Position
import DocPath.Proofs.Number.Scaling
import Mathlib

/-!
Numerals that are read exactly. A whole numeral of 64 bits is read as itself or as the nearest
double, and one with a fraction or a power of ten is read as the nearest double if its digits and
its power are small. Longer numerals may be read as a double that is only near.
-/

namespace DocPath.Numeral

variable {significand : Nat} {ds whole fraction : List Char} {power : Bool × List Char}

/-- No digit is left out if all together fit into 64 bits. -/
theorem gather_eq (h : Nat.ofDigitChars 10 ds significand < UInt64.size) :
    gather significand ds = (Nat.ofDigitChars 10 ds significand, []) := by
  induction ds generalizing significand with
  | nil => rfl
  | cons d ds ih =>
    have hnext := Position.le_ofDigitChars ds (10 * significand + (d.toNat - '0'.toNat))
    have hall : Nat.ofDigitChars 10 (d :: ds) significand =
        Nat.ofDigitChars 10 ds (10 * significand + (d.toNat - '0'.toNat)) := rfl
    rw [hall] at h ⊢
    rw [gather, if_pos (Nat.lt_of_le_of_lt hnext h)]
    exact ih h

theorem valueOf_append (whole fraction : List Char) :
    valueOf (whole ++ fraction) = Nat.ofDigitChars 10 fraction (valueOf whole) :=
  Nat.ofDigitChars_append 0

/-- A whole numeral of 64 bits is kept exactly, or it is read as the nearest double. -/
theorem number?_whole (negative minus : Bool) (h : valueOf whole < UInt64.size) :
    number? negative whole [] (minus, []) =
      (Number.ofInt? negative (valueOf whole)).or
        (Number.ofDecimal? negative ⟨valueOf whole, 0⟩) := by
  rw [number?, gather_eq h, ← Number.ofParts?_zero]
  rfl

/-- A numeral of small digits and a small power is read as the nearest double. -/
theorem number?_short (negative : Bool) (hparts : fraction ≠ [] ∨ power.2 ≠ [])
    (hdigits : valueOf (whole ++ fraction) ≤ 2 ^ 53)
    (hpower : |exponentOf power - fraction.length| ≤ 22) :
    number? negative whole fraction power =
      Number.ofDecimal? negative
        ⟨valueOf (whole ++ fraction), exponentOf power - fraction.length⟩ := by
  have hall : valueOf (whole ++ fraction) < UInt64.size :=
    Nat.lt_of_le_of_lt hdigits (by decide)
  rw [valueOf_append] at hall
  have hwhole := Nat.lt_of_le_of_lt (Position.le_ofDigitChars fraction (valueOf whole)) hall
  have hnot : ¬(fraction = [] ∧ power.2 = []) := by
    rintro ⟨hfraction, hnone⟩
    rcases hparts with h | h
    · exact h hfraction
    · exact h hnone
  have hkept : gather 0 whole = (valueOf whole, []) := gather_eq hwhole
  rw [← Number.ofParts?_eq_ofDecimal? negative hdigits hpower, valueOf_append, number?, hkept]
  simp only [true_and, if_neg hnot, gather_eq hall]
  simp

/-- Sixteen digits are too many: the quotient that is read is no longer the nearest. -/
example : read? "0.9999999999999999".toList = read? "1.0".toList := by decide +kernel

end DocPath.Numeral
