import DocPath.Proofs.Number.Nearest
import DocPath.Proofs.Number.Whole
import Mathlib

/-!
The values of numbers, whichever way they are stored. Every whole number up to `2^53` is the value
of a double, and a double is known by its value but for the sign of zero.
-/

namespace DocPath

def Binary64.value (x : Binary64) : ℚ :=
  if x.negative then -x.magnitude.value else x.magnitude.value

def Number.value : Number → ℚ
  | int i _ _ => i
  | double x => x.value

namespace Magnitude

variable {x : Magnitude} {k : Nat}

theorem value_nonneg : 0 ≤ x.value := by
  have hone : (0 : ℚ) < one := by exact_mod_cast one_pos
  rw [value]
  exact div_nonneg (Nat.cast_nonneg _) hone.le

theorem value_eq_natCast_iff : x.value = k ↔ x.units = k * one := by
  have hone : (one : ℚ) ≠ 0 := by exact_mod_cast one_pos.ne'
  rw [value, div_eq_iff hone]
  exact_mod_cast Iff.rfl

theorem value_eq_zero_iff : x.value = 0 ↔ x.units = 0 := by
  rw [← Nat.cast_zero, value_eq_natCast_iff, Nat.zero_mul]

/-- The magnitude `2^53`. -/
def exactBound : Magnitude := ⟨2 <<< 51, 1075, by decide, by decide, Or.inl (by decide)⟩

theorem units_exactBound : exactBound.units = 2 ^ 53 * one := by decide +kernel

/-- Whole numbers up to `2^53` are magnitudes. -/
theorem exists_units_eq (hk : k ≤ 2 ^ 53) : ∃ x : Magnitude, x.units = k * one := by
  rcases Nat.lt_or_eq_of_le hk with hlt | rfl
  · have hscale := scaleFor_whole_le hlt
    obtain ⟨x, _, hx⟩ := exists_ofUnits?_of_dvd (n := k * one) Nat.one_pos
      ((two_pow_dvd_one hscale).mul_left _) (hscale.trans (by decide))
    exact ⟨x, hx⟩
  · exact ⟨exactBound, units_exactBound⟩

end Magnitude

namespace Binary64

variable {x y : Binary64}

theorem abs_value (x : Binary64) : |x.value| = x.magnitude.value := by
  rw [value]
  split
  · rw [abs_neg, abs_of_nonneg Magnitude.value_nonneg]
  · rw [abs_of_nonneg Magnitude.value_nonneg]

theorem value_eq_zero_iff : x.value = 0 ↔ x.isZero := by
  rw [← abs_eq_zero, abs_value, Magnitude.value_eq_zero_iff, isZero_iff]

theorem value_neg_iff (hx : ¬x.isZero) : x.value < 0 ↔ x.negative := by
  have hne : x.magnitude.value ≠ 0 := by
    rwa [Ne, Magnitude.value_eq_zero_iff, ← isZero_iff]
  have hpos : 0 < x.magnitude.value := lt_of_le_of_ne Magnitude.value_nonneg hne.symm
  rw [value]
  split_ifs with h
  · simp [h, hpos]
  · simp [h, hpos.le]

/-- Whole numbers up to `2^53`, of either sign, are the values of doubles. -/
theorem exists_value_eq {i : ℤ} (hi : |i| ≤ 2 ^ 53) : ∃ x : Binary64, x.value = i := by
  have hk : i.natAbs ≤ 2 ^ 53 := by
    rw [Int.abs_eq_natAbs] at hi
    exact_mod_cast hi
  obtain ⟨m, hm⟩ := Magnitude.exists_units_eq hk
  rw [← Magnitude.value_eq_natCast_iff] at hm
  refine ⟨⟨decide (i < 0), m⟩, ?_⟩
  rw [value, hm, Nat.cast_natAbs]
  by_cases hneg : i < 0
  · rw [if_pos (by simpa using hneg), abs_of_neg hneg]
    push_cast
    ring
  · rw [if_neg (by simpa using hneg), abs_of_nonneg (by omega)]

theorem eq_or_isZero_of_value_eq (h : x.value = y.value) : x = y ∨ (x.isZero ∧ y.isZero) := by
  by_cases hx : x.isZero
  · rw [value_eq_zero_iff.mpr hx, eq_comm, value_eq_zero_iff] at h
    exact .inr ⟨hx, h⟩
  · have hy : ¬y.isZero := by rwa [← value_eq_zero_iff, ← h, value_eq_zero_iff]
    have hmagnitude : x.magnitude = y.magnitude := by
      apply Magnitude.value_injective
      rw [← abs_value, h, abs_value]
    have hnegative : x.negative = y.negative := by
      rw [Bool.eq_iff_iff, ← value_neg_iff hx, h, value_neg_iff hy]
    left
    cases x
    cases y
    simp_all

end Binary64

namespace Number

variable {n : Number} {k : Nat}

theorem hasValue_iff : n.HasValue k ↔ n.value = k := by
  cases n with
  | int i lower upper =>
    rw [HasValue, value]
    exact_mod_cast Iff.rfl
  | double x =>
    rw [HasValue, value, ← Magnitude.value_eq_natCast_iff, Binary64.value]
    split_ifs with h
    · have hnonneg := @Magnitude.value_nonneg x.magnitude
      constructor
      · rintro ⟨hvalue, hzero⟩
        rw [hvalue, hzero h]
        simp
      · intro hvalue
        have hk : (k : ℚ) = 0 := le_antisymm (by linarith) (Nat.cast_nonneg k)
        rw [hk, neg_eq_zero] at hvalue
        exact ⟨hvalue.trans hk.symm, fun _ => by exact_mod_cast hk⟩
    · simp [h]

end Number

end DocPath
