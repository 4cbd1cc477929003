import DocPath.Number.Basic
import DocPath.Proofs.Number.Value
import Mathlib

/-!
When scaling by a power of ten gives the nearest magnitude. Each product and quotient is the
magnitude nearest to the exact one, so nothing is lost before it if the whole number and the power
are magnitudes themselves.
-/

namespace DocPath

namespace Magnitude

variable {x y : Magnitude} {d : Decimal} {n k : Nat}

theorem times?_eq_nearest? (h : d.value = x.value * y.value) : x.times? y = d.nearest? := by
  have hone : (one : ℚ) ≠ 0 := by exact_mod_cast one_pos.ne'
  have hden : (d.den : ℚ) ≠ 0 := by exact_mod_cast Decimal.den_pos.ne'
  rw [times?, Decimal.nearest?_eq_ofUnits?]
  apply ofUnits?_congr one_pos Decimal.den_pos
  rw [Decimal.value_eq_div, value, value, div_mul_div_comm,
    div_eq_div_iff hden (mul_ne_zero hone hone)] at h
  have hcross : (x.units * y.units * d.den : ℚ) = d.num * one * one := by
    linear_combination -h
  exact_mod_cast hcross

theorem over?_eq_nearest? (hy : y.units ≠ 0) (h : d.value = x.value / y.value) :
    x.over? y = d.nearest? := by
  have hone : (one : ℚ) ≠ 0 := by exact_mod_cast one_pos.ne'
  have hden : (d.den : ℚ) ≠ 0 := by exact_mod_cast Decimal.den_pos.ne'
  have hunits : (y.units : ℚ) ≠ 0 := by exact_mod_cast hy
  rw [over?, Decimal.nearest?_eq_ofUnits?]
  apply ofUnits?_congr (Nat.pos_of_ne_zero hy) Decimal.den_pos
  rw [Decimal.value_eq_div, value, value, div_div_div_cancel_right₀ hone,
    div_eq_div_iff hden hunits] at h
  have hcross : (x.units * one * d.den : ℚ) = d.num * one * y.units := by
    linear_combination -(one : ℚ) * h
  exact_mod_cast hcross

theorem ofNat?_of_value_eq (h : x.value = n) : ofNat? n = some x := by
  rw [ofNat?, ← value_eq_natCast_iff.mp h, ← Nat.mul_one x.units]
  exact ofUnits?_units x Nat.one_pos

theorem ofNat?_eq_nearest? (n : Nat) : ofNat? n = Decimal.nearest? ⟨n, 0⟩ := by
  rw [Decimal.nearest?_eq_ofUnits?, ofNat?]
  simp [Decimal.num, Decimal.den]

theorem nearest?_of_value_eq (hx : x.units ≠ 0) (h : d.value = x.value) :
    d.nearest? = some x := by
  rw [Decimal.nearest?_congr (h.trans value_exact.symm), nearest?_exact hx]

theorem units_ne_zero_of_value (h : x.value = 10 ^ k) : x.units ≠ 0 := by
  rw [Ne, ← value_eq_zero_iff, h]
  positivity

/-- The powers of ten up to `10^22` are magnitudes: they have no more than 53 binary digits in front
of the zeros. -/
theorem exists_powerOfTen? (hk : k ≤ 22) : ∃ p, powerOfTen? k = some p ∧ p.value = 10 ^ k := by
  have hfive : 5 ^ k < 2 ^ 53 := by
    calc 5 ^ k ≤ 5 ^ 22 := Nat.pow_le_pow_right (by decide) hk
      _ < 2 ^ 53 := by decide
  have hsplit : 10 ^ k * one = 5 ^ k * 2 ^ (k + oneScale) := by
    rw [one_eq, Nat.pow_add, ← Nat.mul_assoc, ← Nat.mul_pow]
  have hscale := scaleFor_mul_two_pow_le hfive (k + oneScale)
  have hbound : k + oneScale ≤ 2045 := by
    have : oneScale = 1074 := rfl
    omega
  obtain ⟨p, _, hp⟩ := exists_ofUnits?_of_dvd (n := 5 ^ k * 2 ^ (k + oneScale)) Nat.one_pos
    ((Nat.pow_dvd_pow 2 hscale).mul_left _) (hscale.trans hbound)
  rw [← hsplit, ← value_eq_natCast_iff] at hp
  push_cast at hp
  refine ⟨p, nearest?_of_value_eq (units_ne_zero_of_value hp) ?_, hp⟩
  rw [hp, Decimal.value]
  simp

theorem scale?_eq_nearest? {e : ℤ} (hx : x.value = n) (he : |e| ≤ 22) :
    x.scale? e = Decimal.nearest? ⟨n, e⟩ := by
  have hk : e.natAbs ≤ 22 := by
    rw [Int.abs_eq_natAbs] at he
    exact_mod_cast he
  obtain ⟨p, hpower, hp⟩ := exists_powerOfTen? hk
  rw [scale?, hpower]
  by_cases hneg : 0 ≤ e
  · obtain ⟨m, rfl⟩ := Int.eq_ofNat_of_zero_le hneg
    simp only [hneg, if_true]
    apply times?_eq_nearest?
    rw [Decimal.value, hx, hp, zpow_natCast, Int.natAbs_natCast]
  · obtain ⟨m, rfl⟩ : ∃ m : ℕ, e = -m := ⟨e.natAbs, by omega⟩
    simp only [hneg, if_false]
    apply over?_eq_nearest? (units_ne_zero_of_value hp)
    rw [Decimal.value, hx, hp, zpow_neg, zpow_natCast, Int.natAbs_neg, Int.natAbs_natCast]
    exact (div_eq_mul_inv _ _).symm

theorem scale?_zero (x : Magnitude) : x.scale? 0 = some x := by
  obtain ⟨p, hpower, hp⟩ := exists_powerOfTen? (k := 0) (by decide)
  have hunits : p.units = one := by
    rw [pow_zero, ← Nat.cast_one, value_eq_natCast_iff] at hp
    rw [hp, Nat.one_mul]
  rw [scale?]
  simp only [Int.natAbs_zero, hpower, Int.le_refl, if_true]
  rw [times?, hunits]
  exact ofUnits?_units x one_pos

end Magnitude

namespace Number

/-- The double nearest to a decimal. -/
def ofDecimal? (negative : Bool) (d : Decimal) : Option Number :=
  d.nearest?.map fun m => double ⟨negative, m⟩

/-- Whole numbers up to `2^53` are scaled by powers of ten up to `10^22` as exactly as doubles can
be. -/
theorem ofParts?_eq_ofDecimal? (negative : Bool) {n : Nat} {e : ℤ} (hn : n ≤ 2 ^ 53)
    (he : |e| ≤ 22) : ofParts? negative n e = ofDecimal? negative ⟨n, e⟩ := by
  obtain ⟨x, hunits⟩ := Magnitude.exists_units_eq hn
  have hx := Magnitude.value_eq_natCast_iff.mpr hunits
  rw [ofParts?, Magnitude.ofNat?_of_value_eq hx, Option.bind_some,
    Magnitude.scale?_eq_nearest? hx he, ofDecimal?]

theorem ofParts?_zero (negative : Bool) (n : Nat) :
    ofParts? negative n 0 = ofDecimal? negative ⟨n, 0⟩ := by
  have hscale : (fun x : Magnitude => x.scale? 0) = some := funext Magnitude.scale?_zero
  rw [ofParts?, hscale, Option.bind_fun_some, Magnitude.ofNat?_eq_nearest?, ofDecimal?]

end Number

end DocPath
