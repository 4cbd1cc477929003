import DocPath.Number.Shortest
import DocPath.Proofs.Number.Rounding
import Mathlib

/-!
A decimal is read by its value alone, and the shortest decimal of a magnitude reads back as that
magnitude.
-/

namespace DocPath

namespace Decimal

def value (d : Decimal) : ℚ := d.digits * 10 ^ d.exponent

section Value

variable {d e : Decimal}

theorem den_pos : 0 < d.den := Nat.pow_pos (by decide)

theorem value_eq_div : d.value = d.num / d.den := by
  rw [value, num, den, Nat.pow_eq, Nat.pow_eq]
  push_cast
  rcases le_total 0 d.exponent with h | h
  · obtain ⟨n, hn⟩ := Int.eq_ofNat_of_zero_le h
    simp [hn]
  · obtain ⟨n, hn⟩ := Int.exists_eq_neg_ofNat h
    simp [hn, div_eq_mul_inv]

theorem value_eq_zero_iff : d.value = 0 ↔ d.digits = 0 := by
  have hten : (10 : ℚ) ^ d.exponent ≠ 0 := by positivity
  simp [value, hten]

theorem digits_lt : d.digits < 10 ^ d.size :=
  (Nat.length_toDigits_le_iff (by decide) Nat.length_toDigits_pos).mp le_rfl

theorem pow_size_le (h : d.digits ≠ 0) : 10 ^ (d.size - 1) ≤ d.digits := by
  rcases Nat.eq_zero_or_pos (d.size - 1) with hsize | hsize
  · rw [hsize]
    exact Nat.one_le_iff_ne_zero.mpr h
  · apply Nat.le_of_not_lt
    intro hlt
    have hle : d.size ≤ d.size - 1 := (Nat.length_toDigits_le_iff (by decide) hsize).mpr hlt
    omega

theorem value_lt_pow_point : d.value < 10 ^ d.point := by
  rw [value, point, zpow_add₀ (by norm_num), zpow_natCast]
  gcongr
  exact_mod_cast digits_lt

theorem pow_point_le_value (h : d.digits ≠ 0) : 10 ^ (d.point - 1) ≤ d.value := by
  have hpos : 0 < d.size := Nat.length_toDigits_pos
  have hpoint : d.point - 1 = (d.size - 1 : Nat) + d.exponent := by
    rw [point]
    omega
  rw [hpoint, zpow_add₀ (by norm_num), zpow_natCast, value]
  gcongr
  exact_mod_cast pow_size_le h

theorem value_lt_pow {p : ℤ} (h : d.point ≤ p) : d.value < 10 ^ p :=
  value_lt_pow_point.trans_le (zpow_le_zpow_right₀ (by norm_num) h)

theorem pow_le_value {p : ℤ} (hd : d.digits ≠ 0) (h : p < d.point) : 10 ^ p ≤ d.value :=
  (zpow_le_zpow_right₀ (by norm_num) (Int.le_sub_one_of_lt h)).trans (pow_point_le_value hd)

theorem point_le_of_value_le (h : d.digits ≠ 0) (hle : d.value ≤ e.value) : d.point ≤ e.point := by
  have hlt : (10 : ℚ) ^ (d.point - 1) < 10 ^ e.point :=
    ((pow_point_le_value h).trans hle).trans_lt value_lt_pow_point
  have := (zpow_lt_zpow_iff_right₀ (by norm_num)).mp hlt
  omega

/-- Two decimals of one value are read alike. -/
theorem nearest?_congr (h : d.value = e.value) : d.nearest? = e.nearest? := by
  have hzero : d.digits = 0 ↔ e.digits = 0 := by
    rw [← value_eq_zero_iff, h, value_eq_zero_iff]
  by_cases hd : d.digits = 0
  · rw [nearest?, nearest?, if_pos (.inl hd), if_pos (.inl (hzero.mp hd))]
  · have he : e.digits ≠ 0 := fun he => hd (hzero.mpr he)
    have hpoint : d.point = e.point :=
      le_antisymm (point_le_of_value_le hd h.le) (point_le_of_value_le he h.ge)
    have hcross : d.num * e.den = e.num * d.den := by
      rw [value_eq_div, value_eq_div, div_eq_div_iff] at h
      · exact_mod_cast h
      · exact_mod_cast den_pos.ne'
      · exact_mod_cast den_pos.ne'
    have hunits : Magnitude.ofUnits? (d.num * Magnitude.one) d.den =
        Magnitude.ofUnits? (e.num * Magnitude.one) e.den := by
      apply Magnitude.ofUnits?_congr den_pos den_pos
      rw [Nat.mul_right_comm, hcross, Nat.mul_right_comm]
    simp only [nearest?, hd, he, hpoint, hunits]

theorem digits_ne_zero_of_nearest? {x : Magnitude} (hx : x.units ≠ 0) (h : d.nearest? = some x) :
    d.digits ≠ 0 := by
  intro hd
  rw [nearest?, if_pos (.inl hd), Option.some.injEq] at h
  exact hx (h ▸ rfl)

theorem ofUnits?_of_nearest? {x : Magnitude} (hx : x.units ≠ 0) (h : d.nearest? = some x) :
    Magnitude.ofUnits? (d.num * Magnitude.one) d.den = some x := by
  rw [nearest?] at h
  split_ifs at h
  · rw [Option.some.injEq] at h
    exact absurd (h ▸ rfl) hx
  · exact h

theorem value_trim : d.trim.value = d.value := by
  fun_induction trim d with
  | case1 d h => simp [value, h]
  | case2 d hne hmod ih =>
    have hdigits : (d.digits : ℚ) = (d.digits / 10 : Nat) * 10 := by
      exact_mod_cast (Nat.div_mul_cancel (Nat.dvd_of_mod_eq_zero hmod)).symm
    rw [ih, value, value, hdigits, zpow_add_one₀ (by norm_num)]
    ring
  | case3 => rfl

theorem nearest?_trim : d.trim.nearest? = d.nearest? := nearest?_congr value_trim

theorem exponent_le_trim (h : d.digits ≠ 0) : d.exponent ≤ d.trim.exponent := by
  fun_induction trim d with
  | case1 => contradiction
  | case2 d hne hmod ih =>
    have := ih (by dsimp only; omega)
    dsimp only at this
    omega
  | case3 => exact le_rfl

end Value

end Decimal

namespace Magnitude

variable {x : Magnitude} {tie : Tie}

theorem exact_eq : x.exact =
    if oneScale ≤ x.scale then ⟨x.mantissa * 2 ^ (x.scale - oneScale), 0⟩
    else ⟨x.mantissa * 5 ^ (oneScale - x.scale), x.scale - oneScale⟩ := by
  rw [exact, Nat.shiftLeft_eq]
  rfl

theorem value_exact : x.exact.value = x.value := by
  rw [value, one_eq, units_eq, exact_eq]
  split
  · rename_i h
    obtain ⟨s, hs⟩ := Nat.exists_eq_add_of_le h
    rw [Decimal.value, hs, Nat.add_sub_cancel_left]
    push_cast
    rw [pow_add]
    field_simp
  · rename_i h
    obtain ⟨t, ht⟩ := Nat.exists_eq_add_of_le (Nat.le_of_not_le h)
    have hexponent : (x.scale : ℤ) - oneScale = -(t : ℤ) := by omega
    have hten : (10 : ℚ) = 2 * 5 := by norm_num
    rw [Decimal.value, hexponent, ht, Nat.add_sub_cancel_left, zpow_neg, zpow_natCast, hten]
    push_cast
    rw [pow_add, mul_pow]
    field_simp

theorem exponent_exact : x.exact.exponent = -(oneScale - x.scale : Nat) := by
  rw [exact_eq]
  split
  · dsimp only
    omega
  · dsimp only
    omega

theorem exact_digits_eq_zero_iff : x.exact.digits = 0 ↔ x.units = 0 := by
  have hone := one_pos
  rw [← Decimal.value_eq_zero_iff, value_exact, value, div_eq_zero_iff]
  simp [hone.ne']

section Range

variable {k s : Nat}

theorem neg_lt_point_exact (hk : one < 10 ^ k) (hx : x.units ≠ 0) : -(k : ℤ) < x.exact.point := by
  have hone : (0 : ℚ) < one := by exact_mod_cast one_pos
  have hpow : (one : ℚ) < 10 ^ k := by exact_mod_cast hk
  have hunits : (1 : ℚ) ≤ x.units := by exact_mod_cast Nat.one_le_iff_ne_zero.mpr hx
  have hlt : (10 : ℚ) ^ (-k : ℤ) < 10 ^ x.exact.point := by
    calc (10 : ℚ) ^ (-k : ℤ) = (10 ^ k)⁻¹ := by rw [zpow_neg, zpow_natCast]
      _ < (one : ℚ)⁻¹ := inv_strictAnti₀ hone hpow
      _ ≤ x.units / one := by
        rw [← one_div]
        exact div_le_div_of_nonneg_right hunits hone.le
      _ = x.exact.value := value_exact.symm
      _ < 10 ^ x.exact.point := Decimal.value_lt_pow_point
  exact (zpow_lt_zpow_iff_right₀ (by norm_num)).mp hlt

theorem units_lt (hs : 2045 ≤ s) : x.units < 2 ^ 53 * 2 ^ s := by
  have hmantissa := x.mantissa_lt
  rw [Nat.one_shiftLeft] at hmantissa
  calc x.units = x.mantissa * 2 ^ x.scale := units_eq x
    _ < 2 ^ 53 * 2 ^ x.scale := Nat.mul_lt_mul_of_pos_right hmantissa (Nat.two_pow_pos _)
    _ ≤ 2 ^ 53 * 2 ^ s :=
      Nat.mul_le_mul_left _ (Nat.pow_le_pow_right (by decide) (x.scale_le.trans hs))

theorem point_exact_le (hs : 2045 ≤ s) (hk : 2 ^ 53 * 2 ^ s ≤ 10 ^ k * one) (hx : x.units ≠ 0) :
    x.exact.point ≤ k := by
  have hone : (0 : ℚ) < one := by exact_mod_cast one_pos
  have hunits : (x.units : ℚ) < 10 ^ k * one := by exact_mod_cast (units_lt hs).trans_le hk
  have hlt : (10 : ℚ) ^ (x.exact.point - 1) < 10 ^ (k : ℤ) := by
    calc (10 : ℚ) ^ (x.exact.point - 1) ≤ x.exact.value :=
        Decimal.pow_point_le_value (exact_digits_eq_zero_iff.not.mpr hx)
      _ = x.units / one := value_exact
      _ < 10 ^ k := (div_lt_iff₀ hone).mpr hunits
      _ = 10 ^ (k : ℤ) := (zpow_natCast _ _).symm
  have := (zpow_lt_zpow_iff_right₀ (by norm_num)).mp hlt
  omega

end Range

theorem exact_num_mul_one : x.exact.num * one = x.units * x.exact.den := by
  have h := x.value_exact
  rw [Decimal.value_eq_div, value, div_eq_div_iff] at h
  · exact_mod_cast h
  · exact_mod_cast Decimal.den_pos.ne'
  · exact_mod_cast one_pos.ne'

theorem nearest?_exact (hx : x.units ≠ 0) : x.exact.nearest? = some x := by
  have hlow := neg_lt_point_exact (k := 324) (by decide +kernel) hx
  have hhigh := point_exact_le (k := 309) le_rfl (by decide +kernel) hx
  have hinside : ¬(x.exact.digits = 0 ∨ x.exact.point < -323) := by
    rw [exact_digits_eq_zero_iff]
    omega
  rw [Decimal.nearest?, if_neg hinside, if_neg (by omega), exact_num_mul_one]
  exact ofUnits?_units x Decimal.den_pos

theorem nearest?_neighbour {drop : Nat} {d : Decimal} (h : x.neighbour? tie drop = some d) :
    d.nearest? = some x := by
  simp only [neighbour?] at h
  split_ifs at h with habove hbelow
  · rw [← Option.some.inj h]
    exact habove.1
  · rw [← Option.some.inj h]
    exact hbelow

theorem nearest?_shortestWithin (hx : x.units ≠ 0) (tie : Tie) (drop : Nat) :
    (x.shortestWithin tie drop).nearest? = some x := by
  fun_induction shortestWithin x tie drop with
  | case1 => exact nearest?_exact hx
  | case2 drop d h => exact nearest?_neighbour h
  | case3 drop h ih => exact ih

/-- The shortest decimal reads back. -/
theorem nearest?_shortest (hx : x.units ≠ 0) (tie : Tie) :
    (x.shortest tie).nearest? = some x := by
  rw [shortest, Decimal.nearest?_trim]
  exact nearest?_shortestWithin hx tie _

end Magnitude

end DocPath
