import DocPath.Number.Layout
import DocPath.Proofs.Lookup.Position
import DocPath.Proofs.Number.ReadBack
import Mathlib

/-!
Whole numbers. A magnitude that is a whole number has a shortest decimal without a fraction, and one
below `2^53` is the only whole number that reads as it.
-/

namespace DocPath

namespace Decimal

variable {d : Decimal}

theorem den_of_nonneg (h : 0 ≤ d.exponent) : d.den = 1 := by
  rw [den, Nat.pow_eq, Int.toNat_of_nonpos (by omega), Nat.pow_zero]

theorem positional_of_nonneg (hd : d.digits ≠ 0) (h : 0 ≤ d.exponent) :
    d.positional = toString d.num := by
  have hdigit : ∀ c ∈ List.replicate d.exponent.toNat '0', c.isDigit := by simp
  have hzeros := Position.toDigits_append hdigit (Nat.pos_of_ne_zero hd)
  rw [Nat.ofDigitChars_replicate_zero, Nat.mul_comm] at hzeros
  rw [Nat.toString_eq_ofList_toDigits, num, Nat.pow_eq, ← hzeros]
  simp only [positional, chars, if_pos h]

theorem point_mem_positional (h : d.exponent < 0) : '.' ∈ d.positional.toList := by
  rw [positional, String.toList_ofList, if_neg (by omega)]
  split <;> simp

theorem e_mem_powerText (n : Int) : 'e' ∈ (powerText n).toList := by
  rw [powerText]
  split <;> simp

theorem e_mem_scientific : 'e' ∈ d.scientific.toList := by
  have := e_mem_powerText d.order
  rw [scientific]
  split <;> simp [this]

end Decimal

namespace Magnitude

variable {x : Magnitude} {tie : Tie} {k : Nat} {d : Decimal}

theorem pos_of_whole (hwhole : x.units = k * one) (hx : x.units ≠ 0) : 0 < k := by
  apply Nat.pos_of_ne_zero
  rintro rfl
  exact hx (by rw [hwhole, Nat.zero_mul])

theorem scaleFor_mul_two_pow_le (hk : k < 2 ^ 53) (s : Nat) : scaleFor (k * 2 ^ s) ≤ s := by
  have hlt : k * 2 ^ s < 2 ^ (53 + s) := by
    rw [Nat.pow_add]
    exact Nat.mul_lt_mul_of_pos_right hk (Nat.two_pow_pos _)
  rw [scaleFor]
  by_cases hzero : k * 2 ^ s = 0
  · simp [hzero]
  · have := (Nat.log2_lt hzero).mpr hlt
    omega

theorem scaleFor_whole_le (hk : k < 2 ^ 53) : scaleFor (k * one) ≤ oneScale := by
  rw [one_eq]
  exact scaleFor_mul_two_pow_le hk oneScale

theorem scale_le_of_whole (hwhole : x.units = k * one) (hk : k < 2 ^ 53) : x.scale ≤ oneScale := by
  rw [← scaleFor_units, hwhole]
  exact scaleFor_whole_le hk

theorem two_pow_dvd_one {s : Nat} (h : s ≤ oneScale) : 2 ^ s ∣ one := by
  rw [one_eq]
  exact Nat.pow_dvd_pow 2 h

/-- A whole number below `2^53` is read as itself. -/
theorem units_of_nearest?_whole (hx : x.units ≠ 0) (h : d.nearest? = some x)
    (hd : 0 ≤ d.exponent) (hk : d.num < 2 ^ 53) : x.units = d.num * one := by
  have hread := Decimal.ofUnits?_of_nearest? hx h
  have hscale := scaleFor_whole_le hk
  obtain ⟨y, hy, hunits⟩ := exists_ofUnits?_of_dvd (n := d.num * one) Nat.one_pos
    ((two_pow_dvd_one hscale).mul_left _) (hscale.trans (by decide))
  rw [Nat.mul_one] at hy
  rw [Decimal.den_of_nonneg hd, hy, Option.some.injEq] at hread
  rw [← hread, hunits]

/-- No other whole number is read as a whole number below `2^53`. -/
theorem num_of_nearest?_whole (hwhole : x.units = k * one) (hx : x.units ≠ 0)
    (hk : k < 2 ^ 53) (h : d.nearest? = some x) (hd : 0 ≤ d.exponent) : d.num = k := by
  have hread := Decimal.ofUnits?_of_nearest? hx h
  rw [Decimal.den_of_nonneg hd] at hread
  have hpos : (0 : ℚ) < one := by exact_mod_cast one_pos
  have hulp : (2 ^ x.scale : ℚ) ≤ one := by
    exact_mod_cast Nat.le_of_dvd one_pos (two_pow_dvd_one (scale_le_of_whole hwhole hk))
  have hdistance : |(k : ℚ) - d.num| * one ≤ 1 / 2 * one := by
    calc |(k : ℚ) - d.num| * one = |(x.units : ℚ) - (d.num * one : Nat) / (1 : Nat)| := by
          rw [hwhole, Nat.cast_one, div_one]
          push_cast
          rw [← sub_mul, abs_mul, abs_of_pos hpos]
      _ ≤ 2 ^ x.scale / 2 := abs_units_sub_le Nat.one_pos hread
      _ ≤ 1 / 2 * one := by linarith
  have hhalf : |(k : ℚ) - d.num| < 1 := by
    have := le_of_mul_le_mul_right hdistance hpos
    linarith
  have hint : |(k : ℤ) - d.num| < 1 := by exact_mod_cast hhalf
  have := Int.abs_lt_one_iff.mp hint
  omega

theorem value_of_whole (hwhole : x.units = k * one) : x.value = k := by
  have hone : (one : ℚ) ≠ 0 := by exact_mod_cast one_pos.ne'
  rw [value, hwhole, Nat.cast_mul, mul_div_cancel_right₀ _ hone]

theorem exact_digits_of_whole (hwhole : x.units = k * one) :
    x.exact.digits = k * 10 ^ (oneScale - x.scale) := by
  have hvalue : (x.exact.digits : ℚ) * 10 ^ x.exact.exponent = k :=
    x.value_exact.trans (value_of_whole hwhole)
  rw [exponent_exact, zpow_neg, zpow_natCast] at hvalue
  have hdigits := (mul_inv_eq_iff_eq_mul₀ (by positivity)).mp hvalue
  exact_mod_cast hdigits

theorem exponent_neighbour? {drop : Nat} (h : x.neighbour? tie drop = some d) :
    d.exponent = x.exact.exponent + drop := by
  simp only [neighbour?] at h
  split_ifs at h
  · rw [← Option.some.inj h, above]
  · rw [← Option.some.inj h, below]

theorem neighbour?_ne_none {drop : Nat} (h : (x.below drop).nearest? = some x) :
    x.neighbour? tie drop ≠ none := by
  simp only [neighbour?]
  split_ifs <;> simp

theorem exponent_shortestWithin_nonneg {least : Nat} (hleast : 0 ≤ x.exact.exponent + least)
    (hback : (x.below least).nearest? = some x) {drop : Nat} (hdrop : least ≤ drop) :
    0 ≤ (x.shortestWithin tie drop).exponent := by
  fun_induction shortestWithin x tie drop with
  | case1 =>
    obtain rfl := Nat.le_zero.mp hdrop
    simpa using hleast
  | case2 drop d h =>
    rw [exponent_neighbour? h]
    omega
  | case3 drop h ih =>
    have hne : least ≠ drop + 1 := by
      rintro rfl
      exact neighbour?_ne_none hback h
    exact ih (by omega)

theorem exponent_shortest_nonneg (hwhole : x.units = k * one) (hx : x.units ≠ 0) (tie : Tie) :
    0 ≤ (x.shortest tie).exponent := by
  have hdigits := exact_digits_of_whole hwhole
  have hexponent := x.exponent_exact
  set least := oneScale - x.scale
  have hsize : least ≤ x.exact.size - 1 := by
    have hlt : 10 ^ least < 10 ^ x.exact.size := by
      calc 10 ^ least ≤ k * 10 ^ least := Nat.le_mul_of_pos_left _ (pos_of_whole hwhole hx)
        _ = x.exact.digits := hdigits.symm
        _ < 10 ^ x.exact.size := Decimal.digits_lt
    have := (Nat.pow_lt_pow_iff_right (by decide)).mp hlt
    omega
  have hbelow : x.below least = ⟨k, 0⟩ := by
    rw [below, hdigits, hexponent, Nat.pow_eq, Nat.mul_div_cancel k (Nat.pow_pos (by decide))]
    simp
  have hback : (x.below least).nearest? = some x := by
    rw [← nearest?_exact hx]
    apply Decimal.nearest?_congr
    rw [hbelow, value_exact, value_of_whole hwhole, Decimal.value]
    simp
  have hwithin : 0 ≤ (x.shortestWithin tie (x.exact.size - 1)).exponent :=
    exponent_shortestWithin_nonneg (by omega) hback hsize
  have hread := nearest?_shortestWithin hx tie (x.exact.size - 1)
  exact hwithin.trans (Decimal.exponent_le_trim (Decimal.digits_ne_zero_of_nearest? hx hread))

end Magnitude

end DocPath
