import DocPath.Proofs.Number.ReadBack
import Mathlib

/-!
Reading a decimal is rounding it. The magnitude that is read is the nearest one, of two the one with
the even mantissa; nothing is read from half a unit past the greatest magnitude on.
-/

namespace DocPath

section Quotient

variable {num den n : Nat}

/-- The distances of two whole numbers from a third number make up at least one. -/
theorem one_le_abs_sub_add {m : Nat} (h : n ≠ m) (q : ℚ) : 1 ≤ |(n : ℚ) - q| + |(m : ℚ) - q| := by
  have hne : (n : ℤ) - m ≠ 0 := by omega
  have hstep : (1 : ℚ) ≤ |(n : ℚ) - m| := by exact_mod_cast Int.one_le_abs hne
  have htriangle := abs_sub_le (n : ℚ) q m
  rw [abs_sub_comm q] at htriangle
  linarith

theorem abs_roundDiv_sub_le_abs (hden : 0 < den) (n : Nat) :
    |(roundDiv num den : ℚ) - num / den| ≤ |(n : ℚ) - num / den| := by
  by_cases h : n = roundDiv num den
  · rw [h]
  · have := one_le_abs_sub_add h (num / den)
    have := @abs_roundDiv_sub_le num den hden
    linarith

theorem two_mul_roundDiv_lt_of_odd (hden : 0 < den) (hodd : roundDiv num den % 2 = 1) :
    2 * (roundDiv num den * den) < 2 * num + den ∧
      2 * num < 2 * (roundDiv num den * den) + den := by
  have hsplit := Nat.div_add_mod' num den
  have hmod := Nat.mod_lt num hden
  dsimp only [roundDiv] at hodd ⊢
  split at hodd
  · rename_i hbelow
    rw [if_pos hbelow]
    omega
  · rename_i hbelow
    rw [if_neg hbelow]
    split at hodd
    · rename_i habove
      rw [if_pos habove, Nat.add_mul, Nat.one_mul]
      omega
    · omega

theorem abs_roundDiv_sub_lt_of_odd (hden : 0 < den) (hodd : roundDiv num den % 2 = 1) :
    |(roundDiv num den : ℚ) - num / den| < 1 / 2 := by
  obtain ⟨hupper, hlower⟩ := two_mul_roundDiv_lt_of_odd hden hodd
  have hpos : (0 : ℚ) < den := by exact_mod_cast hden
  have hupper' : (2 * (roundDiv num den * den) : ℚ) < 2 * num + den := by exact_mod_cast hupper
  have hlower' : (2 * num : ℚ) < 2 * (roundDiv num den * den) + den := by exact_mod_cast hlower
  have hcancel : (num : ℚ) / den * den = num := div_mul_cancel₀ _ hpos.ne'
  rw [abs_sub_lt_iff]
  constructor
  · nlinarith
  · nlinarith

/-- A half is rounded to an even number. -/
theorem roundDiv_even_of_tie (hden : 0 < den) (hne : n ≠ roundDiv num den)
    (htie : |(n : ℚ) - num / den| = |(roundDiv num den : ℚ) - num / den|) :
    roundDiv num den % 2 = 0 := by
  have hone := one_le_abs_sub_add hne (num / den)
  rcases Nat.mod_two_eq_zero_or_one (roundDiv num den) with heven | hodd
  · exact heven
  · have := abs_roundDiv_sub_lt_of_odd hden hodd
    linarith

/-- An even number is reached from half a unit below it on. -/
theorem roundDiv_lt_iff_of_even (hden : 0 < den) (heven : n % 2 = 0) :
    roundDiv num den < n ↔ 2 * num + den < 2 * (n * den) := by
  constructor
  · intro hlt
    rcases Nat.mod_two_eq_zero_or_one (roundDiv num den) with hround | hround
    · have hlower := @two_mul_le_roundDiv num den hden
      have hstep := Nat.mul_le_mul_right den (show roundDiv num den + 2 ≤ n by omega)
      rw [Nat.add_mul] at hstep
      omega
    · obtain ⟨_, hlower⟩ := two_mul_roundDiv_lt_of_odd hden hround
      have hstep := Nat.mul_le_mul_right den hlt
      rw [Nat.succ_mul] at hstep
      omega
  · intro hlt
    have hupper := @two_mul_roundDiv_le num den hden
    apply Nat.lt_of_mul_lt_mul_right (a := den)
    omega

end Quotient

section Midpoint

variable {a b v : ℚ}

/-- The nearer of two numbers stands on the same side of their midpoint. -/
theorem two_mul_le_of_nearer (hab : a < b) (h : |a - v| ≤ |b - v|) : 2 * v ≤ a + b := by
  have hsquares := sq_le_sq.mpr h
  have hprod : 0 ≤ (b - a) * (a + b - 2 * v) := by linarith
  have := (mul_nonneg_iff_of_pos_left (sub_pos.mpr hab)).mp hprod
  linarith

theorem le_two_mul_of_nearer (hab : a < b) (h : |b - v| ≤ |a - v|) : a + b ≤ 2 * v := by
  have hsquares := sq_le_sq.mpr h
  have hprod : 0 ≤ (b - a) * (2 * v - (a + b)) := by linarith
  have := (mul_nonneg_iff_of_pos_left (sub_pos.mpr hab)).mp hprod
  linarith

end Midpoint

namespace Magnitude

section Units

variable {num den : Nat} {x y : Magnitude}

theorem two_pow_mul_step (s : Nat) : 2 ^ 53 * 2 ^ s = 2 ^ 52 * 2 ^ (s + 1) := by
  rw [← Nat.pow_add, ← Nat.pow_add]
  congr 1
  omega

/-- What is no multiple of `2^s` is less than the numbers that are rounded at the scale `s`. -/
theorem dvd_units_or_lt (y : Magnitude) (s : Nat) :
    2 ^ s ∣ y.units ∨ (s ≠ 0 ∧ y.units < 2 ^ 52 * 2 ^ s) := by
  rw [units_eq]
  rcases Nat.lt_or_ge y.scale s with hlt | hge
  · right
    refine ⟨by omega, ?_⟩
    have hmantissa := y.mantissa_lt
    rw [Nat.one_shiftLeft] at hmantissa
    calc y.mantissa * 2 ^ y.scale < 2 ^ 53 * 2 ^ y.scale :=
          Nat.mul_lt_mul_of_pos_right hmantissa (Nat.two_pow_pos _)
      _ = 2 ^ 52 * 2 ^ (y.scale + 1) := two_pow_mul_step _
      _ ≤ 2 ^ 52 * 2 ^ s := Nat.mul_le_mul_left _ (Nat.pow_le_pow_right (by decide) hlt)
  · left
    exact (Nat.pow_dvd_pow 2 hge).mul_left _

/-- The number of units to which `num / den` units are rounded. -/
def roundedUnits (num den : Nat) : Nat := mantissaFor num den * 2 ^ scaleFor (num / den)

theorem abs_multiple_sub (n : Nat) :
    |((n * 2 ^ scaleFor (num / den) : Nat) : ℚ) - num / den| =
      |(n : ℚ) - num / (den <<< scaleFor (num / den) : Nat)| * 2 ^ scaleFor (num / den) := by
  generalize scaleFor (num / den) = s
  have hpow : (0 : ℚ) < 2 ^ s := pow_pos (by norm_num) s
  have hscaled : ((n * 2 ^ s : Nat) : ℚ) - num / den =
      ((n : ℚ) - num / (den <<< s : Nat)) * 2 ^ s := by
    rw [Nat.shiftLeft_eq]
    push_cast
    field_simp
  rw [hscaled, abs_mul, abs_of_pos hpow]

theorem shiftLeft_pos (hden : 0 < den) (s : Nat) : 0 < den <<< s := by
  rw [Nat.shiftLeft_eq]
  exact Nat.mul_pos hden (Nat.two_pow_pos s)

theorem abs_roundedUnits_sub_le (hden : 0 < den) (n : Nat) :
    |(roundedUnits num den : ℚ) - num / den| ≤
      |((n * 2 ^ scaleFor (num / den) : Nat) : ℚ) - num / den| := by
  rw [roundedUnits, abs_multiple_sub, abs_multiple_sub]
  exact mul_le_mul_of_nonneg_right (abs_roundDiv_sub_le_abs (shiftLeft_pos hden _) n)
    (pow_nonneg (by norm_num) _)

/-- A magnitude below the numbers that are rounded at this scale is farther away. -/
theorem abs_roundedUnits_sub_lt (hden : 0 < den) (hs : scaleFor (num / den) ≠ 0)
    (hlt : y.units < 2 ^ 52 * 2 ^ scaleFor (num / den)) :
    |(roundedUnits num den : ℚ) - num / den| < |(y.units : ℚ) - num / den| := by
  have hwhole := scaleFor_le hs
  rw [Nat.shiftLeft_eq _ (scaleFor _), Nat.one_shiftLeft] at hwhole
  have hleast := @abs_roundedUnits_sub_le num den hden (2 ^ 52)
  generalize 2 ^ 52 * 2 ^ scaleFor (num / den) = least at *
  have hfloor : (least : ℚ) ≤ num / den :=
    le_trans (by exact_mod_cast hwhole) (Nat.cast_div_le (m := num) (n := den))
  have hbelow : (y.units : ℚ) < least := by exact_mod_cast hlt
  rw [abs_of_nonpos (sub_nonpos.mpr hfloor)] at hleast
  rw [abs_of_neg (by linarith : (y.units : ℚ) - num / den < 0)]
  linarith

theorem roundedUnits_nearest (hden : 0 < den) (y : Magnitude) :
    |(roundedUnits num den : ℚ) - num / den| ≤ |(y.units : ℚ) - num / den| := by
  rcases dvd_units_or_lt y (scaleFor (num / den)) with ⟨n, hn⟩ | ⟨hs, hlt⟩
  · rw [hn, Nat.mul_comm]
    exact abs_roundedUnits_sub_le hden n
  · exact (abs_roundedUnits_sub_lt hden hs hlt).le

theorem mantissaFor_even_of_tie (hden : 0 < den) (hne : y.units ≠ roundedUnits num den)
    (htie : |(y.units : ℚ) - num / den| = |(roundedUnits num den : ℚ) - num / den|) :
    mantissaFor num den % 2 = 0 := by
  rcases dvd_units_or_lt y (scaleFor (num / den)) with ⟨n, hn⟩ | ⟨hs, hlt⟩
  · have hpow : (2 : ℚ) ^ scaleFor (num / den) ≠ 0 := pow_ne_zero _ (by norm_num)
    rw [hn, Nat.mul_comm] at hne htie
    rw [roundedUnits, abs_multiple_sub, abs_multiple_sub, mul_left_inj' hpow] at htie
    apply roundDiv_even_of_tie (shiftLeft_pos hden _) _ htie
    rintro rfl
    exact hne rfl
  · exact absurd htie (abs_roundedUnits_sub_lt hden hs hlt).ne'

theorem mantissa_even_of_ofUnits? (h : ofUnits? num den = some x)
    (heven : mantissaFor num den % 2 = 0) : x.mantissa % 2 = 0 := by
  dsimp only [ofUnits?] at h
  split_ifs at h
  · rw [← Option.some.inj h]
    exact heven
  · have hfull : (1 <<< 52) % 2 = 0 := by decide
    rw [← Option.some.inj h]
    exact hfull

end Units

section Range

-- The greatest scale goes by a name here, for powers of two with so great a literal are slow.
variable {num den top : Nat} (htop : top = 2045)

include htop

theorem exists_ofUnits?_iff_roundedUnits :
    (∃ x, ofUnits? num den = some x) ↔ roundedUnits num den < 2 ^ 53 * 2 ^ top := by
  have hle := mantissaFor_le num den
  have hge := @le_mantissaFor num den
  rw [Nat.one_shiftLeft] at hle hge
  dsimp only [ofUnits?]
  rw [roundedUnits]
  split_ifs with hm hs hs
  · refine iff_of_true ⟨_, rfl⟩ ?_
    rw [Nat.one_shiftLeft] at hm
    exact Nat.mul_lt_mul_of_lt_of_le hm (Nat.pow_le_pow_right (by decide) (by omega))
      (Nat.two_pow_pos _)
  · refine iff_of_false (by simp) (Nat.not_lt_of_le ?_)
    rw [two_pow_mul_step]
    exact Nat.mul_le_mul (hge (by omega)) (Nat.pow_le_pow_right (by decide) (by omega))
  · refine iff_of_true ⟨_, rfl⟩ ?_
    exact Nat.mul_lt_mul_of_le_of_lt hle (Nat.pow_lt_pow_right (by decide) (by omega))
      (Nat.two_pow_pos 53)
  · refine iff_of_false (by simp) (Nat.not_lt_of_le ?_)
    rw [Nat.one_shiftLeft] at hm
    exact Nat.mul_le_mul (Nat.le_of_not_lt hm) (Nat.pow_le_pow_right (by decide) (by omega))

/-- A number of units has a magnitude as long as it is less than half a unit past the greatest. -/
theorem exists_ofUnits?_iff (hden : 0 < den) :
    (∃ x, ofUnits? num den = some x) ↔
      2 * num + den * 2 ^ top < 2 * (2 ^ 53 * (den * 2 ^ top)) := by
  rw [exists_ofUnits?_iff_roundedUnits htop, roundedUnits]
  have hle := mantissaFor_le num den
  have hge := @le_mantissaFor num den
  have hlt := lt_scaleFor (num / den)
  have hfloor := @scaleFor_le (num / den)
  simp only [Nat.shiftLeft_eq _ (scaleFor _), Nat.one_shiftLeft] at hle hge hlt hfloor
  rw [Nat.div_lt_iff_lt_mul hden] at hlt
  rw [Nat.le_div_iff_mul_le hden] at hfloor
  have hpos := Nat.mul_pos hden (Nat.two_pow_pos top)
  rcases Nat.lt_trichotomy (scaleFor (num / den)) top with hs | hs | hs
  · apply iff_of_true
    · exact Nat.mul_lt_mul_of_le_of_lt hle (Nat.pow_lt_pow_right (by decide) hs) (by decide)
    · have hstep : 2 * (2 ^ 53 * 2 ^ scaleFor (num / den) * den) ≤ 2 ^ 53 * (den * 2 ^ top) := by
        calc 2 * (2 ^ 53 * 2 ^ scaleFor (num / den) * den)
            = 2 ^ 53 * (den * 2 ^ (scaleFor (num / den) + 1)) := by rw [Nat.pow_succ]; ring
          _ ≤ 2 ^ 53 * (den * 2 ^ top) := Nat.mul_le_mul_left _ <| Nat.mul_le_mul_left _ <|
              Nat.pow_le_pow_right (by decide) hs
      omega
  · have hround := @roundDiv_lt_iff_of_even num _ (2 ^ 53) (shiftLeft_pos hden top)
      (by decide)
    rw [mantissaFor, hs, Nat.mul_lt_mul_right (Nat.two_pow_pos _), hround, Nat.shiftLeft_eq]
  · have hne : scaleFor (num / den) ≠ 0 := by omega
    have hpow : 2 ^ (top + 1) ≤ 2 ^ scaleFor (num / den) := Nat.pow_le_pow_right (by decide) hs
    apply iff_of_false
    · rw [two_pow_mul_step]
      exact Nat.not_lt_of_le (Nat.mul_le_mul (hge hne) hpow)
    · have hstep : 2 ^ 53 * (den * 2 ^ top) ≤ 2 ^ 52 * 2 ^ scaleFor (num / den) * den := by
        calc 2 ^ 53 * (den * 2 ^ top) = 2 ^ 52 * 2 ^ (top + 1) * den := by
              rw [← two_pow_mul_step]; ring
          _ ≤ _ := Nat.mul_le_mul_right _ (Nat.mul_le_mul_left _ hpow)
      have := hfloor hne
      omega

theorem ofUnits?_of_lt_half (hden : 0 < den) (h : 2 * num < den) :
    ofUnits? num den = some zero := by
  have hpos : (0 : ℚ) < den := by exact_mod_cast hden
  have hsmall : (num : ℚ) / den < 1 / 2 := by
    rw [div_lt_div_iff₀ hpos (by norm_num), mul_comm, one_mul]
    exact_mod_cast h
  have hden' := Nat.le_mul_of_pos_right den (Nat.two_pow_pos top)
  obtain ⟨x, hx⟩ := (@exists_ofUnits?_iff num den top htop hden).mpr (by omega)
  have hnearest := @roundedUnits_nearest num den hden zero
  rw [roundedUnits, ← (units_of_ofUnits? hx).1] at hnearest
  have hzero : zero.units = 0 := rfl
  have hunits : (x.units : ℚ) < 1 := by
    have hnonneg : (0 : ℚ) ≤ num / den := by positivity
    rw [hzero, Nat.cast_zero, zero_sub, abs_neg, abs_of_nonneg hnonneg] at hnearest
    have := le_abs_self ((x.units : ℚ) - num / den)
    linarith
  rw [hx, Option.some.injEq]
  apply units_injective
  rw [hzero]
  exact Nat.lt_one_iff.mp (by exact_mod_cast hunits)

end Range

theorem abs_value_sub (x : Magnitude) (v : ℚ) : |x.value - v| = |x.units - v * one| / one := by
  have hpos : (0 : ℚ) < one := by exact_mod_cast one_pos
  rw [value, div_sub' hpos.ne', abs_div, abs_of_pos hpos, mul_comm v]

theorem value_le_iff {x y : Magnitude} : x.value ≤ y.value ↔ x.units ≤ y.units := by
  have hpos : (0 : ℚ) < one := by exact_mod_cast one_pos
  rw [value, value, div_le_div_iff_of_pos_right hpos, Nat.cast_le]

theorem value_lt_iff {x y : Magnitude} : x.value < y.value ↔ x.units < y.units :=
  lt_iff_lt_of_le_iff_le value_le_iff

theorem value_injective {x y : Magnitude} (h : x.value = y.value) : x = y := by
  apply units_injective
  exact Nat.le_antisymm (value_le_iff.mp h.le) (value_le_iff.mp h.ge)

theorem scale_le_of_units_le {x y : Magnitude} (h : x.units ≤ y.units) : x.scale ≤ y.scale := by
  rw [← scaleFor_units, ← scaleFor_units y, scaleFor, scaleFor]
  rw [Nat.log2_eq_log_two, Nat.log2_eq_log_two]
  exact Nat.sub_le_sub_right (Nat.log_mono_right h) 52

/-- The next magnitude above one with an even mantissa has an odd one. -/
theorem exists_next {x : Magnitude} (heven : x.mantissa % 2 = 0) :
    ∃ z : Magnitude, z.mantissa = x.mantissa + 1 ∧ x.units < z.units ∧
      ∀ y : Magnitude, x.units < y.units → z.units ≤ y.units := by
  have hlt := x.mantissa_lt
  rw [Nat.one_shiftLeft] at hlt
  have hnext : x.mantissa + 1 < 1 <<< 53 := by
    rw [Nat.one_shiftLeft]
    omega
  let z : Magnitude := ⟨x.mantissa + 1, x.scale, hnext, x.scale_le, x.normal.imp_left (by omega)⟩
  have hz : z.units = x.units + 2 ^ x.scale := by
    rw [units_eq, units_eq, ← Nat.succ_mul]
  refine ⟨z, rfl, by rw [hz]; exact Nat.lt_add_of_pos_right (Nat.two_pow_pos _), ?_⟩
  intro y hy
  have hx : 2 ^ x.scale ∣ x.units := ⟨x.mantissa, by rw [units_eq, Nat.mul_comm]⟩
  have hdvd : 2 ^ x.scale ∣ y.units := by
    rw [units_eq y]
    exact (Nat.pow_dvd_pow 2 (scale_le_of_units_le hy.le)).mul_left _
  have hstep := Nat.le_of_dvd (Nat.sub_pos_of_lt hy) (Nat.dvd_sub hdvd hx)
  omega

end Magnitude

namespace Decimal

open Magnitude

/-- The magnitude is the double-precision number to which the decimal is rounded. -/
structure RoundsTo (d : Decimal) (x : Magnitude) : Prop where
  nearest : ∀ y : Magnitude, |x.value - d.value| ≤ |y.value - d.value|
  even : ∀ y : Magnitude, y ≠ x → |y.value - d.value| = |x.value - d.value| →
    x.mantissa % 2 = 0
  inRange : d.value < (2 ^ 54 - 1) * 2 ^ 970

variable {d e : Decimal} {x y : Magnitude}

theorem RoundsTo.not_lt (hx : d.RoundsTo x) (hy : d.RoundsTo y) : ¬x.units < y.units := by
  intro hlt
  have hne : x ≠ y := fun h => hlt.ne (congrArg units h)
  have hxy := value_lt_iff.mpr hlt
  have htie := le_antisymm (hx.nearest y) (hy.nearest x)
  have hxeven := hx.even y hne.symm htie.symm
  have hyeven := hy.even x hne htie
  obtain ⟨z, hmantissa, hxz, hzy⟩ := exists_next hxeven
  -- Of two equally near magnitudes none stands between, so the upper one comes next.
  have hmid := le_two_mul_of_nearer hxy htie.ge
  have hbeyond := two_mul_le_of_nearer (value_lt_iff.mpr hxz) (hx.nearest z)
  have hle := hzy y hlt
  rcases hle.eq_or_lt with heq | hbetween
  · rw [← units_injective heq, hmantissa] at hyeven
    omega
  · have := value_lt_iff.mpr hbetween
    linarith

theorem RoundsTo.unique (hx : d.RoundsTo x) (hy : d.RoundsTo y) : x = y :=
  units_injective <|
    Nat.le_antisymm (Nat.le_of_not_lt (hy.not_lt hx)) (Nat.le_of_not_lt (hx.not_lt hy))

theorem num_mul_one_div_den (d : Decimal) : ((d.num * one : Nat) : ℚ) / d.den = d.value * one := by
  rw [value_eq_div, Nat.cast_mul, div_mul_eq_mul_div]

theorem two_mul_num_lt_den {k : Nat} (hk : 2 * one < 10 ^ k) (h : d.point ≤ -k) :
    2 * (d.num * one) < d.den := by
  have hden : (0 : ℚ) < d.den := by exact_mod_cast den_pos
  have hone : (0 : ℚ) < one := by exact_mod_cast one_pos
  have hpow : (2 * one : ℚ) < 10 ^ k := by exact_mod_cast hk
  have hvalue : d.value < (10 ^ k)⁻¹ := by
    calc d.value < 10 ^ (-k : ℤ) := value_lt_pow h
      _ = (10 ^ k)⁻¹ := by rw [zpow_neg, zpow_natCast]
  have hlt : (2 * (d.num * one) : ℚ) < d.den := by
    calc (2 * (d.num * one) : ℚ) = d.value * (2 * one) * d.den := by
          rw [value_eq_div]
          field_simp
      _ < 1 * d.den := by
          apply mul_lt_mul_of_pos_right _ hden
          calc d.value * (2 * one) < (10 ^ k)⁻¹ * (2 * one) :=
                mul_lt_mul_of_pos_right hvalue (by linarith)
            _ < 1 := by rwa [inv_mul_lt_iff₀ (by positivity), mul_one]
      _ = d.den := one_mul _
  exact_mod_cast hlt

theorem le_num_mul_one {k s : Nat} (hk : 2 ^ 53 * 2 ^ s ≤ 10 ^ k * one) (hd : d.digits ≠ 0)
    (h : k < d.point) : 2 ^ 53 * (d.den * 2 ^ s) ≤ d.num * one := by
  have hden : (0 : ℚ) < d.den := by exact_mod_cast den_pos
  have hone : (0 : ℚ) < one := by exact_mod_cast one_pos
  have hbound : (2 ^ 53 * 2 ^ s : ℚ) ≤ 10 ^ k * one := by exact_mod_cast hk
  have hvalue : (10 ^ k : ℚ) ≤ d.value := by
    calc (10 ^ k : ℚ) = 10 ^ (k : ℤ) := (zpow_natCast _ _).symm
      _ ≤ d.value := pow_le_value hd h
  have hle : (2 ^ 53 * (d.den * 2 ^ s) : ℚ) ≤ d.num * one := by
    calc (2 ^ 53 * (d.den * 2 ^ s) : ℚ) = 2 ^ 53 * 2 ^ s * d.den := by ring
      _ ≤ d.value * one * d.den := by
          apply mul_le_mul_of_nonneg_right _ hden.le
          exact hbound.trans (mul_le_mul_of_nonneg_right hvalue hone.le)
      _ = d.num * one := by
          rw [value_eq_div]
          field_simp
  exact_mod_cast hle

/-- The bounds on the point change nothing of what is read. -/
theorem nearest?_eq_ofUnits? (d : Decimal) : d.nearest? = ofUnits? (d.num * one) d.den := by
  have hzero : ∀ n, 2 * n < d.den → ofUnits? n d.den = some zero := fun n =>
    ofUnits?_of_lt_half rfl den_pos
  rw [nearest?]
  split_ifs with hlow hhigh
  · apply Eq.symm
    apply hzero
    rcases hlow with hdigits | hpoint
    · have hden := @den_pos d
      rw [num, hdigits, Nat.zero_mul, Nat.zero_mul]
      omega
    · exact two_mul_num_lt_den (k := 324) (by decide +kernel) (by omega)
  · have hmany := le_num_mul_one (k := 309) (s := 2045) (by decide +kernel)
      (fun hd => hlow (.inl hd)) hhigh
    apply Eq.symm
    rw [Option.eq_none_iff_forall_ne_some]
    intro x hx
    have hrange := (exists_ofUnits?_iff rfl den_pos).mp ⟨x, hx⟩
    generalize d.den * 2 ^ 2045 = u at *
    omega
  · rfl

theorem inRange_iff : (∃ x, d.nearest? = some x) ↔ d.value < (2 ^ 54 - 1) * 2 ^ 970 := by
  obtain ⟨t, ht⟩ : ∃ t, t = 970 := ⟨_, rfl⟩
  obtain ⟨top, htop⟩ : ∃ top, top = 2045 := ⟨_, rfl⟩
  have hpow : (2 : ℚ) ^ top = 2 * 2 ^ t * one := by
    have hadd : top = 1 + t + oneScale := by
      rw [htop, ht]
      rfl
    rw [hadd, pow_add, pow_add, pow_one, one_eq]
    push_cast
    rfl
  have hden : (0 : ℚ) < d.den := by exact_mod_cast den_pos
  have hone : (0 : ℚ) < one := by exact_mod_cast one_pos
  rw [nearest?_eq_ofUnits?, exists_ofUnits?_iff htop den_pos, ← Nat.cast_lt (α := ℚ), ← ht]
  rw [value_eq_div, div_lt_iff₀ hden]
  push_cast
  rw [hpow]
  constructor
  · intro h
    nlinarith
  · intro h
    nlinarith

theorem roundsTo_of_nearest? (h : d.nearest? = some x) : d.RoundsTo x := by
  have hone : (0 : ℚ) < one := by exact_mod_cast one_pos
  have hunits := h
  rw [nearest?_eq_ofUnits?] at hunits
  have hx : x.units = roundedUnits (d.num * one) d.den := (units_of_ofUnits? hunits).1
  refine ⟨?_, ?_, inRange_iff.mp ⟨x, h⟩⟩
  · intro y
    rw [abs_value_sub, abs_value_sub, ← num_mul_one_div_den, hx]
    exact div_le_div_of_nonneg_right (roundedUnits_nearest den_pos y) hone.le
  · intro y hne htie
    rw [abs_value_sub, abs_value_sub, ← num_mul_one_div_den, hx, div_left_inj' hone.ne'] at htie
    apply mantissa_even_of_ofUnits? hunits
    apply mantissaFor_even_of_tie den_pos _ htie
    rw [← hx]
    exact fun heq => hne (units_injective heq)

/-- Reading a decimal is rounding it. -/
theorem nearest?_eq_some_iff : d.nearest? = some x ↔ d.RoundsTo x := by
  constructor
  · exact roundsTo_of_nearest?
  · intro h
    obtain ⟨y, hy⟩ := inRange_iff.mpr h.inRange
    rw [hy, (roundsTo_of_nearest? hy).unique h]

/-- Rounding keeps the order. -/
theorem nearest?_mono (hle : d.value ≤ e.value) (he : e.nearest? = some y) :
    ∃ x, d.nearest? = some x ∧ x.value ≤ y.value := by
  have hy := roundsTo_of_nearest? he
  obtain ⟨x, hx⟩ := inRange_iff.mpr (hle.trans_lt hy.inRange)
  refine ⟨x, hx, ?_⟩
  rcases hle.eq_or_lt with heq | hlt
  · rw [nearest?_congr heq, he, Option.some.injEq] at hx
    rw [hx]
  · by_contra hlarger
    have hless := lt_of_not_ge hlarger
    have hbelow := le_two_mul_of_nearer hless ((roundsTo_of_nearest? hx).nearest y)
    have habove := two_mul_le_of_nearer hless (hy.nearest x)
    linarith

/-- What stands between two decimals that are read alike is read like them. -/
theorem nearest?_between {d' : Decimal} (hd : d.nearest? = some x) (hd' : d'.nearest? = some x)
    (hlow : d.value ≤ e.value) (hhigh : e.value ≤ d'.value) : e.nearest? = some x := by
  obtain ⟨y, hy, hyx⟩ := nearest?_mono hhigh hd'
  obtain ⟨z, hz, hzy⟩ := nearest?_mono hlow hy
  obtain rfl : x = z := Option.some.inj (hd.symm.trans hz)
  rw [hy, value_injective (le_antisymm hyx hzy)]

end Decimal

end DocPath
