import DocPath.Number.Decimal
import Mathlib

/-!
Rounding to double precision. The result is within half a unit of its last place, and a number that is
double-precision already is its own result.
-/

namespace DocPath

section Quotient

variable {num den : Nat}

theorem two_mul_roundDiv_le (hden : 0 < den) :
    2 * (roundDiv num den * den) ≤ 2 * num + den := by
  have hsplit := Nat.div_add_mod' num den
  have hmod := Nat.mod_lt num hden
  have hparity := Nat.mod_lt (num / den) (y := 2) (by decide)
  dsimp only [roundDiv]
  split
  · omega
  · split
    · rw [Nat.add_mul, Nat.one_mul]
      omega
    · rw [Nat.add_mul]
      have := Nat.mul_le_mul_right den (Nat.le_of_lt_succ hparity)
      omega

theorem two_mul_le_roundDiv (hden : 0 < den) :
    2 * num ≤ 2 * (roundDiv num den * den) + den := by
  have hsplit := Nat.div_add_mod' num den
  have hmod := Nat.mod_lt num hden
  dsimp only [roundDiv]
  split
  · omega
  · split
    · rw [Nat.add_mul, Nat.one_mul]
      omega
    · rw [Nat.add_mul]
      omega

theorem roundDiv_mul (n : Nat) (hden : 0 < den) : roundDiv (n * den) den = n := by
  dsimp only [roundDiv]
  rw [Nat.mul_mod_left, Nat.mul_div_cancel n hden, if_pos (by omega)]

theorem roundDiv_mul_right {c : Nat} (hc : 0 < c) :
    roundDiv (num * c) (den * c) = roundDiv num den := by
  have hbelow : 2 * (num % den * c) < den * c ↔ 2 * (num % den) < den := by
    rw [← Nat.mul_assoc]
    exact Nat.mul_lt_mul_right hc
  have habove : den * c < 2 * (num % den * c) ↔ den < 2 * (num % den) := by
    rw [← Nat.mul_assoc]
    exact Nat.mul_lt_mul_right hc
  simp only [roundDiv, Nat.mul_div_mul_right _ _ hc, Nat.mul_mod_mul_right, hbelow, habove]

theorem abs_roundDiv_sub_le (hden : 0 < den) :
    |(roundDiv num den : ℚ) - num / den| ≤ 1 / 2 := by
  have hpos : (0 : ℚ) < den := by exact_mod_cast hden
  have hupper : (2 * (roundDiv num den * den) : ℚ) ≤ 2 * num + den := by
    exact_mod_cast two_mul_roundDiv_le hden
  have hlower : (2 * num : ℚ) ≤ 2 * (roundDiv num den * den) + den := by
    exact_mod_cast two_mul_le_roundDiv hden
  have hcancel : (num : ℚ) / den * den = num := div_mul_cancel₀ _ hpos.ne'
  rw [abs_sub_le_iff]
  constructor
  · nlinarith
  · nlinarith

end Quotient

namespace Magnitude

/-- The magnitude as a number. -/
def value (x : Magnitude) : ℚ := x.units / one

/-- The scale of the unit bit of `one`. -/
def oneScale : Nat := 1074

theorem one_eq : one = 2 ^ oneScale := by
  have h : one = 1 <<< oneScale := rfl
  rw [h, Nat.one_shiftLeft]

theorem units_eq (x : Magnitude) : x.units = x.mantissa * 2 ^ x.scale := Nat.shiftLeft_eq _ _

theorem scaleFor_units (x : Magnitude) : scaleFor x.units = x.scale := by
  have hlt := x.mantissa_lt
  rw [Nat.one_shiftLeft] at hlt
  rcases x.normal with hnormal | hscale
  · rw [Nat.one_shiftLeft] at hnormal
    have hpos := Nat.two_pow_pos x.scale
    have hlog : x.units.log2 = 52 + x.scale := by
      rw [Nat.log2_eq_iff (by rw [units_eq]; positivity), units_eq]
      constructor
      · rw [Nat.pow_add]
        exact Nat.mul_le_mul_right _ hnormal
      · rw [Nat.add_right_comm, Nat.pow_add]
        exact Nat.mul_lt_mul_of_pos_right hlt hpos
    rw [scaleFor, hlog, Nat.add_sub_cancel_left]
  · rw [scaleFor, units_eq, hscale, Nat.pow_zero, Nat.mul_one]
    have hlog : x.mantissa.log2 ≤ 52 := by
      by_cases hzero : x.mantissa = 0
      · simp [hzero]
      · exact Nat.le_of_lt_succ ((Nat.log2_lt hzero).mpr hlt)
    omega

theorem units_injective {x y : Magnitude} (h : x.units = y.units) : x = y := by
  have hscale : x.scale = y.scale := by rw [← scaleFor_units, ← scaleFor_units, h]
  rw [units_eq, units_eq, hscale] at h
  have hmantissa := Nat.eq_of_mul_eq_mul_right (Nat.two_pow_pos y.scale) h
  cases x
  cases y
  simp_all

section Rounding

variable {num den n : Nat} {x : Magnitude}

theorem ofUnits?_mul_right {c : Nat} (hc : 0 < c) :
    ofUnits? (num * c) (den * c) = ofUnits? num den := by
  have hmantissa : mantissaFor (num * c) (den * c) = mantissaFor num den := by
    rw [mantissaFor, mantissaFor, Nat.mul_div_mul_right _ _ hc]
    rw [Nat.shiftLeft_eq, Nat.shiftLeft_eq, Nat.mul_right_comm, roundDiv_mul_right hc]
  simp only [ofUnits?, hmantissa, Nat.mul_div_mul_right _ _ hc]

theorem ofUnits?_congr {num' den' : Nat} (hden : 0 < den) (hden' : 0 < den')
    (h : num * den' = num' * den) : ofUnits? num den = ofUnits? num' den' := by
  rw [← ofUnits?_mul_right hden', h, Nat.mul_comm den, ofUnits?_mul_right hden]

theorem units_of_ofUnits? (h : ofUnits? num den = some x) :
    x.units = mantissaFor num den * 2 ^ scaleFor (num / den) ∧ scaleFor (num / den) ≤ x.scale := by
  dsimp only [ofUnits?] at h
  split_ifs at h with hm hs hs
  · rw [← Option.some.inj h]
    exact ⟨Nat.shiftLeft_eq _ _, Nat.le_refl _⟩
  · -- The mantissa is rounded up to one digit more, so that the next scale takes over.
    have hfull : mantissaFor num den = 2 ^ 53 := by
      rw [← Nat.one_shiftLeft]
      exact Nat.le_antisymm (mantissaFor_le num den) (Nat.le_of_not_lt hm)
    rw [← Option.some.inj h]
    refine ⟨?_, Nat.le_succ _⟩
    rw [hfull, units_eq, ← Nat.pow_add]
    dsimp only
    rw [Nat.one_shiftLeft, ← Nat.pow_add]
    congr 1
    omega

theorem abs_units_sub_le (hden : 0 < den) (h : ofUnits? num den = some x) :
    |(x.units : ℚ) - num / den| ≤ 2 ^ x.scale / 2 := by
  obtain ⟨hunits, hscale⟩ := units_of_ofUnits? h
  set s := scaleFor (num / den) with hs
  have hstep : 0 < den <<< s := by
    rw [Nat.shiftLeft_eq]
    exact Nat.mul_pos hden (Nat.two_pow_pos s)
  have hround : |(roundDiv num (den <<< s) : ℚ) - num / (den <<< s : Nat)| ≤ 1 / 2 :=
    abs_roundDiv_sub_le hstep
  have hpow : (0 : ℚ) < 2 ^ s := by positivity
  have hdenpos : (0 : ℚ) < den := by exact_mod_cast hden
  have hscaled : (x.units : ℚ) - num / den =
      ((roundDiv num (den <<< s) : ℚ) - num / (den <<< s : Nat)) * 2 ^ s := by
    rw [hunits, mantissaFor, ← hs, Nat.shiftLeft_eq]
    push_cast
    field_simp
  calc |(x.units : ℚ) - num / den|
      = |(roundDiv num (den <<< s) : ℚ) - num / (den <<< s : Nat)| * 2 ^ s := by
        rw [hscaled, abs_mul, abs_of_pos hpow]
    _ ≤ 1 / 2 * 2 ^ s := by gcongr
    _ ≤ 1 / 2 * 2 ^ x.scale := by
        gcongr
        norm_num
    _ = 2 ^ x.scale / 2 := by ring

/-- A number of units that has no more binary digits than a mantissa is kept. -/
theorem exists_ofUnits?_of_dvd (hden : 0 < den) (hdvd : 2 ^ scaleFor n ∣ n)
    (hscale : scaleFor n ≤ 2045) : ∃ x, ofUnits? (n * den) den = some x ∧ x.units = n := by
  obtain ⟨m, hm⟩ := hdvd
  have hpos := Nat.two_pow_pos (scaleFor n)
  have hmantissa : mantissaFor (n * den) den = m := by
    rw [mantissaFor, Nat.mul_div_cancel n hden, Nat.shiftLeft_eq]
    have hprod : n * den = m * (den * 2 ^ scaleFor n) := by
      conv_lhs => rw [hm]
      ring
    rw [hprod, roundDiv_mul m (Nat.mul_pos hden hpos)]
  have hlt : m < 1 <<< 53 := by
    have hbound := lt_scaleFor n
    rw [Nat.shiftLeft_eq _ (scaleFor n)] at hbound
    apply Nat.lt_of_mul_lt_mul_right (a := 2 ^ scaleFor n)
    calc m * 2 ^ scaleFor n = n := by rw [Nat.mul_comm, ← hm]
      _ < _ := hbound
  have hdiv : n * den / den = n := Nat.mul_div_cancel n hden
  have hsome : ∃ x, ofUnits? (n * den) den = some x := by
    dsimp only [ofUnits?]
    rw [dif_pos (by rw [hmantissa]; exact hlt), dif_pos (by rw [hdiv]; exact hscale)]
    exact ⟨_, rfl⟩
  obtain ⟨x, hx⟩ := hsome
  refine ⟨x, hx, ?_⟩
  obtain ⟨hunits, _⟩ := units_of_ofUnits? hx
  rw [hunits, hmantissa, hdiv, Nat.mul_comm, ← hm]

theorem ofUnits?_units (x : Magnitude) (hden : 0 < den) : ofUnits? (x.units * den) den = some x := by
  have hscale := x.scaleFor_units
  have hdvd : 2 ^ scaleFor x.units ∣ x.units := by
    rw [hscale, units_eq]
    exact Nat.dvd_mul_left _ _
  obtain ⟨y, hy, hunits⟩ := exists_ofUnits?_of_dvd hden hdvd (by rw [hscale]; exact x.scale_le)
  rw [hy, units_injective hunits]

end Rounding

end Magnitude

end DocPath
