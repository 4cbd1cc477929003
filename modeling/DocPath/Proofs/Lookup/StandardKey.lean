import DocPath.Proofs.Lookup.Agreement
import DocPath.Proofs.Number.Shortest
import DocPath.Proofs.Number.Value
import Mathlib

/-!
The text of a number as a key. It is the common text of the shortest decimal, whose layout is chosen
by where the point stands; whole numbers up to `2^53` have one text however they are stored.
-/

namespace DocPath

namespace Decimal

variable {d : Decimal} {p : ℤ}

/-- The common text of a decimal with `k` digits, `0.d₁…dₖ * 10^n`. The digits are put in their
place where that takes at most 21 places in front of the point, or five zeros behind it; else they
are written with a power of ten. -/
def standardText (d : Decimal) : String :=
  let k : ℤ := d.size
  let n := d.point
  if k ≤ n ∧ n ≤ 21 then
    String.ofList d.chars ++ String.ofList (List.replicate (n - k).toNat '0')
  else if 0 < n ∧ n ≤ 21 then
    String.ofList (d.chars.take n.toNat) ++ "." ++ String.ofList (d.chars.drop n.toNat)
  else if -6 < n ∧ n ≤ 0 then
    "0." ++ String.ofList (List.replicate (-n).toNat '0') ++ String.ofList d.chars
  else
    String.ofList (d.chars.take 1) ++
      (if k = 1 then "" else "." ++ String.ofList (d.chars.drop 1)) ++ "e" ++
      (if 0 ≤ n - 1 then "+" else "-") ++ toString (n - 1).natAbs

theorem scientific_eq (d : Decimal) : d.scientific = String.ofList (d.chars.take 1) ++
    (if (d.size : ℤ) = 1 then "" else "." ++ String.ofList (d.chars.drop 1)) ++
      powerText d.order := by
  have hsize := @size_pos d
  rw [size] at hsize ⊢
  rw [scientific]
  generalize d.chars = ds at *
  rcases ds with _ | ⟨c, _ | ⟨r, rest⟩⟩
  · contradiction
  · simp
  · have hlength : ((c :: r :: rest).length : ℤ) ≠ 1 := by
      simp only [List.length_cons]
      omega
    rw [if_neg hlength]
    apply String.toList_injective
    simp

theorem powerText_eq (n : ℤ) :
    powerText n = "e" ++ (if 0 ≤ n then "+" else "-") ++ toString n.natAbs := by
  rw [powerText]
  by_cases hneg : n < 0
  · rw [if_pos hneg, if_neg (by omega)]
    rfl
  · rw [if_neg hneg, if_pos (by omega)]
    rfl

/-- The point alone decides between the two layouts. -/
theorem standardText_eq (d : Decimal) : d.standardText =
    if -6 < d.point ∧ d.point ≤ 21 then d.positional else d.scientific := by
  have hpoint : d.point = d.size + d.exponent := rfl
  have hsize := @size_pos d
  rw [standardText]
  by_cases hrange : -6 < d.point ∧ d.point ≤ 21
  · rw [if_pos hrange, positional]
    apply String.toList_injective
    by_cases hwhole : 0 ≤ d.exponent
    · have hzeros : d.point - d.size = d.exponent := by omega
      rw [if_pos (by omega), if_pos hwhole, hzeros]
      simp
    · rw [if_neg (by omega), if_neg hwhole]
      by_cases hpos : 0 < d.point
      · rw [if_pos (by omega), if_pos hpos]
        simp
      · rw [if_neg (by omega), if_pos (by omega), if_neg hpos]
        simp
  · rw [if_neg (by omega), if_neg (by omega), if_neg (by omega), if_neg hrange, scientific_eq]
    rw [powerText_eq, order]
    simp only [String.append_assoc]

/-- A decimal of one digit below a power of ten is at most `9` one place below it. -/
theorem value_le_nine (hsize : d.size ≤ 1) (hpoint : d.point ≤ p) :
    d.value ≤ (⟨9, p - 1⟩ : Decimal).value := by
  have hdigits : d.digits < 10 ^ 1 :=
    digits_lt.trans_le (Nat.pow_le_pow_right (by decide) hsize)
  have hnat : (d.digits : ℚ) ≤ (9 : Nat) := by exact_mod_cast Nat.le_of_lt_succ hdigits
  have hexponent : d.exponent ≤ p - 1 := by
    have hpoint' : d.point = d.size + d.exponent := rfl
    have := @size_pos d
    omega
  have hpow : (10 : ℚ) ^ d.exponent ≤ 10 ^ (p - 1) :=
    zpow_le_zpow_right₀ (by norm_num) hexponent
  rw [value, value]
  gcongr

theorem value_nine_le : (⟨9, p - 1⟩ : Decimal).value ≤ (powerOfTen p).value := by
  have hpos : (0 : ℚ) < 10 ^ p := by positivity
  rw [value_powerOfTen, value, zpow_sub_one₀ (by norm_num)]
  push_cast
  linarith

end Decimal

namespace Magnitude

variable {x m : Magnitude} {p : ℤ}

/-- The shortest decimal does not cross a power of ten: if the power is read as `m` and the decimal
`9` one place below is not, the magnitudes from `m` on are those with decimals from the power on. -/
theorem units_le_iff_lt_point (hx : x.units ≠ 0)
    (hm : (Decimal.powerOfTen p).nearest? = some m)
    (hnine : (⟨9, p - 1⟩ : Decimal).nearest? ≠ some m) :
    m.units ≤ x.units ↔ p < (x.shortest .up).point := by
  have hread := nearest?_shortest hx .up
  have hshort : (Decimal.powerOfTen p).nearest? = some x → (x.shortest .up).size ≤ 1 := by
    intro hp
    rw [← Decimal.size_powerOfTen p]
    exact (size_shortest_le_and_prefers hx hp).1
  generalize x.shortest .up = d at *
  constructor
  · intro hle
    by_contra hpoint
    have hplace : d.point ≤ p := Int.le_of_not_gt hpoint
    have hbelow := Decimal.value_lt_pow hplace
    rw [← Decimal.value_powerOfTen] at hbelow
    obtain ⟨y, hy, hym⟩ := Decimal.nearest?_mono hbelow.le hm
    obtain rfl : x = y := Option.some.inj (hread.symm.trans hy)
    obtain rfl : x = m := units_injective (Nat.le_antisymm (value_le_iff.mp hym) hle)
    -- A power of ten has one digit, so the decimal has one digit below the power of ten.
    have hvalue := Decimal.value_le_nine (hshort hm) hplace
    exact hnine (Decimal.nearest?_between hread hm hvalue Decimal.value_nine_le)
  · intro hlt
    have habove : (Decimal.powerOfTen p).value ≤ d.value := by
      rw [Decimal.value_powerOfTen]
      exact Decimal.pow_le_value (Decimal.digits_ne_zero_of_nearest? hx hread) hlt
    obtain ⟨y, hy, hyx⟩ := Decimal.nearest?_mono habove hread
    obtain rfl : m = y := Option.some.inj (hm.symm.trans hy)
    exact value_le_iff.mp hyx

/-- The magnitude `10^21`. -/
def sextillion : Magnitude :=
  ⟨7629394531250000, 1091, by decide, by decide, Or.inl (by decide)⟩

theorem nearest?_sextillion : (Decimal.powerOfTen 21).nearest? = some sextillion := by
  decide +kernel

theorem units_sextillion : sextillion.units = Nat.pow 10 21 * one := by decide +kernel

/-- Comparing magnitudes with `10^21` and `10^-6` finds where the point stands in the shortest
decimal. -/
theorem needsPower_iff (hx : x.units ≠ 0) :
    x.needsPower ↔ ¬(-6 < (x.shortest .up).point ∧ (x.shortest .up).point ≤ 21) := by
  have hgreat : sextillion.units ≤ x.units ↔ 21 < (x.shortest .up).point :=
    units_le_iff_lt_point hx nearest?_sextillion (by decide +kernel)
  have hsmall : millionth.units ≤ x.units ↔ -6 < (x.shortest .up).point :=
    units_le_iff_lt_point hx nearest?_millionth (by decide +kernel)
  rw [needsPower, ← units_sextillion, Bool.or_eq_true, decide_eq_true_eq, decide_eq_true_eq]
  rw [hgreat, ← hsmall]
  omega

end Magnitude

namespace Binary64

variable {x : Binary64}

theorem keyText_eq_sign_append (hx : ¬x.isZero) :
    x.keyText = (if x.value < 0 then "-" else "") ++ (⟨false, x.magnitude⟩ : Binary64).keyText := by
  have hmagnitude : ¬(⟨false, x.magnitude⟩ : Binary64).isZero := hx
  have hsign : x.sign = if x.value < 0 then "-" else "" := by
    simp only [sign, value_neg_iff hx]
  rw [keyText, keyText, if_neg hx, if_neg hmagnitude, hsign]
  rfl

theorem keyText_eq_standardText (hx : ¬x.isZero) : x.keyText =
    (if x.value < 0 then "-" else "") ++ (x.magnitude.shortest .up).standardText := by
  have hunits : x.magnitude.units ≠ 0 := isZero_iff.not.mp hx
  have hpower := Magnitude.needsPower_iff hunits
  rw [keyText_eq_sign_append hx, keyText_of_not_negative (x := ⟨false, x.magnitude⟩) hunits rfl]
  rw [Decimal.standardText_eq]
  by_cases h : x.magnitude.needsPower
  · rw [if_pos h, if_neg (hpower.mp h)]
  · rw [if_neg h, if_pos (not_not.mp (hpower.not.mp h))]

theorem keyText_exactBound : (⟨false, .exactBound⟩ : Binary64).keyText = toString (2 ^ 53) := by
  decide +kernel

theorem keyText_of_units {m : Magnitude} {k : Nat} (hk : k ≤ 2 ^ 53)
    (h : m.units = k * Magnitude.one) : (⟨false, m⟩ : Binary64).keyText = toString k := by
  rcases Nat.lt_or_eq_of_le hk with hlt | rfl
  · exact keyText_of_hasValue hlt ⟨h, by simp⟩
  · obtain rfl : m = .exactBound :=
      Magnitude.units_injective (h.trans Magnitude.units_exactBound.symm)
    exact keyText_exactBound

/-- A double whose value is a whole number up to `2^53` has its numeral as key. -/
theorem keyText_of_value {i : ℤ} (hi : |i| ≤ 2 ^ 53) (h : x.value = i) :
    x.keyText = toString i := by
  have hk : i.natAbs ≤ 2 ^ 53 := by
    rw [Int.abs_eq_natAbs] at hi
    exact_mod_cast hi
  by_cases hx : x.isZero
  · rw [value_eq_zero_iff.mpr hx] at h
    obtain rfl : 0 = i := by exact_mod_cast h
    rw [keyText, if_pos hx]
    rfl
  · have hunits : x.magnitude.units = i.natAbs * Magnitude.one := by
      rw [← Magnitude.value_eq_natCast_iff, ← abs_value, h, Nat.cast_natAbs, Int.cast_abs]
    have hneg : x.value < 0 ↔ i < 0 := by
      rw [h]
      exact_mod_cast Iff.rfl
    simp only [keyText_eq_sign_append hx, keyText_of_units hk hunits, hneg]
    cases i with
    | ofNat n => exact String.empty_append
    | negSucc n =>
      rw [if_pos (Int.negSucc_lt_zero n)]
      rfl

end Binary64

/-- The key is the text that a double has by the common rule: `0`, or the text of its best
abbreviation behind a minus sign. Of two abbreviations at one distance the upper one is best. -/
structure Binary64.StandardKey (x : Binary64) (key : String) : Prop where
  zero : x.isZero → key = "0"
  nonzero : ¬x.isZero → ∃ d : Decimal, d.Abbreviates x.magnitude ∧
    (∀ e : Decimal, e.Abbreviates x.magnitude → e = d ∨
      (e.value < x.magnitude.value ∧
        x.magnitude.value - e.value = d.value - x.magnitude.value)) ∧
    key = (if x.value < 0 then "-" else "") ++ d.standardText

theorem Binary64.standardKey_keyText (x : Binary64) : x.StandardKey x.keyText := by
  constructor
  · intro hx
    rw [keyText, if_pos hx]
  · intro hx
    have hunits : x.magnitude.units ≠ 0 := isZero_iff.not.mp hx
    refine ⟨x.magnitude.shortest .up, Magnitude.abbreviates_shortest hunits, ?_, ?_⟩
    · intro e he
      exact Magnitude.eq_shortest_of_abbreviates hunits he
    · exact keyText_eq_standardText hx

/-- Every double has its standard text as key, and every whole number its numeral. Up to `2^53` a
whole number is the value of a double, which has the same key. -/
theorem keyText_is_standard :
    (∀ x : Binary64, x.StandardKey (Number.double x).keyText) ∧
      ∀ i lower upper, (Number.int i lower upper).keyText = toString i ∧
        (|i| ≤ 2 ^ 53 → (∃ x : Binary64, x.value = i) ∧
          ∀ x : Binary64, x.value = i →
            (Number.int i lower upper).keyText = (Number.double x).keyText) := by
  refine ⟨Binary64.standardKey_keyText, ?_⟩
  intro i lower upper
  refine ⟨rfl, ?_⟩
  intro hi
  refine ⟨Binary64.exists_value_eq hi, ?_⟩
  intro x hx
  exact (Binary64.keyText_of_value hi hx).symm

/-- The double `-2^-24`, which lies halfway between two abbreviations. -/
def halfway : Binary64 :=
  ⟨true, ⟨4 <<< 50, 998, by decide, by decide, Or.inl (by decide)⟩⟩

theorem keyText_is_standard_halfway :
    let x : Binary64 := ⟨true, .exactBound⟩
    (¬halfway.isZero ∧ (Number.double halfway).keyText = "-5.960464477539063e-8" ∧
      ∃ d : Decimal, d.Abbreviates halfway.magnitude ∧
        "-5.960464477539063e-8" = (if halfway.value < 0 then "-" else "") ++ d.standardText) ∧
      |(-9007199254740992 : ℤ)| ≤ 2 ^ 53 ∧ x.value = (-9007199254740992 : ℤ) ∧
      (Number.int (-9007199254740992) (by decide) (by decide)).keyText = x.keyText := by
  intro x
  obtain ⟨hdouble, hint⟩ := keyText_is_standard
  have hhalf : ¬halfway.isZero := by decide +kernel
  have hkey : (Number.double halfway).keyText = "-5.960464477539063e-8" := by decide +kernel
  have hbound : |(-9007199254740992 : ℤ)| ≤ 2 ^ 53 := by decide
  have hx : x.value = (-9007199254740992 : ℤ) := by
    rw [Binary64.value, if_pos rfl, Magnitude.value_eq_natCast_iff.mpr Magnitude.units_exactBound]
    norm_num
  obtain ⟨d, hd, _, htext⟩ := (hdouble halfway).nonzero hhalf
  rw [hkey] at htext
  exact ⟨⟨hhalf, hkey, d, hd, htext⟩, hbound, hx, ((hint _ _ _).2 hbound).2 x hx⟩

end DocPath
