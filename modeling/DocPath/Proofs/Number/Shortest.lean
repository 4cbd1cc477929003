import DocPath.Proofs.Number.Nearest
import DocPath.Proofs.Number.Whole
import Mathlib

/-!
The shortest decimal of a magnitude. No decimal with fewer digits is rounded to the magnitude, and
none with as many is nearer; of two at equal distance the upper one is taken.
-/

namespace DocPath

/-- The first number is nearer to `v` than the second one, or as near and not below it. -/
def Prefers (v a b : ℚ) : Prop := |a - v| < |b - v| ∨ (|a - v| = |b - v| ∧ b ≤ a)

section Prefers

variable {v a b c : ℚ}

theorem Prefers.trans (hab : Prefers v a b) (hbc : Prefers v b c) : Prefers v a c := by
  rcases hab with hab | ⟨hab, hba⟩
  · rcases hbc with hbc | ⟨hbc, _⟩
    · exact .inl (hab.trans hbc)
    · exact .inl (hab.trans_eq hbc)
  · rcases hbc with hbc | ⟨hbc, hcb⟩
    · exact .inl (hab.trans_lt hbc)
    · exact .inr ⟨hab.trans hbc, hcb.trans hba⟩

theorem prefers_of_le (hba : b ≤ a) (hav : a ≤ v) : Prefers v a b := by
  rw [Prefers, abs_of_nonpos (sub_nonpos.mpr hav), abs_of_nonpos (sub_nonpos.mpr (hba.trans hav))]
  rcases hba.eq_or_lt with rfl | hlt
  · exact .inr ⟨rfl, le_rfl⟩
  · exact .inl (by linarith)

theorem prefers_of_ge (hva : v ≤ a) (hab : a ≤ b) : Prefers v a b := by
  rw [Prefers, abs_of_nonneg (sub_nonneg.mpr hva), abs_of_nonneg (sub_nonneg.mpr (hva.trans hab))]
  rcases hab.eq_or_lt with rfl | hlt
  · exact .inr ⟨rfl, le_rfl⟩
  · exact .inl (by linarith)

theorem prefers_above (hb : b ≤ v) (ha : v ≤ a) (h : a - v ≤ v - b) : Prefers v a b := by
  rw [Prefers, abs_of_nonneg (sub_nonneg.mpr ha), abs_of_nonpos (sub_nonpos.mpr hb), neg_sub]
  rcases h.eq_or_lt with heq | hlt
  · exact .inr ⟨heq, hb.trans ha⟩
  · exact .inl hlt

theorem prefers_below (hb : b ≤ v) (ha : v ≤ a) (h : v - b < a - v) : Prefers v b a := by
  rw [Prefers, abs_of_nonneg (sub_nonneg.mpr ha), abs_of_nonpos (sub_nonpos.mpr hb), neg_sub]
  exact .inl h

end Prefers

namespace Decimal

variable {d e : Decimal}

/-- A decimal is a whole number of units of every finer grid. -/
theorem value_eq_mul_pow {m : ℤ} (h : m ≤ d.exponent) :
    d.value = ((d.digits * 10 ^ (d.exponent - m).toNat : Nat) : ℚ) * 10 ^ m := by
  have hsplit : d.exponent = (d.exponent - m).toNat + m := by omega
  rw [value]
  conv_lhs => rw [hsplit, zpow_add₀ (by norm_num), zpow_natCast]
  push_cast
  ring

theorem size_pos : 0 < d.size := Nat.length_toDigits_pos

theorem point_eq_of_value_eq (hd : d.digits ≠ 0) (h : d.value = e.value) : d.point = e.point := by
  have he : e.digits ≠ 0 := by rwa [Ne, ← value_eq_zero_iff, ← h, value_eq_zero_iff]
  exact le_antisymm (point_le_of_value_le hd h.le) (point_le_of_value_le he h.ge)

/-- Without zeros at its end a decimal stands on the coarsest of its grids. -/
theorem exponent_le_of_value_eq (hd : d.digits % 10 ≠ 0) (h : d.value = e.value) :
    e.exponent ≤ d.exponent := by
  by_contra hlt
  have hpow : (10 : ℚ) ^ d.exponent ≠ 0 := zpow_ne_zero _ (by norm_num)
  have hdigits : d.digits = e.digits * 10 ^ (e.exponent - d.exponent).toNat := by
    rw [value_eq_mul_pow (d := e) (m := d.exponent) (by omega), value] at h
    exact_mod_cast mul_right_cancel₀ hpow h
  have hdvd : 10 ∣ d.digits := by
    rw [hdigits]
    exact (dvd_pow_self 10 (by omega)).mul_left _
  omega

theorem eq_of_value_eq (hd : d.digits % 10 ≠ 0) (he : e.digits % 10 ≠ 0)
    (h : d.value = e.value) : d = e := by
  have hexponent := le_antisymm (exponent_le_of_value_eq he h.symm) (exponent_le_of_value_eq hd h)
  have hpow : (10 : ℚ) ^ e.exponent ≠ 0 := zpow_ne_zero _ (by norm_num)
  have hdigits : d.digits = e.digits := by
    rw [value, value, hexponent] at h
    exact_mod_cast mul_right_cancel₀ hpow h
  cases d
  cases e
  simp_all

theorem size_le_of_value_eq (hd : d.digits % 10 ≠ 0) (h : d.value = e.value) : d.size ≤ e.size := by
  have hpoint := point_eq_of_value_eq (by omega) h
  have hexponent := exponent_le_of_value_eq hd h
  rw [point, point] at hpoint
  omega

theorem digits_trim_mod (hd : d.digits ≠ 0) : d.trim.digits % 10 ≠ 0 := by
  fun_induction trim d with
  | case1 => contradiction
  | case2 d hne hmod ih => exact ih (by dsimp only; omega)
  | case3 d hne hmod => exact hmod

theorem size_trim_le (hd : d.digits ≠ 0) (h : d.value = e.value) : d.trim.size ≤ e.size :=
  size_le_of_value_eq (digits_trim_mod hd) (value_trim.trans h)

def powerOfTen (p : ℤ) : Decimal := ⟨1, p⟩

theorem value_powerOfTen (p : ℤ) : (powerOfTen p).value = 10 ^ p := by
  rw [powerOfTen, value, Nat.cast_one, one_mul]

@[simp] theorem exponent_powerOfTen (p : ℤ) : (powerOfTen p).exponent = p := rfl

theorem size_powerOfTen (p : ℤ) : (powerOfTen p).size = 1 := by
  have hone : Nat.toDigits 10 1 = ['1'] := Nat.toDigits_of_lt_base (by decide)
  rw [size, chars, powerOfTen, hone, List.length_singleton]

end Decimal

namespace Magnitude

variable {x : Magnitude} {tie : Tie} {d a : Decimal} {drop : Nat}

/-- A decimal on the grid that drops `drop` digits, counted in last places of the exact decimal. -/
theorem exists_value_eq (h : x.exact.exponent + drop ≤ d.exponent) :
    ∃ n : Nat, d.value = ((n * 10 ^ drop : Nat) : ℚ) * 10 ^ x.exact.exponent := by
  refine ⟨d.digits * 10 ^ (d.exponent - (x.exact.exponent + drop)).toNat, ?_⟩
  rw [Decimal.value_eq_mul_pow h, zpow_add₀ (by norm_num), zpow_natCast]
  push_cast
  ring

theorem value_below : (x.below drop).value =
    ((x.exact.digits / 10 ^ drop * 10 ^ drop : Nat) : ℚ) * 10 ^ x.exact.exponent := by
  rw [below, Decimal.value, zpow_add₀ (by norm_num), zpow_natCast, Nat.pow_eq]
  push_cast
  ring

theorem value_above : (x.above drop).value =
    (((x.exact.digits / 10 ^ drop + 1) * 10 ^ drop : Nat) : ℚ) * 10 ^ x.exact.exponent := by
  rw [above, Decimal.value, zpow_add₀ (by norm_num), zpow_natCast, Nat.pow_eq]
  push_cast
  ring

theorem value_eq_exact_digits : x.value = (x.exact.digits : ℚ) * 10 ^ x.exact.exponent :=
  x.value_exact.symm

theorem last_place_pos : (0 : ℚ) < 10 ^ x.exact.exponent := zpow_pos (by norm_num) _

theorem value_below_le : (x.below drop).value ≤ x.value := by
  rw [value_below, value_eq_exact_digits, mul_le_mul_iff_left₀ last_place_pos, Nat.cast_le]
  exact Nat.div_mul_le_self _ _

theorem value_lt_above : x.value < (x.above drop).value := by
  rw [value_above, value_eq_exact_digits, mul_lt_mul_iff_left₀ last_place_pos, Nat.cast_lt]
  rw [Nat.mul_comm]
  exact Nat.lt_mul_div_succ _ (Nat.pow_pos (by decide))

theorem le_value_below (h : x.exact.exponent + drop ≤ d.exponent) (hd : d.value ≤ x.value) :
    d.value ≤ (x.below drop).value := by
  obtain ⟨n, hn⟩ := exists_value_eq h
  rw [hn, value_eq_exact_digits, mul_le_mul_iff_left₀ last_place_pos, Nat.cast_le] at hd
  rw [hn, value_below, mul_le_mul_iff_left₀ last_place_pos, Nat.cast_le]
  exact Nat.mul_le_mul_right _ ((Nat.le_div_iff_mul_le (Nat.pow_pos (by decide))).mpr hd)

theorem value_above_le (h : x.exact.exponent + drop ≤ d.exponent) (hd : x.value < d.value) :
    (x.above drop).value ≤ d.value := by
  obtain ⟨n, hn⟩ := exists_value_eq h
  rw [hn, value_eq_exact_digits, mul_lt_mul_iff_left₀ last_place_pos, Nat.cast_lt] at hd
  rw [hn, value_above, mul_le_mul_iff_left₀ last_place_pos, Nat.cast_le]
  exact Nat.mul_le_mul_right _ ((Nat.div_lt_iff_lt_mul (Nat.pow_pos (by decide))).mpr hd)

theorem prefersAbove_up_iff :
    x.prefersAbove .up drop ↔ 10 ^ drop ≤ 2 * (x.exact.digits % 10 ^ drop) := by
  simp only [prefersAbove, Tie.takesUpper, Nat.pow_eq]
  split_ifs with h
  · simp [h]
  · simp only [decide_eq_true_eq]
    omega

/-- What is dropped decides between the two neighbours. -/
theorem prefers_below_or_above :
    (x.prefersAbove .up drop → Prefers x.value (x.above drop).value (x.below drop).value) ∧
      (¬x.prefersAbove .up drop →
        Prefers x.value (x.below drop).value (x.above drop).value) := by
  have hunit : (0 : ℚ) < 10 ^ x.exact.exponent := last_place_pos
  have hsplit : x.exact.digits / 10 ^ drop * 10 ^ drop + x.exact.digits % 10 ^ drop =
      x.exact.digits := Nat.div_add_mod' _ _
  have hlow : x.value - (x.below drop).value =
      (x.exact.digits % 10 ^ drop : Nat) * 10 ^ x.exact.exponent := by
    rw [value_below, value_eq_exact_digits, ← sub_mul]
    congr 1
    rw [sub_eq_iff_eq_add']
    exact_mod_cast hsplit.symm
  have hwidth : (x.above drop).value - (x.below drop).value =
      (10 ^ drop : Nat) * 10 ^ x.exact.exponent := by
    rw [value_above, value_below, ← sub_mul]
    congr 1
    push_cast
    ring
  have hbelow : (x.below drop).value ≤ x.value := value_below_le
  have habove : x.value ≤ (x.above drop).value := value_lt_above.le
  rw [prefersAbove_up_iff]
  constructor
  · intro h
    have hhalf : ((10 ^ drop : Nat) : ℚ) ≤ 2 * (x.exact.digits % 10 ^ drop : Nat) := by
      exact_mod_cast h
    exact prefers_above hbelow habove (by nlinarith)
  · intro h
    have hhalf : (2 * (x.exact.digits % 10 ^ drop : Nat) : ℚ) < (10 ^ drop : Nat) := by
      exact_mod_cast Nat.lt_of_not_le h
    exact prefers_below hbelow habove (by nlinarith)

theorem reads_below (h : x.exact.exponent + drop ≤ d.exponent) (hd : d.nearest? = some x)
    (hx : x.units ≠ 0) (hle : d.value ≤ x.value) : (x.below drop).nearest? = some x := by
  apply Decimal.nearest?_between hd (nearest?_exact hx) (le_value_below h hle)
  rw [value_exact]
  exact value_below_le

theorem reads_above (h : x.exact.exponent + drop ≤ d.exponent) (hd : d.nearest? = some x)
    (hx : x.units ≠ 0) (hlt : x.value < d.value) : (x.above drop).nearest? = some x := by
  apply Decimal.nearest?_between (nearest?_exact hx) hd _ (value_above_le h hlt)
  rw [value_exact]
  exact value_lt_above.le

theorem neighbour?_eq (tie : Tie) : x.neighbour? tie drop =
    if (x.above drop).nearest? = some x ∧
        ((x.below drop).nearest? = some x → x.prefersAbove tie drop) then some (x.above drop)
    else if (x.below drop).nearest? = some x then some (x.below drop)
    else none := rfl

/-- A grid has an answer if any decimal on it is read as the magnitude. -/
theorem neighbour?_ne_none_of_reads (h : x.exact.exponent + drop ≤ d.exponent)
    (hd : d.nearest? = some x) (hx : x.units ≠ 0) (tie : Tie) : x.neighbour? tie drop ≠ none := by
  rcases le_or_gt d.value x.value with hle | hlt
  · exact neighbour?_ne_none (reads_below h hd hx hle)
  · have habove := reads_above h hd hx hlt
    rw [neighbour?_eq]
    split_ifs with h1 h2
    · simp
    · simp
    · exact absurd ⟨habove, fun hb => absurd hb h2⟩ h1

/-- The answer of a grid is better than every other decimal on it that is read as the magnitude. -/
theorem prefers_neighbour? (ha : x.neighbour? .up drop = some a)
    (h : x.exact.exponent + drop ≤ d.exponent) (hd : d.nearest? = some x) (hx : x.units ≠ 0) :
    Prefers x.value a.value d.value := by
  have hbest := @prefers_below_or_above x drop
  rw [neighbour?_eq] at ha
  split_ifs at ha with hup hlow
  · obtain rfl := Option.some.inj ha
    rcases le_or_gt d.value x.value with hle | hlt
    · have hprefers := hbest.1 (hup.2 (reads_below h hd hx hle))
      exact hprefers.trans (prefers_of_le (le_value_below h hle) value_below_le)
    · exact prefers_of_ge value_lt_above.le (value_above_le h hlt)
  · obtain rfl := Option.some.inj ha
    rcases le_or_gt d.value x.value with hle | hlt
    · exact prefers_of_le (le_value_below h hle) value_below_le
    · have hnot : ¬x.prefersAbove .up drop := fun hp => hup ⟨reads_above h hd hx hlt, fun _ => hp⟩
      exact (hbest.2 hnot).trans (prefers_of_ge value_lt_above.le (value_above_le h hlt))

/-- The decimal is the answer of the grid that drops `drop` digits, and no coarser grid up to the
one that drops `most` has an answer. -/
structure AnswersOn (x : Magnitude) (tie : Tie) (most drop : Nat) (a : Decimal) : Prop where
  le : drop ≤ most
  answer : x.neighbour? tie drop = some a ∨ (drop = 0 ∧ a = x.exact)
  coarser : ∀ k, drop < k → k ≤ most → x.neighbour? tie k = none

theorem exists_answersOn (tie : Tie) (most : Nat) :
    ∃ drop, x.AnswersOn tie most drop (x.shortestWithin tie most) := by
  fun_induction shortestWithin x tie most with
  | case1 => exact ⟨0, le_rfl, .inr ⟨rfl, rfl⟩, by omega⟩
  | case2 most d h => exact ⟨most + 1, le_rfl, .inl h, by omega⟩
  | case3 most h ih =>
    obtain ⟨drop, hle, hanswer, hcoarser⟩ := ih
    refine ⟨drop, by omega, hanswer, ?_⟩
    intro k hk hmost
    rcases Nat.lt_or_eq_of_le hmost with hlt | rfl
    · exact hcoarser k hk (by omega)
    · exact h

section Answer

variable {most : Nat}

theorem AnswersOn.exponent_le (h : x.AnswersOn tie most drop a) (hx : x.units ≠ 0)
    (hd : d.nearest? = some x) (hlt : drop < most) : d.exponent ≤ x.exact.exponent + drop := by
  by_contra hcoarse
  have hnext := h.coarser (drop + 1) (by omega) hlt
  exact neighbour?_ne_none_of_reads (by push_cast; omega) hd hx tie hnext

theorem AnswersOn.prefers (h : x.AnswersOn .up most drop a) (hx : x.units ≠ 0)
    (hd : d.nearest? = some x) (hexponent : x.exact.exponent + drop ≤ d.exponent) :
    Prefers x.value a.value d.value := by
  rcases h.answer with ha | ⟨rfl, rfl⟩
  · exact prefers_neighbour? ha hexponent hd hx
  · rw [value_exact]
    rcases le_total d.value x.value with hle | hge
    · exact prefers_of_le hle le_rfl
    · exact prefers_of_ge le_rfl hge

theorem pos_exact_digits (hx : x.units ≠ 0) : 0 < x.exact.digits :=
  Nat.pos_of_ne_zero (exact_digits_eq_zero_iff.not.mpr hx)

theorem AnswersOn.digits_le (h : x.AnswersOn tie most drop a) (hdrop : drop < x.exact.size) :
    a.digits ≤ 10 ^ (x.exact.size - drop) ∧ a.exponent = x.exact.exponent + drop := by
  have hpow : 10 ^ (x.exact.size - drop) * 10 ^ drop = 10 ^ x.exact.size := by
    rw [← Nat.pow_add, Nat.sub_add_cancel hdrop.le]
  have hlt : x.exact.digits / 10 ^ drop < 10 ^ (x.exact.size - drop) := by
    rw [Nat.div_lt_iff_lt_mul (Nat.pow_pos (by decide)), hpow]
    exact Decimal.digits_lt
  rcases h.answer with ha | ⟨rfl, rfl⟩
  · refine ⟨?_, exponent_neighbour? ha⟩
    rw [neighbour?_eq] at ha
    split_ifs at ha
    · rw [← Option.some.inj ha]
      exact hlt
    · rw [← Option.some.inj ha]
      exact hlt.le
  · exact ⟨Decimal.digits_lt.le, by simp⟩

/-- The answer of a grid has no more digits than the grid keeps. -/
theorem AnswersOn.size_trim_le (h : x.AnswersOn tie most drop a) (hdrop : drop < x.exact.size)
    (ha : a.digits ≠ 0) : a.trim.size ≤ x.exact.size - drop := by
  obtain ⟨hdigits, hexponent⟩ := h.digits_le hdrop
  rcases Nat.lt_or_eq_of_le hdigits with hlt | heq
  · have hsize : a.size ≤ x.exact.size - drop :=
      (Nat.length_toDigits_le_iff (by decide) (by omega)).mpr hlt
    exact (Decimal.size_trim_le ha rfl).trans hsize
  · -- All digits carried over, and a power of ten is left.
    have hvalue : a.value = (Decimal.powerOfTen x.exact.point).value := by
      have hpoint : x.exact.point = (x.exact.size - drop : Nat) + a.exponent := by
        rw [hexponent, Decimal.point]
        omega
      rw [Decimal.value_powerOfTen, hpoint, zpow_add₀ (by norm_num), zpow_natCast, Decimal.value]
      rw [heq]
      push_cast
      ring
    have hsize := Decimal.size_trim_le ha hvalue
    rw [Decimal.size_powerOfTen] at hsize
    omega

end Answer

section Best

variable (hx : x.units ≠ 0) (hd : d.nearest? = some x)

include hx hd

/-- Below the digits of the magnitude stands its power of ten, and a decimal that is read from
farther below makes that read too. -/
theorem reads_power_below (h : d.point < x.exact.point) :
    (Decimal.powerOfTen (x.exact.point - 1)).nearest? = some x := by
  apply Decimal.nearest?_between hd (nearest?_exact hx)
  · rw [Decimal.value_powerOfTen]
    exact (Decimal.value_lt_pow (Int.le_sub_one_of_lt h)).le
  · rw [Decimal.value_powerOfTen]
    exact Decimal.pow_point_le_value (pos_exact_digits hx).ne'

theorem reads_power_above (h : x.exact.point < d.point) :
    (Decimal.powerOfTen x.exact.point).nearest? = some x := by
  apply Decimal.nearest?_between (nearest?_exact hx) hd
  · rw [Decimal.value_powerOfTen]
    exact Decimal.value_lt_pow_point.le
  · rw [Decimal.value_powerOfTen]
    exact Decimal.pow_le_value (Decimal.digits_ne_zero_of_nearest? hx hd) h

/-- Unless the coarsest grid has an answer, all decimals that are read have the same point. -/
theorem point_eq_of_reads (hlast : x.neighbour? tie (x.exact.size - 1) = none) :
    d.point = x.exact.point := by
  have hpoint : x.exact.point - 1 = x.exact.exponent + (x.exact.size - 1 : Nat) := by
    have := @Decimal.size_pos x.exact
    rw [Decimal.point]
    omega
  apply le_antisymm
  · by_contra hgt
    have hreads := reads_power_above hx hd (Int.lt_of_not_ge hgt)
    have hgrid : x.exact.exponent + (x.exact.size - 1 : Nat) ≤
        (Decimal.powerOfTen x.exact.point).exponent := by
      rw [← hpoint, Decimal.exponent_powerOfTen]
      omega
    exact neighbour?_ne_none_of_reads hgrid hreads hx tie hlast
  · by_contra hlt
    have hreads := reads_power_below hx hd (Int.lt_of_not_ge hlt)
    exact neighbour?_ne_none_of_reads hpoint.ge hreads hx tie hlast

/-- Every decimal that is read as the magnitude has more digits than the shortest one, or as many
and is no better. -/
theorem size_shortest_le_and_prefers :
    (x.shortest .up).size ≤ d.size ∧
      (d.size = (x.shortest .up).size → Prefers x.value (x.shortest .up).value d.value) := by
  obtain ⟨drop, h⟩ := x.exists_answersOn .up (x.exact.size - 1)
  have hread := nearest?_shortestWithin hx .up (x.exact.size - 1)
  rw [shortest, Decimal.value_trim]
  generalize x.shortestWithin .up (x.exact.size - 1) = a at *
  have hsize := @Decimal.size_pos x.exact
  have hle := h.le
  have hdrop : drop < x.exact.size := by omega
  have htrim := h.size_trim_le hdrop (Decimal.digits_ne_zero_of_nearest? hx hread)
  have hpointx : x.exact.point = x.exact.size + x.exact.exponent := rfl
  have hpointd : d.point = d.size + d.exponent := rfl
  rcases Nat.lt_or_eq_of_le hle with hlt | heq
  · have hpoint := point_eq_of_reads hx hd (h.coarser _ hlt le_rfl)
    have hexponent := h.exponent_le hx hd hlt
    refine ⟨by omega, ?_⟩
    intro hsame
    exact h.prefers hx hd (by omega)
  · have hone := @Decimal.size_pos d
    refine ⟨by omega, ?_⟩
    intro hsame
    by_cases hgrid : x.exact.exponent + drop ≤ d.exponent
    · exact h.prefers hx hd hgrid
    · -- One digit on a finer grid stands below the power of ten in the magnitude.
      have hbelow : d.point < x.exact.point := by omega
      have hreads := reads_power_below hx hd hbelow
      have hbest : Prefers x.value a.value (Decimal.powerOfTen (x.exact.point - 1)).value := by
        apply h.prefers hx hreads
        rw [Decimal.exponent_powerOfTen]
        omega
      apply hbest.trans
      rw [Decimal.value_powerOfTen]
      apply prefers_of_le (Decimal.value_lt_pow (Int.le_sub_one_of_lt hbelow)).le
      rw [← value_exact]
      exact Decimal.pow_point_le_value (pos_exact_digits hx).ne'

end Best

end Magnitude

/-- The decimal has the fewest digits of all that are rounded to the magnitude, and no other with so
many digits is nearer to it. -/
structure Decimal.Abbreviates (d : Decimal) (x : Magnitude) : Prop where
  noZero : d.digits % 10 ≠ 0
  rounds : d.RoundsTo x
  fewest : ∀ e : Decimal, e.RoundsTo x → d.size ≤ e.size
  nearest : ∀ e : Decimal, e.RoundsTo x → e.size = d.size →
    |d.value - x.value| ≤ |e.value - x.value|

namespace Magnitude

variable {x : Magnitude}

theorem abbreviates_shortest (hx : x.units ≠ 0) : (x.shortest .up).Abbreviates x := by
  have hread := nearest?_shortestWithin hx .up (x.exact.size - 1)
  refine ⟨?_, Decimal.roundsTo_of_nearest? (nearest?_shortest hx .up), ?_, ?_⟩
  · exact Decimal.digits_trim_mod (Decimal.digits_ne_zero_of_nearest? hx hread)
  · intro e he
    exact (size_shortest_le_and_prefers hx (Decimal.nearest?_eq_some_iff.mpr he)).1
  · intro e he hsize
    rcases (size_shortest_le_and_prefers hx (Decimal.nearest?_eq_some_iff.mpr he)).2 hsize with
      hlt | ⟨heq, _⟩
    · exact hlt.le
    · exact heq.le

/-- There is one abbreviation of a magnitude, or there are two at the same distance, of which the
upper one is taken. -/
theorem eq_shortest_of_abbreviates (hx : x.units ≠ 0) {e : Decimal} (he : e.Abbreviates x) :
    e = x.shortest .up ∨
      e.value < x.value ∧ x.value - e.value = (x.shortest .up).value - x.value := by
  have hbest := abbreviates_shortest hx
  have hread := Decimal.nearest?_eq_some_iff.mpr he.rounds
  have hsize := le_antisymm (he.fewest _ hbest.rounds) (hbest.fewest _ he.rounds)
  have htie := le_antisymm (he.nearest _ hbest.rounds hsize.symm)
    (hbest.nearest _ he.rounds hsize)
  rcases (size_shortest_le_and_prefers hx hread).2 hsize with hlt | ⟨_, hle⟩
  · exact absurd htie hlt.ne'
  · rcases hle.eq_or_lt with heq | hlt
    · exact .inl (Decimal.eq_of_value_eq he.noZero hbest.noZero heq)
    · right
      have hbelow := two_mul_le_of_nearer hlt htie.le
      have habove := le_two_mul_of_nearer hlt htie.ge
      constructor
      · linarith
      · linarith

end Magnitude

end DocPath
