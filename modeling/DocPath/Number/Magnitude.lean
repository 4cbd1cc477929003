/-!
Double-precision numbers as exact values. A finite magnitude is a whole number of units of
`2^-1074`, so magnitudes are compared and rounded in natural numbers.
-/

namespace DocPath

/-- The magnitude `mantissa * 2^scale * 2^-1074`, with the mantissa in full width unless the scale
is the least one. -/
structure Magnitude where
  mantissa : Nat
  scale : Nat
  mantissa_lt : mantissa < 1 <<< 53
  scale_le : scale ≤ 2045
  normal : 1 <<< 52 ≤ mantissa ∨ scale = 0
deriving DecidableEq

/-- The nearest whole number to `num / den`; a half goes to the even neighbour. -/
def roundDiv (num den : Nat) : Nat :=
  let q := num / den
  let r := num % den
  if 2 * r < den then q
  else if den < 2 * r then q + 1
  else q + q % 2

theorem div_le_roundDiv (num den : Nat) : num / den ≤ roundDiv num den := by
  dsimp only [roundDiv]
  split
  · exact Nat.le_refl _
  · split <;> omega

theorem roundDiv_le_div_add_one (num den : Nat) : roundDiv num den ≤ num / den + 1 := by
  dsimp only [roundDiv]
  split
  · omega
  · split <;> omega

namespace Magnitude

/-- The magnitude in units of `2^-1074`. -/
def units (x : Magnitude) : Nat := x.mantissa <<< x.scale

def one : Nat := 1 <<< 1074

theorem one_pos : 0 < one := by decide

def zero : Magnitude := ⟨0, 0, by decide, by decide, Or.inr rfl⟩

/-- The scale at which a number with the whole part `n`, in units, keeps 53 binary digits. -/
def scaleFor (n : Nat) : Nat := n.log2 - 52

theorem lt_scaleFor (n : Nat) : n < (1 <<< 53) <<< scaleFor n := by
  have hlog : n.log2 + 1 ≤ 53 + scaleFor n := by
    unfold scaleFor
    omega
  rw [← Nat.shiftLeft_add, Nat.one_shiftLeft]
  exact Nat.lt_of_lt_of_le Nat.lt_log2_self (Nat.pow_le_pow_right (by decide) hlog)

theorem scaleFor_le {n : Nat} (h : scaleFor n ≠ 0) : (1 <<< 52) <<< scaleFor n ≤ n := by
  have hn : n ≠ 0 := by
    rintro rfl
    simp [scaleFor] at h
  have hlog : 52 + scaleFor n = n.log2 := by
    unfold scaleFor at h ⊢
    omega
  rw [← Nat.shiftLeft_add, Nat.one_shiftLeft, hlog]
  exact Nat.log2_self_le hn

/-- The mantissa to which `num / den` units are rounded. -/
def mantissaFor (num den : Nat) : Nat := roundDiv num (den <<< scaleFor (num / den))

theorem mantissaFor_le (num den : Nat) : mantissaFor num den ≤ 1 <<< 53 := by
  have hlt := lt_scaleFor (num / den)
  rw [Nat.shiftLeft_eq _ (scaleFor _)] at hlt
  have hdiv := Nat.div_lt_of_lt_mul (Nat.mul_comm _ _ ▸ hlt)
  rw [Nat.div_div_eq_div_mul, ← Nat.shiftLeft_eq] at hdiv
  have hround := roundDiv_le_div_add_one num (den <<< scaleFor (num / den))
  unfold mantissaFor
  omega

theorem le_mantissaFor {num den : Nat} (h : scaleFor (num / den) ≠ 0) :
    1 <<< 52 ≤ mantissaFor num den := by
  have hle := scaleFor_le h
  rw [Nat.shiftLeft_eq _ (scaleFor _)] at hle
  have hdiv := (Nat.le_div_iff_mul_le (Nat.two_pow_pos _)).mpr hle
  rw [Nat.div_div_eq_div_mul, ← Nat.shiftLeft_eq] at hdiv
  exact Nat.le_trans hdiv (div_le_roundDiv _ _)

/-- The magnitude nearest to `num / den` units, a half going to the even mantissa; nothing if that
is past the greatest one. -/
def ofUnits? (num den : Nat) : Option Magnitude :=
  let scale := scaleFor (num / den)
  if hm : mantissaFor num den < 1 <<< 53 then
    if hs : scale ≤ 2045 then
      have normal := (Decidable.em (scale = 0)).symm.imp_left le_mantissaFor
      some ⟨mantissaFor num den, scale, hm, hs, normal⟩
    else none
  else
    if hs : scale + 1 ≤ 2045 then
      some ⟨1 <<< 52, scale + 1, by decide, hs, Or.inl (Nat.le_refl _)⟩
    else none

end Magnitude

/-- A finite double-precision number. Zero has a sign. -/
structure Binary64 where
  negative : Bool
  magnitude : Magnitude
deriving DecidableEq

namespace Binary64

def isZero (x : Binary64) : Bool := x.magnitude.units == 0

def sign (x : Binary64) : String := if x.negative then "-" else ""

end Binary64

end DocPath
