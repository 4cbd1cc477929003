import DocPath.Number.Magnitude

/-!
Decimal numbers `digits * 10^exponent`, and the double-precision magnitude nearest to one.
-/

namespace DocPath

structure Decimal where
  digits : Nat
  exponent : Int
deriving DecidableEq, Repr

namespace Decimal

/-- The digits as characters, the first one not zero unless the number is. -/
def chars (d : Decimal) : List Char := Nat.toDigits 10 d.digits

def size (d : Decimal) : Nat := d.chars.length

/-- Where the point stands: the number is `0.d₁d₂… * 10^point`. -/
def point (d : Decimal) : Int := d.size + d.exponent

/-- The number is `num / den`, where `den` is a power of ten. -/
def num (d : Decimal) : Nat := d.digits * Nat.pow 10 d.exponent.toNat

def den (d : Decimal) : Nat := Nat.pow 10 (-d.exponent).toNat

/-- The same number with no zero at the end of its digits. -/
def trim (d : Decimal) : Decimal :=
  if d.digits = 0 then ⟨0, 0⟩
  else if d.digits % 10 = 0 then trim ⟨d.digits / 10, d.exponent + 1⟩
  else d
termination_by d.digits
decreasing_by omega

/-- The double-precision magnitude nearest to the number; nothing if the number is too great. The
bounds on the point only spare the work on numbers that are far out of range. -/
def nearest? (d : Decimal) : Option Magnitude :=
  if d.digits = 0 ∨ d.point < -323 then some .zero
  else if 309 < d.point then none
  else Magnitude.ofUnits? (d.num * Magnitude.one) d.den

end Decimal

end DocPath
