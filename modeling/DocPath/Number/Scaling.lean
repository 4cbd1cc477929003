import DocPath.Number.Decimal

/-!
Whole numbers times powers of ten in double precision. The whole number, the power and their product
or quotient are rounded one after the other, so that the result is near the decimal but need not be
the nearest magnitude.
-/

namespace DocPath.Magnitude

def ofNat? (n : Nat) : Option Magnitude := ofUnits? (n * one) 1

/-- The product, rounded; nothing if it is past the greatest magnitude. -/
def times? (x y : Magnitude) : Option Magnitude := ofUnits? (x.units * y.units) one

/-- The quotient, rounded. -/
def over? (x y : Magnitude) : Option Magnitude := ofUnits? (x.units * one) y.units

/-- The powers of ten that have a magnitude near them: those up to `10^308`. -/
def powerOfTen? (n : Nat) : Option Magnitude := Decimal.nearest? ⟨1, n⟩

/-- The magnitude times a power of ten. A power that is too great to divide by is divided by in
parts, each of them rounded, until nothing is left of the magnitude. -/
def scale? (x : Magnitude) (exponent : Int) : Option Magnitude :=
  match powerOfTen? exponent.natAbs with
  | some power => if 0 ≤ exponent then x.times? power else x.over? power
  | none =>
    if x.units = 0 then some x
    else if 0 ≤ exponent then none
    else do
      let greatest ← powerOfTen? 308
      let y ← x.over? greatest
      y.scale? (exponent + 308)
termination_by (-exponent).toNat

end DocPath.Magnitude
