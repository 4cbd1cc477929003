import DocPath.Number.Decimal

/-!
The two ways of writing a decimal: with the point in its place, and with a power of ten.
-/

namespace DocPath.Decimal

/-- Zeros and a point put the digits in their place; a whole number has no point. -/
def positional (d : Decimal) : String :=
  let ds := d.chars
  String.ofList <|
    if 0 ≤ d.exponent then ds ++ List.replicate d.exponent.toNat '0'
    else if 0 < d.point then ds.take d.point.toNat ++ '.' :: ds.drop d.point.toNat
    else '0' :: '.' :: List.replicate (-d.point).toNat '0' ++ ds

def order (d : Decimal) : Int := d.point - 1

def powerText (n : Int) : String := (if n < 0 then "e-" else "e+") ++ toString n.natAbs

/-- One digit before the point, the rest after it, and the power of ten. -/
def scientific (d : Decimal) : String :=
  match d.chars with
  | c :: r :: rest => String.ofList (c :: '.' :: r :: rest) ++ powerText d.order
  | ds => String.ofList ds ++ powerText d.order

end DocPath.Decimal
