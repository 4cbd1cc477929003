import DocPath.Number.Basic

/-!
Numbers as object keys. A number is written with the fewest digits and without a needless point, so
that `1` and `1.0` are one key; powers of ten are written from `10^21` on and below `10^-6`.
-/

namespace DocPath

namespace Magnitude

/-- The magnitude nearest to `10^-6`. -/
def millionth : Magnitude :=
  ⟨4722366482869645, 1002, by decide, by decide, Or.inl (by decide)⟩

theorem nearest?_millionth : Decimal.nearest? ⟨1, -6⟩ = some millionth := by decide +kernel

def needsPower (x : Magnitude) : Bool :=
  Nat.pow 10 21 * one ≤ x.units || x.units < millionth.units

end Magnitude

/-- The key of a double-precision number. Both zeros have the key `0`. -/
def Binary64.keyText (x : Binary64) : String :=
  if x.isZero then "0"
  else
    let d := x.magnitude.shortest .up
    x.sign ++ if x.magnitude.needsPower then d.scientific else d.positional

def Number.keyText : Number → String
  | .int n _ _ => toString n
  | .double x => x.keyText

end DocPath
