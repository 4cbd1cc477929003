import DocPath.Number.Shortest
import DocPath.Number.Layout
import DocPath.Number.Scaling

/-!
Numbers in a document. Whole numbers of 64 bits, signed or unsigned, are kept exactly; all other
numbers are double-precision.
-/

namespace DocPath

inductive Number where
  | int (n : Int) (lower : Int64.minValue.toInt ≤ n) (upper : n < UInt64.size)
  | double (x : Binary64)
deriving DecidableEq

namespace Binary64

/-- The text of a number in a document: the shortest digits, with a point or a power of ten. Powers
of ten are written below `10^-5` and from `10^16` on. -/
def text (x : Binary64) : String :=
  let d := x.magnitude.shortest .even
  x.sign ++
    if x.isZero then "0.0"
    else if d.order < -5 ∨ 15 < d.order then d.scientific
    else if 0 ≤ d.exponent then d.positional ++ ".0"
    else d.positional

end Binary64

namespace Number

def text : Number → String
  | int n _ _ => toString n
  | double x => x.text

/-- A number without fraction and power of ten, if it is kept exactly: it has 64 bits, and it is
not minus zero. -/
def ofInt? (negative : Bool) (n : Nat) : Option Number :=
  let i : Int := if negative then -n else n
  if h : Int64.minValue.toInt ≤ i ∧ i < UInt64.size ∧ ¬(negative ∧ n = 0) then
    some (int i h.1 h.2.1)
  else none

/-- The double that is made of a whole number and a power of ten. -/
def ofParts? (negative : Bool) (significand : Nat) (exponent : Int) : Option Number :=
  ((Magnitude.ofNat? significand).bind (·.scale? exponent)).map fun m => double ⟨negative, m⟩

end Number

end DocPath
