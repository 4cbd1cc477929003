import DocPath.Number.Basic

/-!
Positions in an array: what texts and what numbers denote one. A position is a 64-bit word, and a
text or number that needs more denotes none.
-/

namespace DocPath

/-- The place of an item in its array, counted from zero. -/
abbrev Position := UInt64

namespace Position

/-- A position with one more decimal digit, if it still is a 64-bit word. -/
def append? (p : Position) (digit : Char) : Option Position :=
  let n := p.toNat * 10 + (digit.toNat - '0'.toNat)
  if n < UInt64.size then some (UInt64.ofNat n) else none

/-- Digits alone, and no zero in front of others. -/
def isCanonical : List Char → Bool
  | [] => false
  | [c] => c.isDigit
  | c :: cs => c != '0' && (c :: cs).all Char.isDigit

/-- The position that a canonical decimal text denotes. -/
def ofText? (text : String) : Option Position :=
  if isCanonical text.toList then text.toList.foldlM append? 0 else none

end Position

/-- The position that is exactly the number. The greatest position also stands for `2^64`, the
double next to it, which no array reaches. -/
def Binary64.position? (x : Binary64) : Option Position :=
  let units := x.magnitude.units
  let one := Magnitude.one
  if (x.negative → x.isZero) ∧ units % one = 0 ∧ units ≤ UInt64.size * one then
    some (UInt64.ofNat (min (units / one) (UInt64.size - 1)))
  else none

def Number.position? : Number → Option Position
  | .int n _ _ => if 0 ≤ n then some (UInt64.ofNat n.toNat) else none
  | .double x => x.position?

end DocPath
