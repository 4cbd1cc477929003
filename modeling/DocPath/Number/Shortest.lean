import DocPath.Number.Decimal

/-!
The shortest decimal that reads back as a given magnitude, and of the shortest ones the nearest.
Dropping digits from the exact decimal leaves two neighbours on a coarser grid; the coarsest grid on
which one of them reads back gives the answer.
-/

namespace DocPath

/-- Which of two neighbours at equal distance is taken. -/
inductive Tie where
  | up
  | even
deriving DecidableEq, Repr

/-- Whether the upper neighbour is taken, where the lower one has the digits `low`. -/
def Tie.takesUpper : Tie → Nat → Bool
  | up, _ => true
  | even, low => low % 2 == 1

namespace Magnitude

/-- The decimal that is exactly the magnitude. -/
def exact (x : Magnitude) : Decimal :=
  if 1074 ≤ x.scale then ⟨x.mantissa <<< (x.scale - 1074), 0⟩
  else ⟨x.mantissa * Nat.pow 5 (1074 - x.scale), x.scale - 1074⟩

/-- The neighbour below on the grid that drops `drop` digits, or the magnitude itself. -/
def below (x : Magnitude) (drop : Nat) : Decimal :=
  ⟨x.exact.digits / Nat.pow 10 drop, x.exact.exponent + drop⟩

/-- The neighbour above on the grid that drops `drop` digits. -/
def above (x : Magnitude) (drop : Nat) : Decimal :=
  ⟨x.exact.digits / Nat.pow 10 drop + 1, x.exact.exponent + drop⟩

/-- Whether the neighbour above is the better one on the grid that drops `drop` digits. -/
def prefersAbove (x : Magnitude) (tie : Tie) (drop : Nat) : Bool :=
  let past := 2 * (x.exact.digits % Nat.pow 10 drop)
  if past = Nat.pow 10 drop then tie.takesUpper (x.below drop).digits else Nat.pow 10 drop < past

/-- The better of the neighbours that read back, on the grid that drops `drop` digits. -/
def neighbour? (x : Magnitude) (tie : Tie) (drop : Nat) : Option Decimal :=
  let low := (x.below drop).nearest? = some x
  let high := (x.above drop).nearest? = some x
  if high ∧ (low → x.prefersAbove tie drop) then some (x.above drop)
  else if low then some (x.below drop)
  else none

/-- The answer of the coarsest grid among those that drop at most `drop` digits. -/
def shortestWithin (x : Magnitude) (tie : Tie) : Nat → Decimal
  | 0 => x.exact
  | drop + 1 =>
    match x.neighbour? tie (drop + 1) with
    | some d => d
    | none => x.shortestWithin tie drop

/-- The shortest decimal that reads back as the magnitude, the nearest one of that length. -/
def shortest (x : Magnitude) (tie : Tie) : Decimal :=
  (x.shortestWithin tie (x.exact.size - 1)).trim

end Magnitude

end DocPath
