import TurtleCompiler.Decimal.Binary

/-!
The shortest decimal that reads back as a given float: of all decimals that round to the float, one
on the coarsest grid, and of two on that grid the nearer.
-/

namespace TurtleCompiler

structure Decimal where
  digits : Nat
  exponent : Int
  deriving DecidableEq

namespace Decimal

/-- Whether `n * 10 ^ k` rounds to `m * 2 ^ q`. Distances count in quarters of the unit `2 ^ q`,
since the lower neighbour of a power of two is only half as far; the ends of the interval belong to
it for even `m`. -/
def rounds (m : Nat) (q k : Int) (n : Nat) : Bool :=
  let scale := pow2 (q - 2).toNat * pow10 (-k).toNat
  let point := n * (pow10 k.toNat * pow2 (2 - q).toNat)
  let low := (4 * m - if m = pow2 52 ∧ -1074 < q then 1 else 2) * scale
  let high := (4 * m + 2) * scale
  if m % 2 = 0 then low ≤ point && point ≤ high else low < point && point < high

/-- The point on the grid of step `10 ^ k` that is written for `m * 2 ^ q`, if one of the two
neighbours on that grid rounds to it. A tie goes up. -/
def onGrid? (m : Nat) (q k : Int) : Option Nat :=
  let step := pow10 k.toNat * pow2 (2 - q).toNat
  let value := 4 * m * (pow2 (q - 2).toNat * pow10 (-k).toNat)
  let below := value / step
  match rounds m q k below, rounds m q k (below + 1) with
  | true, true =>
    if value - below * step < (below + 1) * step - value then some below else some (below + 1)
  | true, false => some below
  | false, true => some (below + 1)
  | false, false => none

/-- Tries the grids from the step `10 ^ k` down. If there is nothing on them, the number is written
in full. -/
def onCoarsestGrid (m : Nat) (q : Int) : Nat → Int → Decimal
  | 0, _ => ⟨m * (pow2 q.toNat * Nat.pow 5 (-q).toNat), min q 0⟩
  | tries + 1, k =>
    match onGrid? m q k with
    | some digits => ⟨digits, k⟩
    | none => onCoarsestGrid m q tries (k - 1)

/-- The shortest decimal for `m * 2 ^ q`. The first step is above the value, and seventeen digits
always do. -/
def shortest (m : Nat) (q : Int) : Decimal :=
  if m = 0 then ⟨0, 0⟩
  else onCoarsestGrid m q 20 ((q + m.log2 + 1) * 30103 / 100000 + 1)

def positional (d : Decimal) : String :=
  let digits := Nat.toDigits 10 d.digits
  let places := (-d.exponent).toNat
  if 0 ≤ d.exponent then
    String.ofList (digits ++ List.replicate d.exponent.toNat '0')
  else
    let padded := List.replicate (places + 1 - digits.length) '0' ++ digits
    String.ofList
    (padded.take (padded.length - places) ++ '.' :: padded.drop (padded.length - places))

end Decimal

end TurtleCompiler
