/-!
The exact value of a float, read from its bits, and the float of an exact value. Everything between
the two is arithmetic on naturals.
-/

namespace TurtleCompiler

def pow2 (n : Nat) : Nat := Nat.pow 2 n

def pow10 (n : Nat) : Nat := Nat.pow 10 n

inductive Binary where
  | nan
  | infinite (negative : Bool)
  | finite (negative : Bool) (m : Nat) (q : Int)
  deriving DecidableEq

namespace Binary

def ofFloat (x : Float) : Binary :=
  let bits := x.toBits.toNat
  let negative := bits / pow2 63 == 1
  let exponent : Nat := bits / pow2 52 % pow2 11
  let fraction := bits % pow2 52
  if exponent = 2047 then
    if fraction = 0 then .infinite negative else .nan
  else if exponent = 0 then .finite negative fraction (-1074)
  else .finite negative (fraction + pow2 52) ((exponent : Int) - 1075)

def toFloat (negative : Bool) (m : Nat) (q : Int) : Float :=
  let exponent := max (q + m.log2 - 52) (-1074)
  let m := if q ≤ exponent then m >>> (exponent - q).toNat else m <<< (q - exponent).toNat
  let magnitude := if m < pow2 52 then m else (exponent + 1075).toNat * pow2 52 + (m - pow2 52)
  Float.ofBits (UInt64.ofNat (if negative then pow2 63 + magnitude else magnitude))

def wholePart? (m : Nat) (q : Int) : Option Nat :=
  if 0 ≤ q then some (m * pow2 q.toNat)
  else if m % pow2 (-q).toNat = 0 then some (m / pow2 (-q).toNat)
  else none

end Binary

def truncatedRemainder (x y : Float) : Float :=
  match Binary.ofFloat x, Binary.ofFloat y with
  | .finite negative m q, .finite _ n r =>
    if n = 0 then 0.0 / 0.0
    else
      let unit := min q r
      Binary.toFloat negative (m * pow2 (q - unit).toNat % (n * pow2 (r - unit).toNat)) unit
  | .finite .., .infinite _ => x
  | _, _ => 0.0 / 0.0

end TurtleCompiler
