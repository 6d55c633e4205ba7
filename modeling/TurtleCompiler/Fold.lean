import TurtleCompiler.Operator
import TurtleCompiler.Error

/-!
Arithmetic on constants. Integers are exact or fail; division always gives a float; a remainder has
the sign of its divisor.
-/

namespace TurtleCompiler

def overflow (line : Nat) : Error := .type line .overflow

def divisionByZero (line : Nat) : Error := .type line .divisionByZero

def checked (line : Nat) (v : Int) : Except Error Value :=
  match toInt64? v with
  | some v => .ok (.int v)
  | none => .error (overflow line)

/-- A power with a natural exponent below `2 ^ 32`. Of a base beyond one in magnitude the
sixty-fourth power is too large; of any other, only whether the exponent is zero, odd or even
matters. -/
def foldPower (line : Nat) (l : Int) (e : Nat) : Except Error Value :=
  if UInt32.size ≤ e then .error (overflow line)
  else if 2 ≤ l.natAbs then if 64 ≤ e then .error (overflow line) else
  checked line (Int.pow l e) else checked line (Int.pow l (if e ≤ 2 then e else 2 - e % 2))

def intRemainder (l r : Int) : Int :=
  let m := l.tmod r
  if m ≠ 0 ∧ ¬ (m < 0 ↔ r < 0) then m + r else m

def foldInt (line : Nat) (l r : Int) : ArithOp → Except Error Value
  | .add => checked line (l + r)
  | .sub => checked line (l - r)
  | .mul => checked line (l * r)
  | .div =>
    if r = 0 then .error (divisionByZero line) else .ok (.float (Float.ofInt l / Float.ofInt r))
  | .mod =>
    if r = 0 then .error (divisionByZero line)
    else if l = Int64.minValue.toInt ∧ r = -1 then .error (overflow line)
    else checked line (intRemainder l r)
  | .pow =>
    if r < 0 then .ok (.float (Float.pow (Float.ofInt l) (Float.ofInt r))) else
    foldPower line l r.toNat

def flooredRemainder (l r : Float) : Float :=
  let m := truncatedRemainder l r
  if m != 0.0 && (m < 0.0) != (r < 0.0) then m + r else m

def finite (line : Nat) (v : Float) : Except Error Value :=
  if v.isFinite then .ok (.float v) else .error (.type line .notFinite)

def foldFloat (line : Nat) (l r : Float) : ArithOp → Except Error Value
  | .add => finite line (l + r)
  | .sub => finite line (l - r)
  | .mul => finite line (l * r)
  | .div => if r == 0.0 then .error (divisionByZero line) else finite line (l / r)
  | .mod => if r == 0.0 then .error (divisionByZero line) else finite line (flooredRemainder l r)
  | .pow => finite line (Float.pow l r)

def fold (line : Nat) (op : ArithOp) : Value → Value → Except Error Value
  | .int l, .int r => foldInt line l.toInt r.toInt op
  | l, r =>
    match l.toFloat?, r.toFloat? with
    | some x, some y => foldFloat line x y op
    | _, _ => .error (.defect (.unfoldable l.dataType r.dataType))

end TurtleCompiler
