import TurtleCompiler.Decimal.Shortest

/-!
Readers for the numerals of the language: indices, 64-bit integers and decimal fractions. Each
accepts one leading sign where its type has one, and no blanks.
-/

namespace TurtleCompiler

def toInt64? (v : Int) : Option Int64 :=
  if Int64.minValue.toInt ≤ v ∧ v ≤ Int64.maxValue.toInt then some (Int64.ofInt v) else none

namespace Numeral

def value (digits : List Char) : Nat :=
  digits.foldl (fun n c => 10 * n + (c.toNat - '0'.toNat)) 0

def natural? (cs : List Char) : Option Nat :=
  if cs.isEmpty || !cs.all Char.isDigit then none else some (value cs)

def sign : List Char → Bool × List Char
  | '-' :: cs => (true, cs)
  | '+' :: cs => (false, cs)
  | cs => (false, cs)

def index? : List Char → Option Nat
  | '+' :: cs => (natural? cs).filter (· < UInt64.size)
  | cs => (natural? cs).filter (· < UInt64.size)

def int64? (cs : List Char) : Option Int64 := do
  let (negative, digits) := sign cs
  let n ← natural? digits
  toInt64? (if negative then -n else n)

/-- The float nearest to a decimal. Beyond the range of floats nothing but infinity or zero is near,
and the powers of ten are not computed. -/
def nearest (d : Decimal) : Float :=
  let top := (Nat.toDigits 10 d.digits).length + d.exponent
  if d.digits = 0 || top < -330 then 0.0
  else if 320 < top then 1.0 / 0.0
  else if d.exponent < 0 then Float.ofScientific d.digits true (-d.exponent).toNat
  else Float.ofScientific d.digits false d.exponent.toNat

def exponent? : List Char → Option Int
  | [] => some 0
  | c :: cs => do
    guard (c = 'e' || c = 'E')
    let (negative, digits) := sign cs
    let n ← natural? digits
    return if negative then -n else n

def decimal? (cs : List Char) : Option Decimal := do
  let whole := cs.takeWhile Char.isDigit
  let (fraction, rest) :=
    match cs.dropWhile Char.isDigit with
    | '.' :: cs => (cs.takeWhile Char.isDigit, cs.dropWhile Char.isDigit)
    | cs => ([], cs)
  guard (!(whole ++ fraction).isEmpty)
  return ⟨value (whole ++ fraction), (← exponent? rest) - fraction.length⟩

def float? (cs : List Char) : Option Float := do
  let (negative, cs) := sign cs
  let magnitude ←
    match decimal? cs with
    | some d => some (nearest d)
    | none =>
      let word := String.ofList (cs.map Char.toLower)
      if word = "inf" || word = "infinity" then some (1.0 / 0.0)
      else if word = "nan" then some (0.0 / 0.0)
      else none
  return if negative then -magnitude else magnitude

end Numeral

end TurtleCompiler
