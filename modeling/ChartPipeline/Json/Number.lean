import ChartPipeline.Decimal.Shortest

/-!
# JSON numbers

A number is an integer as long as its text is one and fits 64 bits, and a double otherwise; the
two kinds stay apart and print differently.
-/

namespace ChartPipeline.Json

inductive Number where
  | integer (n : Int)
  | float (x : Float)
deriving DecidableEq

/-- Equal kind and equal value; the two zeros of a double are equal. -/
def Number.same : Number → Number → Bool
  | .integer a, .integer b => a == b
  | .float a, .float b => a == b
  | _, _ => false

def Number.toFloat : Number → Float
  | .integer n => Float.ofInt n
  | .float x => x

/-- A double in JSON: positional from `0.00001` up to sixteen digits before the point and always
with a point, else one digit before the point and a signed exponent. -/
def floatText (x : Float) : String :=
  let s := Decimal.shortest .even x
  let digits := Nat.toDigits 10 s.coefficient
  let point : Int := digits.length + s.exponent
  let body :=
    if s.coefficient = 0 then "0.0"
    else if -5 < point ∧ point ≤ 16 then
      s.positional ++ (if 0 ≤ s.exponent then ".0" else "")
    else
      let exponent := point - 1
      String.ofList (digits.take 1) ++
        (if digits.length = 1 then "" else "." ++ String.ofList (digits.drop 1)) ++
        (if 0 ≤ exponent then "e+" else "e-") ++ Nat.repr exponent.natAbs
  if Decimal.isNegative x then "-" ++ body else body

def Number.text : Number → String
  | .integer n => if n < 0 then "-" ++ Nat.repr n.natAbs else Nat.repr n.natAbs
  | .float x => floatText x

end ChartPipeline.Json
