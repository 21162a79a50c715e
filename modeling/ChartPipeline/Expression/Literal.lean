import ChartPipeline.Decimal.Shortest
import ChartPipeline.Text.Quoted

/-!
# Literals in expressions

References to fields, numbers and lists as the expression language writes them.
-/

namespace ChartPipeline.Expression

def fieldRef (field : String) : String := "datum[" ++ Text.quote field ++ "]"

def intText (n : Int) : String :=
  if n < 0 then "-" ++ Nat.repr n.natAbs else Nat.repr n.natAbs

/-- A number without exponent, with as few digits as read back to it; zero has no sign. -/
def numberText (x : Float) : String :=
  if x.isNaN then "NaN"
  else
    let body := if x.isInf then "inf" else (Decimal.shortest .up x).positional
    if Decimal.isNegative x && x != 0.0 then "-" ++ body else body

end ChartPipeline.Expression
