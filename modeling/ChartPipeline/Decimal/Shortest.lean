/-!
# The shortest decimal of a double

A finite double stands for every real number that rounds to it. Of the decimals in that interval
the one on the coarsest power-of-ten grid is chosen, which is the one with the fewest digits; on
that grid the point nearest to the double. All arithmetic is on natural numbers.
-/

namespace ChartPipeline.Decimal

/-- The number `coefficient * 10 ^ exponent`. -/
structure Scientific where
  coefficient : Nat
  exponent : Int
deriving DecidableEq, Repr

/-- Which of two equally near candidates is taken. -/
inductive Tie where
  | even
  | up
deriving DecidableEq, Repr

/-- The absolute value of a finite double is `mantissa * 2 ^ exponent`. -/
structure Magnitude where
  mantissa : Nat
  exponent : Int
deriving DecidableEq, Repr

def magnitude (x : Float) : Magnitude :=
  let bits := x.toBits.toNat
  let biased : Nat := bits / Nat.pow 2 52 % Nat.pow 2 11
  let fraction := bits % Nat.pow 2 52
  if biased = 0 then ⟨fraction, -1074⟩ else ⟨fraction + Nat.pow 2 52, (biased : Int) - 1075⟩

/-- The sign bit, set for `-0.0` too. -/
def isNegative (x : Float) : Bool :=
  Nat.pow 2 63 ≤ x.toBits.toNat

/-- The reals that round to a double, in quarters of its last place: from `low` to `high`, ends
included when `closed`, with the double itself at `value`. -/
structure Interval where
  low : Nat
  value : Nat
  high : Nat
  closed : Bool
  exponent : Int

/-- Below a power of two the doubles lie twice as dense, except at the bottom of the range. -/
def Magnitude.interval (v : Magnitude) : Interval where
  low := 4 * v.mantissa - (if v.mantissa = Nat.pow 2 52 ∧ -1074 < v.exponent then 1 else 2)
  value := 4 * v.mantissa
  high := 4 * v.mantissa + 2
  closed := v.mantissa % 2 = 0
  exponent := v.exponent - 2

/-- Factor of a grid point `d * 10 ^ k` when it is compared with `u * 2 ^ e` in whole numbers. -/
def gridFactor (k e : Int) : Nat := Nat.pow 10 k.toNat * Nat.pow 2 (-e).toNat

/-- Factor of `u` in that comparison. -/
def valueFactor (k e : Int) : Nat := Nat.pow 10 (-k).toNat * Nat.pow 2 e.toNat

/-- Whether `d * 10 ^ k` rounds to the double of the interval. -/
def Interval.holds (i : Interval) (k : Int) (d : Nat) : Bool :=
  let point := d * gridFactor k i.exponent
  let low := i.low * valueFactor k i.exponent
  let high := i.high * valueFactor k i.exponent
  if i.closed then low ≤ point && point ≤ high else low < point && point < high

/-- The point of the grid `10 ^ k` in the interval that is nearest to the double. -/
def Interval.onGrid (i : Interval) (tie : Tie) (k : Int) : Option Nat :=
  let factor := gridFactor k i.exponent
  let value := i.value * valueFactor k i.exponent
  let below := value / factor
  match i.holds k below, i.holds k (below + 1) with
  | false, false => none
  | true, false => some below
  | false, true => some (below + 1)
  | true, true =>
    let beyond := 2 * (value - below * factor)
    if beyond < factor then some below
    else if factor < beyond then some (below + 1)
    else match tie with
      | .up => some (below + 1)
      | .even => some (if below % 2 = 0 then below else below + 1)

/-- The first hit on the grids `10 ^ k`, `10 ^ (k - 1)`, … -/
def Interval.coarsest (i : Interval) (tie : Tie) : Nat → Int → Option Scientific
  | 0, _ => none
  | fuel + 1, k =>
    match i.onGrid tie k with
    | some d => some ⟨d, k⟩
    | none => i.coarsest tie fuel (k - 1)

/-- A power of ten above the magnitude; 0.30103 is a little more than the logarithm of two. -/
def Magnitude.decimalBound (v : Magnitude) : Int :=
  (v.exponent + v.mantissa.log2 + 1) * 30103 / 100000 + 1

/-- The shortest decimal of the absolute value of a finite double. Seventeen digits always
suffice, so twenty-five grids below the bound are enough. -/
def shortest (tie : Tie) (x : Float) : Scientific :=
  let v := magnitude x
  if v.mantissa = 0 then ⟨0, 0⟩
  else (v.interval.coarsest tie 25 v.decimalBound).getD ⟨0, 0⟩

/-- Written without an exponent: `120`, `1.2` or `0.012`. -/
def Scientific.positional (s : Scientific) : String :=
  let digits := (Nat.toDigits 10 s.coefficient)
  let places := (-s.exponent).toNat
  if 0 ≤ s.exponent then
    String.ofList (digits ++ List.replicate s.exponent.toNat '0')
  else if places < digits.length then
    let whole := digits.length - places
    String.ofList (digits.take whole ++ '.' :: digits.drop whole)
  else
    String.ofList ('0' :: '.' :: List.replicate (places - digits.length) '0' ++ digits)

end ChartPipeline.Decimal
