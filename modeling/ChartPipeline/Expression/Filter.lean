import ChartPipeline.Expression.DateTime

/-!
# Filters as expressions

A predicate compares a reference to its field with literals. With a time unit both sides are
date-times, turned into numbers by `time`.
-/

namespace ChartPipeline.Expression

/-- A literal with a single member. A name has a meaning only as a month or a day. -/
def singlePart (p : DatePart) (n : Option Int) (value : DateTimeValue) : DateTime :=
  match p with
  | .year => { year := n }
  | .quarter => { quarter := n }
  | .month => { month := some value }
  | .date => { date := n }
  | .day => { day := some value }
  | .hours => { hours := n }
  | .minutes => { minutes := n }
  | .seconds => { seconds := n }
  | .milliseconds => { milliseconds := n }

/-- A number as a member of a date-time: cut to a whole number, and to the least or the greatest of
64 bits beyond these. As a month or a quarter the least one overflows. -/
def wholeNumber (x : Float) : Int := x.toInt64.toInt

/-- The date-time that a value stands for. A number or text compared with a single unit is a
date-time with only that member. -/
def asDateTime (unit : Option TimeUnit) (value : FilterValue) : Option DateTime :=
  match value, unit.map TimeUnit.parts with
  | .number x, some [p] =>
    some (singlePart p (some (wholeNumber x)) (.number (wholeNumber x)))
  | .text s, some [p] => some (singlePart p none (.name s))
  | .dateTime d, _ => some d
  | _, _ => none

def plainValue : FilterValue → String
  | .number x => numberText x
  | .bool b => if b then "true" else "false"
  | .text s => Text.quote s
  | .dateTime d => dateTime d

def filterValue (unit : Option TimeUnit) (value : FilterValue) : String :=
  match asDateTime unit value with
  | some d => "time(" ++ dateTime d ++ ")"
  | none => plainValue value

def comparedField (p : Predicate) : String :=
  match p.timeUnit with
  | some unit => "time(" ++ timeUnit unit p.field ++ ")"
  | none => fieldRef p.field

def predicate (p : Predicate) : String :=
  let field := comparedField p
  let value := filterValue p.timeUnit
  match p.comparison with
  | .equal v => field ++ "===" ++ value v
  | .oneOf vs =>
    "indexof([" ++ String.intercalate "," (vs.map value) ++ "], " ++ field ++ ") !== -1"
  | .range (some low) (some high) =>
    "inrange(" ++ field ++ ", " ++ value low ++ ", " ++ value high ++ ")"
  | .range (some low) none => field ++ " >= " ++ value low
  | .range none (some high) => field ++ " <= " ++ value high
  | .range none none => "true"

def filter : Filter → String
  | .expr text => text
  | .predicate p => predicate p

/-- Of several filters each stands in brackets. -/
def filterDef : FilterDef → String
  | .one f => filter f
  | .many fs => String.intercalate " && " (fs.map fun f => "(" ++ filter f ++ ")")

def comparedValues : Comparison → List FilterValue
  | .equal v => [v]
  | .range low high => low.toList ++ high.toList
  | .oneOf vs => vs

def unknownNamesIn : Filter → List String
  | .expr _ => []
  | .predicate p =>
    (comparedValues p.comparison).flatMap fun v => (asDateTime p.timeUnit v).elim [] unknownNames

def unknownNamesInDef (d : FilterDef) : List String := d.filters.flatMap unknownNamesIn

end ChartPipeline.Expression
