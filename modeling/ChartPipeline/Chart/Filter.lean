import ChartPipeline.Chart.Vocabulary

/-!
# Filters

A filter is an expression, or a predicate that compares a field with values.
-/

namespace ChartPipeline

inductive DateTimeValue where
  | number (n : Int)
  | name (text : String)
deriving DecidableEq, Repr

/-- A date-time literal. Quarters and months are counted from one. -/
structure DateTime where
  year : Option Int := none
  quarter : Option Int := none
  month : Option DateTimeValue := none
  date : Option Int := none
  day : Option DateTimeValue := none
  hours : Option Int := none
  minutes : Option Int := none
  seconds : Option Int := none
  milliseconds : Option Int := none
deriving DecidableEq, Repr

inductive FilterValue where
  | number (x : Float)
  | bool (b : Bool)
  | text (s : String)
  | dateTime (d : DateTime)
deriving DecidableEq

inductive Comparison where
  | equal (value : FilterValue)
  /-- Both bounds are inclusive; a bound that is missing does not restrict. -/
  | range (low high : Option FilterValue)
  | oneOf (values : List FilterValue)
deriving DecidableEq

def Comparison.name : Comparison → String
  | .equal _ => "equal"
  | .range _ _ => "range"
  | .oneOf _ => "oneOf"

/-- The value that stands for all of a predicate: the only one, the lower bound or the first. -/
def Comparison.firstValue : Comparison → Option FilterValue
  | .equal value => some value
  | .range low _ => low
  | .oneOf values => values.head?

structure Predicate where
  field : String
  timeUnit : Option TimeUnit
  comparison : Comparison
deriving DecidableEq

inductive Filter where
  | expr (text : String)
  | predicate (p : Predicate)
deriving DecidableEq

def Filter.predicate? : Filter → Option Predicate
  | .expr _ => none
  | .predicate p => some p

inductive FilterDef where
  | many (filters : List Filter)
  | one (filter : Filter)
deriving DecidableEq

def FilterDef.filters : FilterDef → List Filter
  | .many filters => filters
  | .one filter => [filter]

end ChartPipeline
