/-!
# The words of a chart specification

Closed sets of words: what a spec may name, how each word is written, and which word a text is.
-/

namespace ChartPipeline

/-- The first value of a list that is written as the given text. -/
def wordNamed? {α : Type} (all : List α) (name : α → String) (text : String) : Option α :=
  all.find? fun a => name a == text

inductive Mark where
  | area | bar | line | point | circle | square | rule | text | tick
deriving DecidableEq, Repr

namespace Mark

def all : List Mark := [.area, .bar, .line, .point, .circle, .square, .rule, .text, .tick]

def name : Mark → String
  | .area => "area"
  | .bar => "bar"
  | .line => "line"
  | .point => "point"
  | .circle => "circle"
  | .square => "square"
  | .rule => "rule"
  | .text => "text"
  | .tick => "tick"

def ofName? : String → Option Mark := wordNamed? all name

def isPath (m : Mark) : Bool := m = .line || m = .area

/-- Marks that stack unless told otherwise. -/
def isStacked (m : Mark) : Bool := m = .bar || m = .area

end Mark

inductive Orient where
  | horizontal | vertical
deriving DecidableEq, Repr

namespace Orient

def all : List Orient := [.horizontal, .vertical]

def name : Orient → String
  | .horizontal => "horizontal"
  | .vertical => "vertical"

def ofName? : String → Option Orient := wordNamed? all name

end Orient

/-- Where a stack starts; `off` turns stacking off. -/
inductive StackOffset where
  | zero | center | normalize | off
deriving DecidableEq, Repr

namespace StackOffset

def all : List StackOffset := [.zero, .center, .normalize, .off]

def name : StackOffset → String
  | .zero => "zero"
  | .center => "center"
  | .normalize => "normalize"
  | .off => "none"

def ofName? : String → Option StackOffset := wordNamed? all name

end StackOffset

inductive Channel where
  | x | y | x2 | y2 | row | column | color | opacity | size | shape | detail | text | tooltip
  | order
deriving DecidableEq, Repr

namespace Channel

def all : List Channel :=
  [.x, .y, .x2, .y2, .row, .column, .color, .opacity, .size, .shape, .detail, .text, .tooltip,
    .order]

def name : Channel → String
  | .x => "x"
  | .y => "y"
  | .x2 => "x2"
  | .y2 => "y2"
  | .row => "row"
  | .column => "column"
  | .color => "color"
  | .opacity => "opacity"
  | .size => "size"
  | .shape => "shape"
  | .detail => "detail"
  | .text => "text"
  | .tooltip => "tooltip"
  | .order => "order"

def ofName? : String → Option Channel := wordNamed? all name

/-- The name in messages, which is capitalised. -/
def title (c : Channel) : String :=
  match c.name.toList with
  | [] => ""
  | first :: rest => String.ofList (first.toUpper :: rest)

def hasScale : Channel → Bool
  | .x | .y | .color | .opacity | .size | .shape => true
  | _ => false

/-- How many bins a field on the channel gets if its definition does not say. -/
def defaultMaxBins : Channel → Nat
  | .row | .column | .size | .color | .opacity | .shape => 6
  | _ => 10

end Channel

inductive FieldType where
  | quantitative | ordinal | nominal | temporal
deriving DecidableEq, Repr

namespace FieldType

def all : List FieldType := [.quantitative, .ordinal, .nominal, .temporal]

def name : FieldType → String
  | .quantitative => "quantitative"
  | .ordinal => "ordinal"
  | .nominal => "nominal"
  | .temporal => "temporal"

def initial : FieldType → String
  | .quantitative => "q"
  | .ordinal => "o"
  | .nominal => "n"
  | .temporal => "t"

def ofName? (text : String) : Option FieldType :=
  wordNamed? all name text <|> wordNamed? all initial text

end FieldType

inductive AggregateOp where
  | values | count | valid | missing | distinct | sum | mean | average | variance | variancep
  | stdev | stdevp | median | q1 | q3 | ci0 | ci1 | min | max | argmin | argmax
deriving DecidableEq, Repr

namespace AggregateOp

def all : List AggregateOp :=
  [.values, .count, .valid, .missing, .distinct, .sum, .mean, .average, .variance, .variancep,
    .stdev, .stdevp, .median, .q1, .q3, .ci0, .ci1, .min, .max, .argmin, .argmax]

def name : AggregateOp → String
  | .values => "values"
  | .count => "count"
  | .valid => "valid"
  | .missing => "missing"
  | .distinct => "distinct"
  | .sum => "sum"
  | .mean => "mean"
  | .average => "average"
  | .variance => "variance"
  | .variancep => "variancep"
  | .stdev => "stdev"
  | .stdevp => "stdevp"
  | .median => "median"
  | .q1 => "q1"
  | .q3 => "q3"
  | .ci0 => "ci0"
  | .ci1 => "ci1"
  | .min => "min"
  | .max => "max"
  | .argmin => "argmin"
  | .argmax => "argmax"

def ofName? : String → Option AggregateOp := wordNamed? all name

end AggregateOp

inductive TimeUnit where
  | year | quarter | month | day | date | hours | minutes | seconds | milliseconds
  | yearquarter | yearquartermonth | yearmonth | yearmonthdate | yearmonthdatehours
  | yearmonthdatehoursminutes | yearmonthdatehoursminutesseconds | quartermonth | monthdate
  | hoursminutes | hoursminutesseconds | minutesseconds | secondsmilliseconds
deriving DecidableEq, Repr

inductive DatePart where
  | year | quarter | month | day | date | hours | minutes | seconds | milliseconds
deriving DecidableEq, Repr

namespace DatePart

def name : DatePart → String
  | .year => "year"
  | .quarter => "quarter"
  | .month => "month"
  | .day => "day"
  | .date => "date"
  | .hours => "hours"
  | .minutes => "minutes"
  | .seconds => "seconds"
  | .milliseconds => "milliseconds"

end DatePart

namespace TimeUnit

def all : List TimeUnit :=
  [.year, .quarter, .month, .day, .date, .hours, .minutes, .seconds, .milliseconds, .yearquarter,
    .yearquartermonth, .yearmonth, .yearmonthdate, .yearmonthdatehours, .yearmonthdatehoursminutes,
    .yearmonthdatehoursminutesseconds, .quartermonth, .monthdate, .hoursminutes,
    .hoursminutesseconds, .minutesseconds, .secondsmilliseconds]

def parts : TimeUnit → List DatePart
  | .year => [.year]
  | .quarter => [.quarter]
  | .month => [.month]
  | .day => [.day]
  | .date => [.date]
  | .hours => [.hours]
  | .minutes => [.minutes]
  | .seconds => [.seconds]
  | .milliseconds => [.milliseconds]
  | .yearquarter => [.year, .quarter]
  | .yearquartermonth => [.year, .quarter, .month]
  | .yearmonth => [.year, .month]
  | .yearmonthdate => [.year, .month, .date]
  | .yearmonthdatehours => [.year, .month, .date, .hours]
  | .yearmonthdatehoursminutes => [.year, .month, .date, .hours, .minutes]
  | .yearmonthdatehoursminutesseconds => [.year, .month, .date, .hours, .minutes, .seconds]
  | .quartermonth => [.quarter, .month]
  | .monthdate => [.month, .date]
  | .hoursminutes => [.hours, .minutes]
  | .hoursminutesseconds => [.hours, .minutes, .seconds]
  | .minutesseconds => [.minutes, .seconds]
  | .secondsmilliseconds => [.seconds, .milliseconds]

/-- A unit is written as its parts in a row. -/
def name (u : TimeUnit) : String := String.join (u.parts.map DatePart.name)

def ofName? : String → Option TimeUnit := wordNamed? all name

end TimeUnit

inductive ScaleType where
  | linear | log | pow | sqrt | time | utc | sequential | ordinal | binOrdinal | point | band
deriving DecidableEq, Repr

namespace ScaleType

def all : List ScaleType :=
  [.linear, .log, .pow, .sqrt, .time, .utc, .sequential, .ordinal, .binOrdinal, .point, .band]

def name : ScaleType → String
  | .linear => "linear"
  | .log => "log"
  | .pow => "pow"
  | .sqrt => "sqrt"
  | .time => "time"
  | .utc => "utc"
  | .sequential => "sequential"
  | .ordinal => "ordinal"
  | .binOrdinal => "bin-ordinal"
  | .point => "point"
  | .band => "band"

def ofName? : String → Option ScaleType := wordNamed? all name

/-- Scales whose domain is a set of separate values. -/
def isDiscrete : ScaleType → Bool
  | .ordinal | .binOrdinal | .point | .band => true
  | _ => false

end ScaleType

inductive SortOrder where
  | ascending | descending
deriving DecidableEq, Repr

namespace SortOrder

def all : List SortOrder := [.ascending, .descending]

def name : SortOrder → String
  | .ascending => "ascending"
  | .descending => "descending"

def ofName? : String → Option SortOrder := wordNamed? all name

end SortOrder

end ChartPipeline
