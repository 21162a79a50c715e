import ChartPipeline.Chart.Filter
import ChartPipeline.Expression.Literal

/-!
# Date-times in expressions

A date-time is a call with seven arguments. What is not given has a default; a quarter stands in
for a missing month, and a day of the week for a missing date in a year that begins on a Sunday.
-/

namespace ChartPipeline.Expression

def dateTimeArguments (part : DatePart → Option String) : List String :=
  [ (part .year).getD (if (part .day).isSome then "2006" else "0"),
    ((part .month) <|> (part .quarter).map (· ++ "*3")).getD "0",
    ((part .date) <|> (part .day).map (· ++ "+1")).getD "1",
    (part .hours).getD "0",
    (part .minutes).getD "0",
    (part .seconds).getD "0",
    (part .milliseconds).getD "0" ]

def dateTimeCall (part : DatePart → Option String) : String :=
  "datetime(" ++ String.intercalate ", " (dateTimeArguments part) ++ ")"

/-- A member of the date-time in a field. Quarters are counted from zero. -/
def partOfField (field : String) (p : DatePart) : String :=
  let call := p.name ++ "(" ++ fieldRef field ++ ")"
  if p = .quarter then "(" ++ call ++ "-1)" else call

def timeUnit (u : TimeUnit) (field : String) : String :=
  dateTimeCall fun p => if p ∈ u.parts then some (partOfField field p) else none

def monthNames : List String :=
  ["january", "february", "march", "april", "may", "june", "july", "august", "september", "october",
    "november", "december"]

def dayNames : List String :=
  ["sunday", "monday", "tuesday", "wednesday", "thursday", "friday", "saturday"]

/-- The place of a name in a list, where three letters are enough and case does not matter. All
names are spelled in ASCII, so no other letters need folding. -/
def nameIndex? (names : List String) (name : String) : Option Nat :=
  let folded := name.toList.map Char.toLower
  names.findIdx? fun full =>
    full.toList == folded || (folded.length == 3 && folded.isPrefixOf full.toList)

/-- Months are counted from one in a literal and from zero in an expression. Numbers in a literal
have 64 bits, where one less than the least of them overflows; here the number below it is written,
`-9223372036854775809`. -/
def monthText : DateTimeValue → String
  | .number n => intText (n - 1)
  | .name name => Nat.repr ((nameIndex? monthNames name).getD 0)

/-- A day beyond the week is taken modulo seven, with the sign of the day. -/
def dayText : DateTimeValue → String
  | .number n => intText (n.tmod 7)
  | .name name => Nat.repr ((nameIndex? dayNames name).getD 0)

/-- Like months, quarters are counted from zero, also below the least number of 64 bits. -/
def partOfLiteral (d : DateTime) : DatePart → Option String
  | .year => d.year.map intText
  | .quarter => d.quarter.map fun q => intText (q - 1)
  | .month => d.month.map monthText
  | .date => d.date.map intText
  | .day => d.day.map dayText
  | .hours => d.hours.map intText
  | .minutes => d.minutes.map intText
  | .seconds => d.seconds.map intText
  | .milliseconds => d.milliseconds.map intText

def dateTime (d : DateTime) : String := dateTimeCall (partOfLiteral d)

/-- The names in a literal that are no month or no day; zero stands in for them. -/
def unknownNames (d : DateTime) : List String :=
  let unknown (names : List String) : Option DateTimeValue → List String
    | some (.name name) => if (nameIndex? names name).isNone then [name] else []
    | _ => []
  unknown monthNames d.month ++ unknown dayNames d.day

end ChartPipeline.Expression
