import ChartPipeline.Json.Shape
import ChartPipeline.Chart.Shorthand
import ChartPipeline.Chart.Spec

/-!
# How the parts of a chart are written

Each part has one or more shapes in JSON. Where there are several, the first that fits counts.
-/

namespace ChartPipeline

open Json (required? optional?)

def DateTimeValue.ofJson? (v : Json) : Option DateTimeValue :=
  v.int64?.map .number <|> v.string?.map .name

def DateTime.memberNames : List String :=
  ["year", "quarter", "month", "date", "day", "hours", "minutes", "seconds", "milliseconds"]

/-- An object with any other member is no date-time. -/
def DateTime.ofJson? (v : Json) : Option DateTime := do
  guard (v.hasOnly memberNames)
  match ← v.record? (memberNames.map ([·])) with
  | [year, quarter, month, date, day, hours, minutes, seconds, milliseconds] =>
    return {
      year := ← optional? Json.int64? year
      quarter := ← optional? Json.int64? quarter
      month := ← optional? DateTimeValue.ofJson? month
      date := ← optional? Json.int64? date
      day := ← optional? DateTimeValue.ofJson? day
      hours := ← optional? Json.int64? hours
      minutes := ← optional? Json.int64? minutes
      seconds := ← optional? Json.int64? seconds
      milliseconds := ← optional? Json.int64? milliseconds }
  | _ => none

def FilterValue.ofJson? (v : Json) : Option FilterValue :=
  v.float?.map .number <|> v.bool?.map .bool <|> v.string?.map .text <|>
    (DateTime.ofJson? v).map .dateTime

/-- A predicate whose comparison is the member with one of the given names. -/
def Predicate.withMember? (names : List String) (comparison? : Json → Option Comparison)
    (v : Json) : Option Predicate := do
  match ← v.record? [["field"], ["timeUnit"], names] with
  | [field, timeUnit, comparison] =>
    return {
      field := ← required? Json.string? field
      timeUnit := ← optional? (Json.word? TimeUnit.ofName?) timeUnit
      comparison := ← required? comparison? comparison }
  | _ => none

def Comparison.equal? (v : Json) : Option Comparison := (FilterValue.ofJson? v).map .equal

def Comparison.range? (v : Json) : Option Comparison :=
  (v.pair? (Json.nullable? FilterValue.ofJson?)).map fun (low, high) => .range low high

def Comparison.oneOf? (v : Json) : Option Comparison := (v.list? FilterValue.ofJson?).map .oneOf

def Predicate.ofJson? (v : Json) : Option Predicate :=
  withMember? ["equal"] Comparison.equal? v <|> withMember? ["range"] Comparison.range? v <|>
    withMember? ["oneOf", "in"] Comparison.oneOf? v

def Filter.ofJson? (v : Json) : Option Filter :=
  v.string?.map .expr <|> (Predicate.ofJson? v).map .predicate

def FilterDef.ofJson? (v : Json) : Option FilterDef :=
  (v.list? Filter.ofJson?).map .many <|> (Filter.ofJson? v).map .one

def Calculate.ofJson? (v : Json) : Option Calculate := do
  match ← v.record? [["calculate"], ["as"]] with
  | [expr, target] =>
    return { expr := ← required? Json.string? expr, target := ← required? Json.string? target }
  | _ => none

def FilterDef.entry? (v : Json) : Option FilterDef := do
  match ← v.record? [["filter"]] with
  | [filter] => required? FilterDef.ofJson? filter
  | _ => none

/-- Any object is an entry, whether it takes part or not. -/
def TransformDef.unsupported? : Json → Option TransformDef
  | .object members => some (.unsupported (OrderedSet.ofList (members.map Prod.fst)))
  | _ => none

def TransformDef.ofJson? (v : Json) : Option TransformDef :=
  (Calculate.ofJson? v).map .calculate <|> (FilterDef.entry? v).map .filter <|> unsupported? v

def BinParams.ofJson? (v : Json) : Option BinParams := do
  match ← v.record? (["maxbins", "extent", "base", "step", "steps", "minstep", "divide", "nice"].map
      ([·])) with
  | [maxbins, extent, base, step, steps, minstep, divide, nice] =>
    return {
      maxbins := ← optional? Json.nat32? maxbins
      extent := ← optional? (Json.pair? Json.number?) extent
      base := ← optional? Json.float? base
      step := ← optional? Json.float? step
      steps := ← optional? (Json.list? Json.float?) steps
      minstep := ← optional? Json.float? minstep
      divide := ← optional? (Json.list? Json.float?) divide
      nice := ← optional? Json.bool? nice }
  | _ => none

/-- `true` asks for a bin without parameters and `false` for none. -/
def BinParams.declared? (v : Json) : Option (Option BinParams) :=
  v.bool?.map (fun b => if b then some ({} : BinParams) else none) <|>
    (BinParams.ofJson? v).map some

def ScaleDef.ofJson? (v : Json) : Option ScaleDef := do
  match ← v.record? [["type"], ["domain"]] with
  | [scaleType, domain] =>
    return {
      scaleType := ← optional? (Json.word? ScaleType.ofName?) scaleType
      domain := ← optional? (some ∘ Json.merged) domain }
  | _ => none

def FieldDef.full? (v : Json) : Option FieldDef := do
  let names := ["field", "type", "aggregate", "bin", "timeUnit", "scale", "sort"]
  match ← v.record? (names.map ([·])) with
  | [field, fieldType, aggregate, bin, timeUnit, scale, sort] =>
    return {
      field := ← optional? Json.string? field
      fieldType := ← optional? (Json.word? FieldType.ofName?) fieldType
      aggregate := ← optional? (Json.word? AggregateOp.ofName?) aggregate
      bin := (← optional? BinParams.declared? bin).join
      timeUnit := ← optional? (Json.word? TimeUnit.ofName?) timeUnit
      scale := ← optional? ScaleDef.ofJson? scale
      sort := ← optional? (Json.word? SortOrder.ofName?) sort }
  | _ => none

def FieldDef.ofJson? : Json → Option FieldDef
  | .string text => Shorthand.parse? text
  | v => full? v

def FieldDef.channelDefs? (v : Json) : Option (List FieldDef) :=
  (FieldDef.ofJson? v).map ([·]) <|> v.list? FieldDef.ofJson?

def MarkDef.full? (v : Json) : Option MarkDef := do
  match ← v.record? [["type"], ["orient"], ["stack"]] with
  | [mark, orient, stack] =>
    return {
      mark := ← required? (Json.word? Mark.ofName?) mark
      orient := ← optional? (Json.word? Orient.ofName?) orient
      stack := ← optional? (Json.word? StackOffset.ofName?) stack }
  | _ => none

def MarkDef.ofJson? (v : Json) : Option MarkDef :=
  (v.word? Mark.ofName?).map (fun mark => { mark := mark }) <|> full? v

end ChartPipeline
