import ChartPipeline.Expression.Filter
import ChartPipeline.Model
import ChartPipeline.Record

/-!
# Nodes that work row by row

Rows without a proper value are dropped, fields are binned and date-times are cut to a unit.
-/

namespace ChartPipeline

open Expression (fieldRef)

/-! ## Rows without a value -/

namespace NullFilter

/-- Whether rows without a value in the field are dropped. Unless the option decides for all
fields, only those with numbers and dates count. -/
def concerns (filterInvalid : Option Bool) (d : FieldDef) : Bool :=
  !d.isCount &&
    match filterInvalid with
    | some all => all
    | none => d.fieldType = some .quantitative || d.fieldType = some .temporal

def ofModel (m : Model) (filterInvalid : Option Bool) : List String :=
  OrderedSet.ofList (m.fieldDefs.filterMap fun (_, d) =>
    if concerns filterInvalid d then d.field else none)

def hasValue (field : String) : String :=
  fieldRef field ++ " !== null && !isNaN(" ++ fieldRef field ++ ")"

def transforms (fields : List String) : List Transform :=
  if fields.isEmpty then [] else [.filter (String.intercalate " && " (fields.map hasValue))]

end NullFilter

/-! ## Rows without a positive value -/

/-- Fields that are drawn with a scale, and whether rows need a positive value in them. -/
abbrev PositiveFilter := OrderedMap String Bool

namespace PositiveFilter

/-- A channel asks for positive values if its scale is logarithmic. -/
def ofModel (m : Model) : PositiveFilter :=
  OrderedMap.union [] (m.fieldDefs.filterMap fun (c, _) => do
    let scaleType ← m.scaleType? c
    return (← m.field? c none, decide (scaleType = .log)))

def isIdle (f : PositiveFilter) : Bool := f.all fun entry => !entry.2

def isPositive (field : String) : String := fieldRef field ++ " > 0"

def transforms (f : PositiveFilter) : List Transform :=
  (f.filter Prod.snd).map fun entry => .filter (isPositive entry.1)

end PositiveFilter

/-! ## Bins -/

structure BinEntry where
  field : String
  /-- The parameters, with the number of bins resolved. -/
  params : BinParams
  maxbins : Nat
  start : String
  «end» : String
  range : String
  signal : String
  extentSignal : String
  /-- A channel with a discrete scale uses the bin, so its range needs a label. -/
  labelled : Bool

structure Binning where
  entries : OrderedMap String BinEntry := []
  numberFormat : String := ""

namespace Binning

def request? (m : Model) (c : Channel) (d : FieldDef) : Option BinEntry := do
  let params ← d.bin
  let field ← d.field
  let maxbins := params.maxbins.getD c.defaultMaxBins
  return {
    field
    params := { params with maxbins := some maxbins }
    maxbins
    start := d.derivedName (some .start)
    «end» := d.derivedName (some .end)
    range := d.derivedName (some .range)
    signal := m.nameOf (field ++ "_bins")
    extentSignal := m.nameOf (field ++ "_extent")
    labelled := m.isDiscrete c }

def requests (m : Model) : List (Channel × BinEntry) :=
  m.fieldDefs.filterMap fun (c, d) => (request? m c d).map (c, ·)

/-- A field is binned as it is first asked for. A later request with the same parameters only adds
its need for labels, and one with others is ignored. -/
def add (entries : OrderedMap String BinEntry) (e : BinEntry) : OrderedMap String BinEntry :=
  match OrderedMap.find? e.field entries with
  | none => entries.put e.field e
  | some first =>
    if first.params.same e.params then
      entries.put e.field { first with labelled := first.labelled || e.labelled }
    else entries

def ofModel (m : Model) (numberFormat : String) : Binning :=
  { entries := ((requests m).map Prod.snd).foldl add [], numberFormat }

def ignored (m : Model) : List (Channel × BinEntry) :=
  (requests m).filter fun (_, e) =>
    match (requests m).find? fun (_, first) => first.field == e.field with
    | some (_, first) => !first.params.same e.params
    | none => false

def label (numberFormat start last : String) : String :=
  "format(" ++ fieldRef start ++ ", '" ++ numberFormat ++ "') + ' - ' + format(" ++ fieldRef last ++
    ", '" ++ numberFormat ++ "')"

def entryTransforms (numberFormat : String) (e : BinEntry) : List Transform :=
  let bin (extent : Extent) : Transform := .bin
    { field := e.field, start := e.start, «end» := e.end, maxbins := e.maxbins, extent,
      signal := e.signal, params := e.params }
  (match e.params.extent with
    | some (low, high) => [bin (.literal low high)]
    | none => [.extent e.field e.extentSignal, bin (.signal e.extentSignal)]) ++
  if e.labelled then [.formula (label numberFormat e.start e.end) e.range] else []

def transforms (b : Binning) : List Transform :=
  b.entries.flatMap fun entry => entryTransforms b.numberFormat entry.2

end Binning

/-! ## Time units -/

/-- Fields cut to a time unit: the derived field, the unit and the raw field. -/
abbrev TimeUnits := OrderedMap String (TimeUnit × String)

namespace TimeUnits

/-- Only date-times can be cut. -/
def request? (d : FieldDef) : Option (String × TimeUnit × String) := do
  guard (d.fieldType = some .temporal)
  return (d.derivedName none, ← d.timeUnit, ← d.field)

/-- A derived field is computed once. -/
def add (u : TimeUnits) (r : String × TimeUnit × String) : TimeUnits :=
  if (OrderedMap.find? r.1 u).isSome then u else u.put r.1 r.2

def ofModel (m : Model) : TimeUnits := (m.fieldDefs.filterMap fun (_, d) => request? d).foldl add []

def transforms (u : TimeUnits) : List Transform :=
  u.map fun (target, unit, field) => .formula (Expression.timeUnit unit field) target

end TimeUnits

end ChartPipeline
