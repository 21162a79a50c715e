import ChartPipeline.Chart.Spec

/-!
# Records

What a chart compiles to: data sources in order, each with the transforms that are applied to it,
and how they are written in JSON.
-/

namespace ChartPipeline

abbrev SortSpec := List (String × SortOrder)

/-- The extent of a bin: a pair of numbers, or a signal that another transform computes. -/
inductive Extent where
  | literal (low high : Json.Number)
  | signal (name : String)

structure BinTransform where
  field : String
  start : String
  «end» : String
  maxbins : Nat
  extent : Extent
  signal : String
  params : BinParams

inductive Transform where
  | filter (expr : String)
  | formula (expr target : String)
  | bin (b : BinTransform)
  | extent (field signal : String)
  /-- Each measure is an operator and the field it is applied to. -/
  | aggregate (groupby : List String) (measures : List (AggregateOp × String))
  /-- Missing values of the field count as zero. -/
  | impute (field : String) (groupby orderby : List String)
  | stack (groupby : List String) (field : String) (sort : SortSpec) (start «end» : String)
      (offset : StackOffset)
  | collect (sort : SortSpec)

/-- A data source: declared data or another record, and the transforms applied to it. -/
structure Record where
  name : Option String := none
  source : Option String := none
  url : Option String := none
  values : Option (List Json) := none
  format : Option DataFormat := none
  transform : List Transform := []

namespace Record

def ofSource (source : String) : Record := { source := some source }

def isAlias (r : Record) : Bool :=
  r.name.isNone && r.transform.isEmpty && r.source.isSome && r.url.isNone && r.values.isNone &&
    r.format.isNone

end Record

/-! ## In JSON -/

open Json (present strings)

def Coercions.toJson (c : Coercions) : Json :=
  .object (c.map fun (field, kind) => (field, .string kind))

def DataFormat.toJson (f : DataFormat) : Json :=
  .object (present
    [("type", f.type.map .string), ("parse", f.parse.map Coercions.toJson),
      ("property", f.property.map .string)])

def Data.toJson (d : Data) : Json :=
  .object (present
    [("name", d.name.map .string), ("url", d.url.map .string), ("values", d.values.map .array),
      ("format", d.format.map DataFormat.toJson)])

/-- The bin parameters that are present, except those resolved otherwise. -/
def BinParams.passedOn (p : BinParams) : List (String × Json) :=
  present
    [("base", p.base.map Json.ofFloat), ("step", p.step.map Json.ofFloat),
      ("steps", p.steps.map fun xs => .array (xs.map Json.ofFloat)),
      ("minstep", p.minstep.map Json.ofFloat),
      ("divide", p.divide.map fun xs => .array (xs.map Json.ofFloat)), ("nice", p.nice.map .bool)]

def pairJson (low high : Json.Number) : Json := .array [.number low, .number high]

def BinParams.toJson (p : BinParams) : Json :=
  .object (present
    [("maxbins", p.maxbins.map Json.ofNat), ("extent", p.extent.map fun (a, b) => pairJson a b)] ++
    p.passedOn)

def Extent.toJson : Extent → Json
  | .literal low high => pairJson low high
  | .signal name => .object [("signal", .string name)]

def SortSpec.toJson (s : SortSpec) : Json :=
  .object [("field", strings (s.map Prod.fst)), ("order", strings (s.map (·.2.name)))]

namespace Transform

def members : Transform → String × List (String × Json)
  | .filter expr => ("filter", [("expr", .string expr)])
  | .formula expr target => ("formula", [("expr", .string expr), ("as", .string target)])
  | .bin b =>
    ("bin", [("field", .string b.field), ("as", strings [b.start, b.end]),
      ("maxbins", Json.ofNat b.maxbins), ("extent", b.extent.toJson),
      ("signal", .string b.signal)] ++
      b.params.passedOn)
  | .extent field signal => ("extent", [("field", .string field), ("signal", .string signal)])
  | .aggregate groupby measures =>
    ("aggregate", ("groupby", strings groupby) ::
      if measures.isEmpty then []
      else
        [("ops", strings (measures.map (·.1.name))), ("fields", strings (measures.map Prod.snd))])
  | .impute field groupby orderby =>
    ("impute", [("field", .string field), ("groupby", strings groupby),
      ("orderby", strings orderby), ("method", .string "value"), ("value", Json.ofNat 0)])
  | .stack groupby field sort start last offset =>
    ("stack", [("groupby", strings groupby), ("field", .string field),
      ("sort", SortSpec.toJson sort),
      ("as", strings [start, last]), ("offset", .string offset.name)])
  | .collect sort => ("collect", [("sort", SortSpec.toJson sort)])

def toJson (t : Transform) : Json := .object (("type", .string t.members.1) :: t.members.2)

end Transform

def Record.toJson (r : Record) : Json :=
  .object (present
    [("name", r.name.map .string), ("source", r.source.map .string), ("url", r.url.map .string),
      ("values", r.values.map .array), ("format", r.format.map DataFormat.toJson)] ++
    [("transform", .array (r.transform.map Transform.toJson))])

end ChartPipeline
