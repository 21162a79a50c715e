import ChartPipeline.Json.Printer
import ChartPipeline.Json.Shape
import ChartPipeline.Session

/-!
# Scales

The domains of scales refer to data by the names of checkpoints. Binding a scale replaces these
names by the records that hold the data.
-/

namespace ChartPipeline

open Json (required?)

structure DataRef where
  data : String
  field : String
deriving DecidableEq, Repr

inductive ScaleDomain where
  | field (ref : DataRef)
  | fields (data : String) (names : List String)
  /-- Fields of different data. -/
  | union (refs : List DataRef)
  | signal (name : String)
  | literal (values : List Json)
  /-- No domain at all; it cannot be bound. -/
  | other (value : Json)

structure Scale where
  name : String
  domain : ScaleDomain

/-! ## In JSON -/

def DataRef.ofJson? (v : Json) : Option DataRef := do
  match ← v.record? [["data"], ["field"]] with
  | [data, field] =>
    return { data := ← required? Json.string? data, field := ← required? Json.string? field }
  | _ => none

namespace ScaleDomain

/-- The shapes with named members, which have no positional form. -/
def ofMembers? (v : Json) : Option ScaleDomain :=
  match v with
  | .object _ =>
    (return .fields (← (← v.get? "data").string?) (← (← v.get? "fields").list? Json.string?)) <|>
      (return .union (← (← v.get? "fields").list? DataRef.ofJson?)) <|>
      (return .signal (← (← v.get? "signal").string?))
  | _ => none

def literal? : Json → Option ScaleDomain
  | .array values => some (.literal values)
  | _ => none

/-- The first shape that fits. A pair of strings is a field of some data. -/
def ofJson (v : Json) : ScaleDomain :=
  ((DataRef.ofJson? v).map ScaleDomain.field <|> ofMembers? v <|> literal? v).getD (.other v)

end ScaleDomain

def Scale.ofJson? (v : Json) : Option Scale := do
  match ← v.record? [["name"], ["domain"]] with
  | [name, domain] =>
    return { name := ← required? Json.string? name, domain := .ofJson (← domain) }
  | _ => none

def DataRef.toJson (r : DataRef) : Json :=
  .object [("data", .string r.data), ("field", .string r.field)]

def ScaleDomain.toJson : ScaleDomain → Json
  | .field ref => ref.toJson
  | .fields data names => .object [("data", .string data), ("fields", Json.strings names)]
  | .union refs => .object [("fields", .array (refs.map DataRef.toJson))]
  | .signal name => .object [("signal", .string name)]
  | .literal values => .array values
  | .other value => value

def Scale.toJson (s : Scale) : Json :=
  .object [("name", .string s.name), ("domain", s.domain.toJson)]

/-! ## Binding -/

/-- The record behind a name: that of a checkpoint, or the name of a record itself. -/
def Compiled.resolve (c : Compiled) (name : String) : Except CompileError String :=
  match c.source? name with
  | some record => .ok record
  | none =>
    if c.data.any (·.name = some name) then .ok name else .error (.unknownData name)

def DataRef.bind (r : DataRef) (c : Compiled) : Except CompileError DataRef :=
  return { r with data := ← c.resolve r.data }

def ScaleDomain.bind (d : ScaleDomain) (scale : String) (c : Compiled) :
    Except CompileError ScaleDomain :=
  match d with
  | .field ref => .field <$> ref.bind c
  | .fields data names => return .fields (← c.resolve data) names
  | .union refs => .union <$> refs.mapM (·.bind c)
  | .signal name => .ok (.signal name)
  | .literal values => .ok (.literal values)
  | .other value => .error (.invalidScaleDomain scale value)

def Scale.bind (s : Scale) (c : Compiled) : Except CompileError Scale :=
  return { s with domain := ← s.domain.bind s.name c }

/-- Binds all scales, or tells about the first one that cannot be bound. -/
def Compiled.bindScales (c : Compiled) (scales : List Scale) : Except CompileError (List Scale) :=
  scales.mapM (·.bind c)

end ChartPipeline
