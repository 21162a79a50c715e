import ChartPipeline.Chart.Shape
import ChartPipeline.Json.Reader

/-!
# Reading chart specifications

The records of a chart spec are read member by member, in the order of the text. Parts with
several shapes are read whole before a shape is chosen.
-/

namespace ChartPipeline

open Document (fill nullable shaped optionalSlot)

namespace DataFormat

structure Draft where
  type : Option (Option String) := none
  parse : Option (Option Coercions) := none
  property : Option (Option String) := none

def step (draft : Draft) (key : String) (d : Document) : Except Fault Draft :=
  match key with
  | "type" => return { draft with type := ← fill draft.type (nullable Document.text d) }
  | "parse" =>
    return { draft with parse := ← fill draft.parse (nullable (Document.map some Document.text) d) }
  | "property" => return { draft with property := ← fill draft.property (nullable Document.text d) }
  | _ => do d.skip; return draft

def ofDocument : Document → Except Fault DataFormat :=
  Document.record ["type", "parse", "property"] step {} fun positional draft => return {
    type := ← optionalSlot positional draft.type
    parse := ← optionalSlot positional draft.parse
    property := ← optionalSlot positional draft.property }

end DataFormat

namespace Data

structure Draft where
  name : Option (Option String) := none
  url : Option (Option String) := none
  values : Option (Option (List Json)) := none
  format : Option (Option DataFormat) := none

def step (draft : Draft) (key : String) (d : Document) : Except Fault Draft :=
  match key with
  | "name" => return { draft with name := ← fill draft.name (nullable Document.text d) }
  | "url" => return { draft with url := ← fill draft.url (nullable Document.text d) }
  | "values" =>
    return { draft with
      values := ← fill draft.values (nullable (Document.list fun v => Json.merged <$> v.value) d) }
  | "format" =>
    return { draft with format := ← fill draft.format (nullable DataFormat.ofDocument d) }
  | _ => do d.skip; return draft

def ofDocument : Document → Except Fault Data :=
  Document.record ["name", "url", "values", "format"] step {} fun positional draft => return {
    name := ← optionalSlot positional draft.name
    url := ← optionalSlot positional draft.url
    values := ← optionalSlot positional draft.values
    format := ← optionalSlot positional draft.format }

end Data

namespace FacetDef

structure Draft where
  row : Option (Option FieldDef) := none
  column : Option (Option FieldDef) := none

def step (draft : Draft) (key : String) (d : Document) : Except Fault Draft :=
  match key with
  | "row" => return { draft with row := ← fill draft.row (nullable (shaped FieldDef.ofJson?) d) }
  | "column" =>
    return { draft with column := ← fill draft.column (nullable (shaped FieldDef.ofJson?) d) }
  | _ => do d.skip; return draft

def ofDocument : Document → Except Fault FacetDef :=
  Document.record ["row", "column"] step {} fun positional draft => return {
    row := ← optionalSlot positional draft.row
    column := ← optionalSlot positional draft.column }

end FacetDef

namespace ChartSpec

structure Draft where
  name : Option (Option String) := none
  data : Option (Option Data) := none
  mark : Option (Option MarkDef) := none
  encoding : Option Encoding := none
  transform : Option (List TransformDef) := none
  facet : Option (Option FacetDef) := none
  inner : Option (Option ChartSpec) := none
  layer : Option (List ChartSpec) := none

def step (inner : Document → Except Fault ChartSpec) (draft : Draft) (key : String) (d : Document) :
    Except Fault Draft :=
  match key with
  | "name" => return { draft with name := ← fill draft.name (nullable Document.text d) }
  | "data" => return { draft with data := ← fill draft.data (nullable Data.ofDocument d) }
  | "mark" => return { draft with mark := ← fill draft.mark (nullable (shaped MarkDef.ofJson?) d) }
  | "encoding" =>
    return { draft with
      encoding := ← fill draft.encoding
        (Document.map Channel.ofName? (shaped FieldDef.channelDefs?) d) }
  | "transform" =>
    return { draft with
      transform := ← fill draft.transform (Document.list (shaped TransformDef.ofJson?) d) }
  | "facet" => return { draft with facet := ← fill draft.facet (nullable FacetDef.ofDocument d) }
  | "spec" => return { draft with inner := ← fill draft.inner (nullable inner d) }
  | "layer" => return { draft with layer := ← fill draft.layer (Document.list inner d) }
  | _ => do d.skip; return draft

def memberNames : List String :=
  ["name", "data", "mark", "encoding", "transform", "facet", "spec", "layer"]

/-- An encoding, a transform list and layers may always be left out. -/
def finish (positional : Bool) (draft : Draft) : Except Fault ChartSpec := return {
  name := ← optionalSlot positional draft.name
  data := ← optionalSlot positional draft.data
  mark := ← optionalSlot positional draft.mark
  encoding := draft.encoding.getD []
  transform := draft.transform.getD []
  facet := ← optionalSlot positional draft.facet
  inner := ← optionalSlot positional draft.inner
  layer := draft.layer.getD [] }

/-- Reads charts nested less deep than the fuel. -/
def read : Nat → Document → Except Fault ChartSpec
  | 0, d => d.mismatch
  | fuel + 1, d => Document.record memberNames (step (read fuel)) {} finish d

/-- Charts cannot be nested deeper than their document. -/
def ofDocument (d : Document) : Except Fault ChartSpec := read (d.depth + 1) d

def ofJson? (v : Json) : Option ChartSpec := (ofDocument (Document.ofJson v)).toOption

def ofText (s : String) : Except Fault ChartSpec :=
  (Json.Text.ofString (some Json.depthLimit) s).read ofDocument

end ChartSpec

end ChartPipeline
