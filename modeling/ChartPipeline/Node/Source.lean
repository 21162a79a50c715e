import ChartPipeline.Digest
import ChartPipeline.Json.Printer
import ChartPipeline.Model
import ChartPipeline.Record

/-!
# Sources, checkpoints and facets

The nodes that give records their names: sources start a record, checkpoints end one, and facets
hand a record over to the rows and columns of a chart.
-/

namespace ChartPipeline

namespace Data

/-- What makes two declarations the same data: their compact JSON form. -/
def identity (d : Data) : String := d.toJson.compact

def digest (d : Data) : String := Digest.hexOfText d.identity

end Data

/-- A distinct set of input data. Without a declared name it gets one when it is assembled. -/
structure Source where
  data : Data
  name : Option String

namespace Source

def ofData (d : Data) : Source := { data := d, name := d.name }

/-- The text behind the last dot, if there is a dot. -/
def extension? (path : List Char) : Option (List Char) :=
  if path.contains '.' then some (path.reverse.takeWhile (· ≠ '.')).reverse else none

/-- The format of a file by the extension of its path, which is JSON unless it is known. -/
def formatOfUrl (url : String) : String :=
  let path := url.toList.takeWhile fun c => c ≠ '?' && c ≠ '#'
  let known (extension : List Char) : Option String :=
    let name := String.ofList (extension.map Char.toLower)
    if name = "csv" || name = "tsv" || name = "topojson" then some name else none
  ((extension? path).bind known).getD "json"

/-- The record that a source starts with. Coercions are added to it later. -/
def record (s : Source) : Record :=
  let declared := s.data.format
  let type := (declared.bind DataFormat.type) <|> s.data.url.map formatOfUrl
  let property := declared.bind DataFormat.property
  { name := s.name
    url := s.data.url
    values := s.data.values
    format := if type.isSome || property.isSome then some { type, property } else none }

end Source

/-- A named point of the pipeline. Once assembled, it knows the record that holds its data. -/
structure Checkpoint where
  name : String
  required : Bool
  source : Option String := none
deriving DecidableEq, Repr

structure FacetSplit where
  row : Option String := none
  column : Option String := none
  source : Option String := none
deriving DecidableEq, Repr

namespace FacetSplit

def ofModel (m : Model) : FacetSplit :=
  { row := m.field? .row none, column := m.field? .column none }

def indexRecord (label field source : String) : Record :=
  { name := some (label ++ source), source := some source, transform := [.aggregate [field] []] }

def records (f : FacetSplit) : List Record :=
  match f.source with
  | none => []
  | some source =>
    (f.column.map (indexRecord "column_" · source)).toList ++
      (f.row.map (indexRecord "row_" · source)).toList

end FacetSplit

end ChartPipeline
