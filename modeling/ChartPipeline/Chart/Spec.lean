import ChartPipeline.Chart.Field
import ChartPipeline.Chart.Filter

/-!
# Chart specifications

What a chart declares: its data, its transforms, and either a mark with an encoding, or the charts
that it is made of.
-/

namespace ChartPipeline

/-- Kinds to which fields are coerced when data is loaded, by field. -/
abbrev Coercions := OrderedMap String String

structure DataFormat where
  type : Option String := none
  parse : Option Coercions := none
  property : Option String := none

/-- A declaration of input data. Its JSON form is the identity of the data. -/
structure Data where
  name : Option String := none
  url : Option String := none
  values : Option (List Json) := none
  format : Option DataFormat := none

def Data.parse (d : Data) : Coercions := ((d.format.bind DataFormat.parse).getD [])

structure MarkDef where
  mark : Mark
  orient : Option Orient := none
  stack : Option StackOffset := none
deriving DecidableEq, Repr

abbrev Encoding := OrderedMap Channel (List FieldDef)

namespace Encoding

def defs (e : Encoding) (c : Channel) : List FieldDef := (OrderedMap.find? c e).getD []

/-- The first definition on a channel, which decides about the channel. -/
def first? (e : Encoding) (c : Channel) : Option FieldDef := (e.defs c).head?

def all (e : Encoding) : List (Channel × FieldDef) :=
  e.flatMap fun entry => entry.2.map (entry.1, ·)

end Encoding

structure Calculate where
  expr : String
  target : String
deriving DecidableEq, Repr

/-- An entry of a transform list. Of an entry that takes no part only the keys are kept. -/
inductive TransformDef where
  | calculate (c : Calculate)
  | filter (f : FilterDef)
  | unsupported (keys : List String)
deriving DecidableEq

structure FacetDef where
  row : Option FieldDef := none
  column : Option FieldDef := none

structure ChartSpec where
  name : Option String
  data : Option Data
  mark : Option MarkDef
  encoding : Encoding
  transform : List TransformDef
  facet : Option FacetDef
  inner : Option ChartSpec
  layer : List ChartSpec

end ChartPipeline
