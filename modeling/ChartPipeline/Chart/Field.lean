import ChartPipeline.Chart.Vocabulary
import ChartPipeline.Json.Basic

/-!
# Field definitions

A field of the data as a channel uses it: raw, counted, binned, aggregated or cut to a time unit.
The derivation decides the name of the field that the channel reads in the end.
-/

namespace ChartPipeline

/-- Parameters of a bin; what is not given is left to the binning transform. -/
structure BinParams where
  maxbins : Option Nat := none
  extent : Option (Json.Number × Json.Number) := none
  base : Option Float := none
  step : Option Float := none
  steps : Option (List Float) := none
  minstep : Option Float := none
  divide : Option (List Float) := none
  nice : Option Bool := none
deriving DecidableEq

namespace BinParams

def sameOption {α : Type} (same : α → α → Bool) : Option α → Option α → Bool
  | none, none => true
  | some a, some b => same a b
  | _, _ => false

def sameFloats : List Float → List Float → Bool
  | [], [] => true
  | a :: as, b :: bs => a == b && sameFloats as bs
  | _, _ => false

/-- Equal as numbers, so that a zero equals a negative zero. -/
def same (p q : BinParams) : Bool :=
  p.maxbins == q.maxbins &&
  sameOption (fun a b => a.1.same b.1 && a.2.same b.2) p.extent q.extent &&
  sameOption (· == ·) p.base q.base &&
  sameOption (· == ·) p.step q.step &&
  sameOption sameFloats p.steps q.steps &&
  sameOption (· == ·) p.minstep q.minstep &&
  sameOption sameFloats p.divide q.divide &&
  p.nice == q.nice

end BinParams

inductive BinSuffix where
  | start | «end» | range
deriving DecidableEq, Repr

def BinSuffix.name : BinSuffix → String
  | .start => "start"
  | .end => "end"
  | .range => "range"

/-- What a definition says about its scale. The domain is any value but `null`. -/
structure ScaleDef where
  scaleType : Option ScaleType := none
  domain : Option Json := none

def ScaleDef.isUnaggregated (s : ScaleDef) : Bool :=
  match s.domain with
  | some (.string text) => text == "unaggregated"
  | _ => false

structure FieldDef where
  field : Option String := none
  fieldType : Option FieldType := none
  aggregate : Option AggregateOp := none
  /-- The parameters if the field is binned. -/
  bin : Option BinParams := none
  timeUnit : Option TimeUnit := none
  scale : Option ScaleDef := none
  sort : Option SortOrder := none

namespace FieldDef

def isCount (d : FieldDef) : Bool := d.aggregate = some .count

def isBinned (d : FieldDef) : Bool := d.bin.isSome

def scaleType (d : FieldDef) : Option ScaleType := d.scale.bind ScaleDef.scaleType

def isUnaggregated (d : FieldDef) : Bool := d.scale.any ScaleDef.isUnaggregated

def rawField (d : FieldDef) : String := d.field.getD ""

/-- The field that the definition produces. A count wins over a bin, a bin over an aggregate, an
aggregate over a time unit; of a bin the start is meant unless a suffix says otherwise. -/
def derivedName (d : FieldDef) (suffix : Option BinSuffix) : String :=
  if d.isCount then "count_*"
  else if d.isBinned then "bin_" ++ d.rawField ++ "_" ++ (suffix.getD .start).name
  else match d.aggregate, d.timeUnit with
    | some op, _ => op.name ++ "_" ++ d.rawField
    | none, some unit => unit.name ++ "_" ++ d.rawField
    | none, none => d.rawField

def nameIfAny (d : FieldDef) (suffix : Option BinSuffix) : Option String :=
  if d.field.isSome || d.isCount then some (d.derivedName suffix) else none

end FieldDef

end ChartPipeline
