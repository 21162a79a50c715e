import ChartPipeline.Event
import ChartPipeline.Node.Groups
import ChartPipeline.Node.Rows
import ChartPipeline.Node.Source

/-!
# Nodes

What a dataflow is made of. Nodes that work on rows append transforms to the record that passes
through them; the others shape the records themselves.
-/

namespace ChartPipeline

inductive Node where
  | source (s : Source)
  | parse (c : Coercions)
  | filter (d : FilterDef)
  | calculate (c : Calculate)
  | nullFilter (fields : List String)
  | bin (b : Binning)
  | timeUnit (u : TimeUnits)
  | aggregate (a : Aggregation)
  | stack (s : Stacking)
  | positiveFilter (f : PositiveFilter)
  | order (sort : SortSpec)
  | checkpoint (c : Checkpoint)
  | facet (f : FacetSplit)

namespace Node

def kind : Node → String
  | .source _ => "source"
  | .parse _ => "parse"
  | .filter _ => "filter"
  | .calculate _ => "calculate"
  | .nullFilter _ => "nullfilter"
  | .bin _ => "bin"
  | .timeUnit _ => "timeunit"
  | .aggregate _ => "aggregate"
  | .stack _ => "stack"
  | .positiveFilter _ => "nonpositivefilter"
  | .order _ => "order"
  | .checkpoint _ => "output"
  | .facet _ => "facet"

/-- What a node appends to the record that passes through it. -/
def transforms : Node → List Transform
  | .source _ | .parse _ | .checkpoint _ | .facet _ => []
  | .filter d => [.filter (Expression.filterDef d)]
  | .calculate c => [.formula c.expr c.target]
  | .nullFilter fields => NullFilter.transforms fields
  | .bin b => b.transforms
  | .timeUnit u => TimeUnits.transforms u
  | .aggregate a => [a.transform]
  | .stack s => s.transforms
  | .positiveFilter f => PositiveFilter.transforms f
  | .order sort => [.collect sort]

def notices : Node → List Event
  | .filter d => (Expression.unknownNamesInDef d).map .unknownDateName
  | _ => []

def isSource : Node → Bool
  | .source _ => true
  | _ => false

def isParse : Node → Bool
  | .parse _ => true
  | _ => false

def isCheckpoint : Node → Bool
  | .checkpoint _ => true
  | _ => false

def isFacet : Node → Bool
  | .facet _ => true
  | _ => false

def coercions? : Node → Option Coercions
  | .parse c => some c
  | _ => none

def require : Node → Node
  | .checkpoint c => .checkpoint { c with required := true }
  | n => n

def merge? : Node → Node → Option Node
  | .parse c, .parse other => some (.parse (c.merge other))
  | .aggregate a, .aggregate other => some (.aggregate (a.merge other))
  | _, _ => none

def binNotices (m : Model) : List Event :=
  (Binning.ignored m).map fun (c, e) => .binIgnored e.field c

def mergeNotices : Node → Node → List Event
  | .parse c, .parse other => (c.conflicts other).map .coercionReplaced
  | _, _ => []

/-- A source, checkpoint or facet with the name of the record it stands for. -/
def named (name : String) : Node → Node
  | .source s => .source { s with name := some name }
  | .checkpoint c => .checkpoint { c with source := some name }
  | .facet f => .facet { f with source := some name }
  | n => n

def unnamed : Node → Node
  | .source s => .source { s with name := none }
  | .checkpoint c => .checkpoint { c with source := none }
  | .facet f => .facet { f with source := none }
  | n => n

end Node

end ChartPipeline
