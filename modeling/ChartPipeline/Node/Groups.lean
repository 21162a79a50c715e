import ChartPipeline.Model
import ChartPipeline.Record

/-!
# Nodes that work on groups of rows

Rows are aggregated by the fields that are not aggregated themselves, stacked, and sorted along a
path.
-/

namespace ChartPipeline

/-! ## Aggregation -/

structure Aggregation where
  dimensions : List String := []
  measures : OrderedMap String (List AggregateOp) := []
deriving DecidableEq, Repr

namespace Aggregation

/-- The fields that a definition groups by: all three of a bin. -/
def keys (d : FieldDef) : List String :=
  if d.isBinned then
    [d.derivedName (some .start), d.derivedName (some .end), d.derivedName (some .range)]
  else [d.derivedName none]

def addOps (measures : OrderedMap String (List AggregateOp)) (field : String)
    (ops : List AggregateOp) : OrderedMap String (List AggregateOp) :=
  measures.put field (OrderedSet.union ((OrderedMap.find? field measures).getD []) ops)

/-- The operators that a definition asks for. A scale over the values before aggregation needs
their extremes. -/
def ops (m : Model) (c : Channel) (op : AggregateOp) : List AggregateOp :=
  op :: if (m.scaleDef? c).any ScaleDef.isUnaggregated then [.min, .max] else []

/-- Adds what a definition asks for. Counting needs no field. -/
def add (m : Model) (a : Aggregation) (entry : Channel × FieldDef) : Aggregation :=
  let (c, d) := entry
  match d.aggregate, d.field with
  | some .count, _ => { a with measures := addOps a.measures "*" [.count] }
  | some op, some field => { a with measures := addOps a.measures field (ops m c op) }
  | none, some _ => { a with dimensions := OrderedSet.union a.dimensions (keys d) }
  | _, none => a

/-- Only units aggregate. -/
def ofModel (m : Model) : Aggregation :=
  if m.unit?.isSome then m.fieldDefs.foldl (add m) {} else {}

def isEmpty (a : Aggregation) : Bool := a.dimensions.isEmpty && a.measures.isEmpty

/-- Adds the measures of another aggregation; the groups stay. -/
def merge (a other : Aggregation) : Aggregation :=
  { a with measures := other.measures.foldl (fun m entry => addOps m entry.1 entry.2) a.measures }

def pairs (a : Aggregation) : List (AggregateOp × String) :=
  a.measures.flatMap fun entry => entry.2.map (·, entry.1)

def transform (a : Aggregation) : Transform := .aggregate a.dimensions a.pairs

end Aggregation

/-! ## Stacking -/

/-- The sort that definitions on the order channel ask for, ascending unless they say otherwise. -/
def orderSort (defs : List FieldDef) : SortSpec :=
  defs.map fun d => (d.derivedName (some .start), d.sort.getD .ascending)

structure Stacking where
  groupby : List String
  field : String
  stackBy : List String
  sort : SortSpec
  offset : StackOffset
  /-- Missing members count as zero. -/
  imputes : Bool
deriving DecidableEq, Repr

namespace Stacking

/-- The fields of the channel that groups the stacks: start and end of a bin. -/
def groupKeys (m : Model) (c : Channel) : List String :=
  match m.fieldDef? c with
  | some d =>
    if d.isBinned then [d.derivedName (some .start), d.derivedName (some .end)]
    else [d.derivedName none]
  | none => []

/-- The field of a member of a stack: the range of a bin if the scale is discrete. -/
def memberKey (m : Model) (c : Channel) (d : FieldDef) : String :=
  d.derivedName (some (if m.isDiscrete c then .range else .start))

def ofModel (m : Model) : Option Stacking := do
  let u ← m.unit?
  let stack ← u.stack
  let stackBy := stack.stackBy.map fun (c, d) => memberKey m c d
  let order := u.encoding.defs .order
  return {
    groupby := stack.groupby.elim [] (groupKeys m)
    field := ← m.field? stack.measure none
    stackBy
    sort := if order.isEmpty then stackBy.map (·, .descending) else orderSort order
    offset := stack.offset
    imputes := u.mark.isPath }

def transforms (s : Stacking) : List Transform :=
  (if s.imputes then [.impute s.field s.stackBy s.groupby] else []) ++
    [.stack s.groupby s.field s.sort (s.field ++ "_start") (s.field ++ "_end") s.offset]

end Stacking

/-! ## Paths -/

namespace PathOrder

/-- The channel along which a path runs. -/
def dimension (orient : Option Orient) : Channel := if orient = some .horizontal then .y else .x

/-- The order of the points of a path. A line follows the order channel if that has a field. -/
def ofModel (m : Model) : SortSpec :=
  match m.unit? with
  | none => []
  | some u =>
    let order := u.encoding.defs .order
    if !u.mark.isPath then []
    else if u.mark = .line && order.any (·.field.isSome) then orderSort order
    else (m.field? (dimension u.orient) (some .start)).toList.map (·, .descending)

end PathOrder

end ChartPipeline
