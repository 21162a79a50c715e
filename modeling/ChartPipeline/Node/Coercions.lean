import ChartPipeline.Model

/-!
# Coercions

The kinds that a model's fields are coerced to when its data is loaded. Filters and encodings ask
for kinds, and so may the data itself; of several requests for a field the last one counts.
-/

namespace ChartPipeline.Coercions

/-- The kind of a compared value; truth values ask for nothing. -/
def kindOfValue : FilterValue → Option String
  | .dateTime _ => some "date"
  | .number _ => some "number"
  | .text _ => some "string"
  | .bool _ => none

/-- A predicate asks for the kind of its first value. -/
def ofFilter (f : Filter) : Option (String × String) := do
  let p ← f.predicate?
  return (p.field, ← kindOfValue (← p.comparison.firstValue))

def ofTransform : TransformDef → List (String × String)
  | .filter f => f.filters.filterMap ofFilter
  | _ => []

def calculated (transforms : List TransformDef) : List String :=
  transforms.filterMap fun
    | .calculate c => some c.target
    | _ => none

/-- An encoded field asks for its type, except that there is nothing to coerce in a count or in a
calculated number. -/
def ofField (calculated : List String) (d : FieldDef) : Option (String × String) :=
  match d.field, d.fieldType with
  | some field, some .temporal => some (field, "date")
  | some field, some .quantitative =>
    if d.isCount || calculated.contains field then none else some (field, "number")
  | _, _ => none

def requests (m : Model) : List (String × String) :=
  m.transforms.flatMap ofTransform ++
  m.fieldDefs.filterMap (fun (_, d) => ofField (calculated m.transforms) d) ++
  (m.data.map Data.parse).getD []

def ofModel (m : Model) : Coercions := OrderedMap.union [] (requests m)

/-- Puts other coercions over these. -/
def merge (c other : Coercions) : Coercions := OrderedMap.union c other

structure Conflict where
  field : String
  before : String
  after : String
deriving DecidableEq, Repr

def conflicts (c other : Coercions) : List Conflict :=
  other.filterMap fun (field, after) =>
    match OrderedMap.find? field c with
    | some before => if before = after then none else some { field, before, after }
    | none => none

end ChartPipeline.Coercions
