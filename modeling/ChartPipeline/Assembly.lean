import ChartPipeline.Graph

/-!
# Assembly

The forest becomes a list of records. A record is carried down from a source and takes in the
transforms of the nodes that it passes. Where the way forks, the record is complete: it goes to the
list, and every branch starts with an alias of it. At a facet it is complete too; what lies below
facets follows after all sources, the outer facets before the inner ones.

The walk notes its steps in order. A misplaced node is one of the steps, and what follows the first
of them does not count.
-/

namespace ChartPipeline

namespace Coercions

def mergeAll (cs : List Coercions) : Coercions := cs.foldl merge []

/-- What merging replaces, after what is already there. -/
def conflictsFrom (c : Coercions) : List Coercions → List Conflict
  | [] => []
  | other :: rest => c.conflicts other ++ conflictsFrom (c.merge other) rest

end Coercions

namespace Record

/-- The name under which others read a record that refers to another one and adds nothing. -/
def aliased? (r : Record) : Option String := if r.isAlias then r.source else none

def withCoercions (r : Record) (c : Coercions) : Record :=
  if c.isEmpty then r else { r with format := some { r.format.getD {} with parse := some c } }

end Record

namespace Assembly

inductive Step where
  /-- A record is complete. -/
  | emit (r : Record)
  /-- So is a record with the distinct values of a facet. -/
  | index (r : Record)
  /-- A node stands for a record. -/
  | name (node : NodeId) (record : String)
  | tell (e : Event)
  | fail (cause : CompileError)

namespace Step

def record? : Step → Option Record
  | .emit r | .index r => some r
  | _ => none

def events : Step → List Event
  | .emit r => [.emitted r.name r.transform.length]
  | .tell e => [e]
  | _ => []

def cause? : Step → Option CompileError
  | .fail cause => some cause
  | _ => none

def apply (g : Graph) : Step → Graph
  | .name node record => g.update node (Node.named record)
  | _ => g

end Step

/-- The steps so far, and the numbers of the next names to make up. -/
structure Trail where
  steps : List Step := []
  nextSource : Nat := 0
  nextRecord : Nat := 0

abbrev Walk := StateM Trail

def note (step : Step) : Walk Unit := modify fun t => { t with steps := t.steps ++ [step] }

def noteAll (steps : List Step) : Walk Unit := modify fun t => { t with steps := t.steps ++ steps }

def Trail.nameOf? (t : Trail) (node : NodeId) : Option String :=
  t.steps.reverse.findSome? fun
    | .name other record => if other = node then some record else none
    | _ => none

def sourceName : Walk String :=
  modifyGet fun t => ("source_" ++ Nat.repr t.nextSource, { t with nextSource := t.nextSource + 1 })

def recordName : Walk String :=
  modifyGet fun t => ("data_" ++ Nat.repr t.nextRecord, { t with nextRecord := t.nextRecord + 1 })

/-- Completes a record, and tells under which name others read it. -/
def complete (r : Record) : Walk String := do
  match r.aliased? with
  | some source => return source
  | none =>
    let name ← match r.name with
      | some name => pure name
      | none => recordName
    note (.emit { r with name := some name })
    return name

/-- Ends a record at a checkpoint that has to be addressable, and lets the others pass. A record
without a name takes that of the checkpoint, and below the checkpoint goes on as an alias. -/
def atCheckpoint (above : Node) (id : NodeId) (c : Checkpoint) (below : Forest Vertex)
    (r : Record) : Walk Record := do
  if !Graph.demands (some above) (.checkpoint c) || r.isAlias then
    noteAll ((r.name <|> r.source).toList.map (.name id))
    return r
  let name := r.name.getD c.name
  let named := { r with name := some name }
  match below with
  | .nil =>
    note (.name id name)
    return named
  | .cons .. =>
    noteAll [.emit named, .tell (.sealed c.name name), .name id name]
    return .ofSource name

/-- Takes a record past a node, given the node above and what is below. Nothing goes on below a
facet. -/
def pass (above : Node) (v : Vertex) (below : Forest Vertex) (r : Record) :
    Walk (Option Record) := do
  match v.node with
  | .parse _ =>
    unless above.isSource do note (.fail (.misplacedParse v.id))
    return some r
  | .checkpoint c => return some (← atCheckpoint above v.id c below r)
  | .facet _ =>
    note (.name v.id (← complete r))
    return none
  | n =>
    noteAll (n.notices.map .tell)
    return some { r with transform := r.transform ++ n.transforms }

/-- Hands a record to the trees of a row. Where there is none, it is complete, unless it is an
alias; to several it is handed as an alias. -/
def handOver (row : Forest Vertex) (r : Record) : Walk Record := do
  match row with
  | .nil =>
    unless r.isAlias do note (.emit r)
    return r
  | .cons _ _ .nil => return r
  | .cons .. => return .ofSource (← complete r)

/-- Carries a record down each tree of a row below a node. -/
def walk (above : Node) (r : Record) : Forest Vertex → Walk Unit
  | .nil => return
  | .cons v below rest => do
    if let some passed ← pass above v below r then
      walk v.node (← handOver below passed) below
    walk above r rest

/-- The record that a source starts with: named, and with the coercions directly below it. -/
def seed (id : NodeId) (s : Source) (below : Forest Vertex) : Walk Record := do
  let name ← match s.name <|> (← get).nameOf? id with
    | some name => pure name
    | none => sourceName
  note (.name id name)
  let coercions := below.roots.filterMap (·.node.coercions?)
  noteAll ((Coercions.conflictsFrom [] coercions).map fun c => .tell (.coercionReplaced c))
  return { s with name := some name }.record.withCoercions (.mergeAll coercions)

/-- Everything from a source down to the first facets. -/
def fromRoot (t : Tree Vertex) : Walk Unit := do
  match t.label.node with
  | .source s => walk t.label.node (← handOver t.below (← seed t.label.id s t.below)) t.below
  | _ => note (.fail (.invalidSpec (.rootIsNoSource t.label.id)))

/-- The index records of a facet, and everything below it. -/
def fromFacet (t : Tree Vertex) : Walk Unit := do
  match t.label.node, (← get).nameOf? t.label.id with
  | .facet f, some source =>
    noteAll (({ f with source := some source } : FacetSplit).records.map .index)
    walk t.label.node (.ofSource source) t.below
  | _, _ => return

/-- The facets below the roots, the outer ones first. -/
def facets (roots : List (Tree Vertex)) : List (Tree Vertex) :=
  (roots.map fun t => t.below.levels (·.node.isFacet)).foldr Forest.joinLevels [] |>.flatten

def run (roots : List (Tree Vertex)) : Walk Unit := do
  roots.forM fromRoot
  (facets roots).forM fromFacet

structure Outcome where
  /-- The graph, in which sources, checkpoints and facets know their records. -/
  graph : Graph
  events : List Event
  records : Except CompileError (List Record)

/-- What the steps before the first failure amount to. -/
def outcome (g : Graph) (steps : List Step) : Outcome :=
  let done := steps.takeWhile (·.cause?.isNone)
  { graph := done.foldl Step.apply g
    events := done.flatMap Step.events
    records := match steps.findSome? Step.cause? with
      | some cause => .error cause
      | none => .ok (done.filterMap Step.record?) }

end Assembly

def Graph.assemble (g : Graph) (roots : List NodeId) : Assembly.Outcome :=
  Assembly.outcome g ((Assembly.run (roots.filterMap g.tree?)).run {}).2.steps

end ChartPipeline
