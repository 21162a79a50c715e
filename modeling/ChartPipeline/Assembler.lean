import ChartPipeline.Assembly

/-!
# Assembling with a stack

The usual way to carry records through a graph is a loop over a stack: it takes the last node that
was put there with its record, changes the graph, and puts the children there in reverse. Made-up
names, the queue of facets and the names in the graph are shared by all branches while the records
of those that wait are fixed already.
-/

namespace ChartPipeline

def Node.under (name : Option String) (n : Node) : Node := name.elim n.unnamed n.named

/-- A graph that is walked over, and what has come of it so far. -/
structure Assembler where
  graph : Graph
  data : List Record := []
  /-- The facets that the walk came to. -/
  facets : List NodeId := []
  nextRecord : Nat := 0
  events : List Event := []

/-- A part of a walk. It stops at the first failure. -/
abbrev Task := EStateM CompileError Assembler

namespace Assembler

def tell (events : List Event) : Task Unit :=
  modify fun s => { s with events := s.events ++ events }

def emit (r : Record) : Task Unit :=
  modify fun s => { s with
    data := s.data ++ [r]
    events := s.events ++ [.emitted r.name r.transform.length] }

def rename (id : NodeId) (name : Option String) : Task Unit :=
  modify fun s => { s with graph := s.graph.update id (Node.under name) }

def enqueue (id : NodeId) : Task Unit := modify fun s => { s with facets := s.facets ++ [id] }

def recordName : Task String :=
  modifyGet fun s => ("data_" ++ Nat.repr s.nextRecord, { s with nextRecord := s.nextRecord + 1 })

/-- Emits a record, and tells under which name others read it. Of an alias that is its target. -/
def complete (r : Record) : Task String := do
  match r.aliased? with
  | some source => return source
  | none =>
    let name ← match r.name with
      | some name => pure name
      | none => recordName
    emit { r with name := some name }
    return name

/-- At a checkpoint that has to be addressable, a record gets a name and, if anything follows, goes
on as an alias of what it is so far. -/
def visitCheckpoint (id : NodeId) (c : Checkpoint) (r : Record) : Task Record := do
  let s ← get
  if !s.graph.needsAssembly id || r.isAlias then
    rename id (r.name <|> r.source)
    return r
  else if (s.graph.children id).isEmpty then
    rename id (r.name.getD c.name)
    return { r with name := some (r.name.getD c.name) }
  else
    let name ← complete { r with name := some (r.name.getD c.name) }
    tell [.sealed c.name name]
    rename id name
    return .ofSource name

/-- What a node does to the record that comes to it. Nothing goes on below a facet. -/
def act (id : NodeId) (r : Record) : Task (Option Record) := do
  let s ← get
  match s.graph.node? id with
  | some (.parse _) =>
    unless ((s.graph.parent? id).bind s.graph.node?).any Node.isSource do throw (.misplacedParse id)
    return some r
  | some (.checkpoint c) => return some (← visitCheckpoint id c r)
  | some (.facet _) =>
    rename id (← complete r)
    enqueue id
    return none
  | some n =>
    tell n.notices
    return some { r with transform := r.transform ++ n.transforms }
  | none => return none

/-- Takes a node from the stack, with its record. Of several children the last is put on the stack
first. -/
def step (id : NodeId) (r : Record) (work : List (NodeId × Record)) :
    Task (List (NodeId × Record)) := do
  match ← act id r with
  | none => return work
  | some passed =>
    match (← get).graph.children id with
    | [] =>
      unless passed.isAlias do emit passed
      return work
    | [only] => return (only, passed) :: work
    | row =>
      let name ← complete passed
      return row.reverse.foldl (fun work child => (child, .ofSource name) :: work) work

/-- Works through a stack, up to a failure. -/
inductive Works : List (NodeId × Record) → Assembler →
    EStateM.Result CompileError Assembler Unit → Prop
  | done : Works [] s (.ok () s)
  | fail {id : NodeId} : (step id r work).run s = .error cause t →
      Works ((id, r) :: work) s (.error cause t)
  | next {id : NodeId} : (step id r work).run s = .ok more t → Works more t out →
      Works ((id, r) :: work) s out

/-- Hands a record on to the children of a node. With no child it is emitted, unless it is an alias;
an only child gets it as it is; to several, it is handed as an alias of the name that it is
completed with. -/
def handOn (row : Forest Vertex) (r : Record) : Task Record := do
  match row with
  | .nil =>
    unless r.isAlias do emit r
    return r
  | .cons _ _ .nil => return r
  | .cons .. => return .ofSource (← complete r)

/-- The recursion: the trees of a row from left to right, each with the same record. -/
def descend (r : Record) : Forest Vertex → Task Unit
  | .nil => return
  | .cons v below rest => do
    if let some passed ← act v.id r then
      descend (← handOn below passed) below
    descend r rest

end Assembler

end ChartPipeline
