import ChartPipeline.Assembly
import ChartPipeline.Options
import ChartPipeline.Pruning

/-!
# Sessions

The dataflow of one or more charts. Every model adds a chain of nodes: below its source if it
declares data, else below the main checkpoint of the model around it. Models that declare the same
data share a source.
-/

namespace ChartPipeline

/-- A part of the chain that a model adds, in order: a node, or something to tell. -/
inductive Link where
  | node (n : Node)
  | tell (e : Event)

namespace Model

def declaredLinks (m : Model) : List Link :=
  (m.transforms.filterMap fun
    | .unsupported keys => some (.tell (.transformSkipped keys))
    | _ => none) ++
  m.transforms.filterMap fun
    | .filter d => some (.node (.filter d))
    | .calculate c => some (.node (.calculate c))
    | .unsupported _ => none

def facetLinks (m : Model) : List Link :=
  if m.facet?.isSome then [.node (.facet (.ofModel m))] else []

def binLinks (m : Model) (o : Options) : List Link :=
  let bin := Binning.ofModel m o.numberFormat
  (Node.binNotices m).map .tell ++ if bin.entries.isEmpty then [] else [.node (.bin bin)]

def timeUnitLinks (m : Model) : List Link :=
  let units := TimeUnits.ofModel m
  if units.isEmpty then [] else [.node (.timeUnit units)]

/-- What a model does to the rows before it groups them. -/
def rawLinks (m : Model) (o : Options) : List Link :=
  m.facetLinks ++ m.declaredLinks ++ [.node (.nullFilter (NullFilter.ofModel m o.filterInvalid))] ++
    m.binLinks o ++ m.timeUnitLinks

/-- What a model does to the rows after that. -/
def mainNodes (m : Model) : List Node :=
  let aggregation := Aggregation.ofModel m
  let positive := PositiveFilter.ofModel m
  let order := PathOrder.ofModel m
  (if aggregation.isEmpty then [] else [.aggregate aggregation]) ++
    (Stacking.ofModel m).toList.map .stack ++
    (if positive.isEmpty then [] else [.positiveFilter positive]) ++
    if order.isEmpty then [] else [.order order]

def rawName (m : Model) : String := m.nameOf "raw"

def mainName (m : Model) : String := m.nameOf "main"

def shownName (m : Model) : String := if m.name = "" then "<root>" else m.name

end Model

/-- The nodes by which the chain of a model is known. -/
structure Chain where
  root : NodeId
  raw : NodeId
  main : NodeId
  facet : Option NodeId
deriving DecidableEq, Repr

structure Session where
  options : Options := {}
  graph : Graph := {}
  /-- The sources by the compact JSON of their data. A table by the SHA-256 digests of these texts, as
  stores of sources usually have it, finds the same unless two digests collide. -/
  sources : OrderedMap String NodeId := []
  outputs : OrderedMap String NodeId := []
  events : List Event := []

namespace Session

def tell (s : Session) (e : Event) : Session := { s with events := s.events ++ [e] }

/-- Adds a node, below another one if given. Its number is the old size of the graph. -/
def add (s : Session) (parent : Option NodeId) (n : Node) : Session :=
  { s with
    graph := match parent with
      | some parent => s.graph.addChild parent n
      | none => s.graph.add n }.tell (s.graph.addNotice n)

def addLinks (s : Session) (head : NodeId) : List Link → Session × NodeId
  | [] => (s, head)
  | .tell e :: rest => (s.tell e).addLinks head rest
  | .node n :: rest => (s.add (some head) n).addLinks s.graph.size rest

/-- Adds a checkpoint. Of two with the same name, the last one is known by it. -/
def addCheckpoint (s : Session) (parent : NodeId) (name : String) (required : Bool) :
    Session × NodeId :=
  let id := s.graph.size
  let added := s.add (some parent) (.checkpoint { name, required })
  let known := { added with outputs := added.outputs.put name id }
  let isRepeated := (OrderedMap.find? name s.outputs).isSome
  (if isRepeated then known.tell (.checkpointReplaced name) else known, id)

/-- The source of some data: the one that is there, or a new one. It is looked up by the compact JSON
of the data and not by its digest. -/
def sourceFor (s : Session) (d : Data) : Session × NodeId :=
  match OrderedMap.find? d.identity s.sources with
  | some id => (s.tell (.sourceReused id), id)
  | none =>
    let id := s.graph.size
    let added := s.add none (.source (.ofData d))
    ({ added with sources := added.sources.put d.identity id }, id)

def parseBelow? (g : Graph) (id : NodeId) : Option (NodeId × Coercions) := do
  let t ← g.tree? id
  t.below.roots.findSome? fun v => v.node.coercions?.map (v.id, ·)

/-- Adds the coercions of a model without data of its own to the source that it reads. -/
def coerce (s : Session) (main : NodeId) (c : Coercions) : Session :=
  if c.isEmpty then s
  else match s.graph.ancestor? Node.isSource main with
    | none => s
    | some source =>
      match parseBelow? s.graph source with
      | none => s.add (some source) (.parse c)
      | some (id, before) =>
        { s with
          graph := s.graph.update id fun n => (n.merge? (.parse c)).getD n
          events := s.events ++ (before.conflicts c).map .coercionReplaced }

/-- Where the chain of a model begins: its root and its first node. -/
def begin (s : Session) (m : Model) (above : Option NodeId) : Option (Session × NodeId × NodeId) :=
  let coercions := Coercions.ofModel m
  match m.data, above with
  | some data, _ =>
    let (s, root) := s.sourceFor data
    some (s.add (some root) (.parse coercions), root, s.graph.size)
  | none, some main => some (s.coerce main coercions, main, main)
  | none, none => none

def addChain (s : Session) (m : Model) (root head : NodeId) : Session × Chain :=
  let first := s.graph.size
  let (s, head) := s.addLinks head (m.rawLinks s.options)
  let (s, raw) := s.addCheckpoint head m.rawName false
  let (s, head) := s.addLinks raw (m.mainNodes.map .node)
  let (s, main) := s.addCheckpoint head m.mainName true
  (s, { root, raw, main, facet := if m.facet?.isSome then some first else none })

/-- A session that could not go on. What was added before stays. -/
structure Failure where
  session : Session
  cause : CompileError

/-- What is wrong with a model that inherits its data where no source is above to take its
coercions. -/
def unsourced? (s : Session) (m : Model) (above : Option NodeId) : Option SpecError := do
  let main ← above
  guard (m.data.isNone && !(Coercions.ofModel m).isEmpty)
  guard (s.graph.ancestor? Node.isSource main).isNone
  return .noSourceAbove main

/-- Adds the chain of a model, given the main checkpoint of the model around it. A layer may do
without data, if all its layers bring their own. -/
def addModel (s : Session) (m : Model) (above : Option NodeId) :
    Except Failure (Session × Option Chain) :=
  match s.unsourced? m above with
  | some cause => .error ⟨s, .invalidSpec cause⟩
  | none =>
    match s.begin m above, m.kind with
    | some (s, root, head), _ =>
      let (s, chain) := s.addChain m root head
      .ok (s, some chain)
    | none, .layer => .ok (s, none)
    | none, _ => .error ⟨s, .missingData m.shownName⟩

def addModels (above : Option NodeId) : Forest Model → Session → Except Failure Session
  | .nil, s => .ok s
  | .cons m below rest, s => do
    let (s, chain) ← s.addModel m above
    let s ← addModels (chain.map Chain.main) below s
    addModels above rest s

def addChart (s : Session) (chart : Tree Model) : Except Failure (Session × Option Chain) := do
  let (s, chain) ← s.addModel chart.label none
  return (← addModels (chain.map Chain.main) chart.below s, chain)

/-- The sources, in the order in which they were declared. -/
def roots (s : Session) : List NodeId := s.sources.map Prod.snd

def output? (s : Session) (name : String) : Option NodeId := OrderedMap.find? name s.outputs

def require (s : Session) (name : String) : Session :=
  match s.output? name with
  | some id => { s with graph := s.graph.update id Node.require }
  | none => s

end Session

/-- What a chart compiles to: records, and the names of those that hold the data of
checkpoints. -/
structure Compiled where
  data : List Record
  outputs : OrderedMap String String

def Compiled.source? (c : Compiled) (checkpoint : String) : Option String :=
  OrderedMap.find? checkpoint c.outputs

def Compiled.toJson (c : Compiled) : Json :=
  .object [("data", .array (c.data.map Record.toJson))]

namespace Session

def bindings (outputs : OrderedMap String NodeId) (g : Graph) : OrderedMap String String :=
  outputs.filterMap fun (name, id) =>
    match g.node? id with
    | some (.checkpoint c) => if g.isDetached id then none else c.source.map (name, ·)
    | _ => none

def finish (s : Session) : List Event × Except CompileError Compiled :=
  let outcome := (s.graph.optimize s.roots).assemble s.roots
  (s.graph.optimizeNotices s.roots ++ outcome.events,
    outcome.records.map fun data => { data, outputs := bindings s.outputs outcome.graph })

end Session

end ChartPipeline
