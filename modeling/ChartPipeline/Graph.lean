import ChartPipeline.Forest
import ChartPipeline.Node

/-!
# Graphs

The forest of nodes that a dataflow is built in. Nodes are numbered in the order in which they are
added, may be moved below other nodes, and are never deleted: a detached node leaves its children
in its place and stays behind on its own.
-/

namespace ChartPipeline

structure Vertex where
  id : NodeId
  node : Node

structure Graph where
  forest : Forest Vertex := .nil
  /-- How many nodes were added. -/
  size : Nat := 0
  detached : List NodeId := []

namespace Graph

def has (id : NodeId) (v : Vertex) : Bool := v.id == id

def tree? (g : Graph) (id : NodeId) : Option (Tree Vertex) := g.forest.find? (has id)

def node? (g : Graph) (id : NodeId) : Option Node := (g.tree? id).map (·.label.node)

def parent? (g : Graph) (id : NodeId) : Option NodeId :=
  ((g.forest.edges none).find? fun edge => edge.1.id == id).bind fun edge => edge.2.1.map Vertex.id

def children (g : Graph) (id : NodeId) : List NodeId :=
  (g.tree? id).elim [] fun t => t.below.roots.map Vertex.id

/-- The nodes from a parentless one down to a node. -/
def path (g : Graph) (id : NodeId) : List Vertex := (g.forest.path? (has id)).getD []

def descendants (g : Graph) (id : NodeId) : List NodeId :=
  (g.tree? id).elim [] fun t => t.label.id :: t.below.toList.map Vertex.id

/-- The nearest node that has the property, from the node itself upwards. -/
def ancestor? (g : Graph) (p : Node → Bool) (id : NodeId) : Option NodeId :=
  ((g.path id).reverse.find? fun v => p v.node).map Vertex.id

def isDetached (g : Graph) (id : NodeId) : Bool := g.detached.contains id

/-- The parentless nodes that are not detached, in the order in which they were added. -/
def roots (g : Graph) : List NodeId :=
  (List.range g.size).filter fun id =>
    (g.forest.roots.map Vertex.id).contains id && !g.isDetached id

/-- Adds a node without parent and children; its number is the old size. -/
def add (g : Graph) (n : Node) : Graph :=
  { g with forest := g.forest ++ .tree ⟨g.size, n⟩ .nil, size := g.size + 1 }

def addNotice (g : Graph) (n : Node) : Event := .added n.kind g.size

/-- Makes a node, with everything below it, the last child of another one. A node cannot be
attached to one that lies below it. -/
def attach (g : Graph) (child parent : NodeId) : Graph :=
  match g.tree? child with
  | none => g
  | some t =>
    let others := g.forest.remove (has child)
    if (others.find? (has parent)).isSome then
      { g with
        forest := others.changeBelow (has parent) fun _ below => below ++ .tree t.label t.below }
    else g

def addChild (g : Graph) (parent : NodeId) (n : Node) : Graph := (g.add n).attach g.size parent

/-- Puts the children of a node in its place. The node stays behind without parent and children,
marked as detached. -/
def detach (g : Graph) (id : NodeId) : Graph :=
  match g.tree? id with
  | none => g
  | some t =>
    { g with
      forest := g.forest.splice (has id) ++ .tree t.label .nil
      detached := OrderedSet.add g.detached id }

def detachNotices (g : Graph) (id : NodeId) : List Event :=
  (g.tree? id).toList.map fun t => .detached t.label.node.kind id t.below.roots.length

def update (g : Graph) (id : NodeId) (f : Node → Node) : Graph :=
  { g with forest := g.forest.map fun v => if v.id = id then { v with node := f v.node } else v }

/-- A checkpoint has to be addressable if it is required, unless the nearest node above it is
a checkpoint too. -/
def demands (above : Option Node) : Node → Bool
  | .checkpoint c => c.required && !above.any Node.isCheckpoint
  | _ => false

def needsAssembly (g : Graph) (id : NodeId) : Bool :=
  (g.node? id).any (demands ((g.parent? id).bind g.node?))

end Graph

end ChartPipeline
