import ChartPipeline.Graph

/-!
# Pruning

Nodes without effect are detached: filters that filter nothing, and checkpoints that need not be
addressable.
-/

namespace ChartPipeline.Graph

/-- A node has no effect below the nearest node above it that is kept. -/
def isIdle (above : Node) : Node → Bool
  | .positiveFilter f => f.isIdle
  | .checkpoint c => !demands (some above) (.checkpoint c)
  | _ => false

def drops (above v : Vertex) : Bool := isIdle above.node v.node

def idleBelow (g : Graph) (root : NodeId) : List (Vertex × Nat) :=
  (g.tree? root).elim [] fun t => t.below.dropped drops t.label

def pruneBelow (g : Graph) (root : NodeId) : Graph :=
  let idle := (g.idleBelow root).map Prod.fst
  { g with
    forest := g.forest.changeBelow (has root) (Forest.prune drops) ++ .leaves idle
    detached := OrderedSet.union g.detached (idle.map Vertex.id) }

/-- Detaches the nodes without effect below each of the given nodes. The given nodes stay. -/
def optimize (g : Graph) (roots : List NodeId) : Graph := roots.foldl pruneBelow g

def optimizeNotices (g : Graph) : List NodeId → List Event
  | [] => []
  | root :: rest =>
    (g.idleBelow root).map (fun (v, children) => .detached v.node.kind v.id children) ++
      optimizeNotices (g.pruneBelow root) rest

end ChartPipeline.Graph
