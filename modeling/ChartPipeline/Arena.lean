import ChartPipeline.Pruning

/-!
# Arenas

The usual way to store a graph is an arena: a slot for every number, which holds the node and links
it to its parent and to its children by their numbers. Adding, attaching and detaching then change
single links. Walks over an arena take the next number from a stack and put its children there.
-/

namespace ChartPipeline

open Forest (putFor)

structure Slot where
  node : Node
  parent : Option NodeId := none
  children : List NodeId := []
  detached : Bool := false

structure Arena where
  slots : List Slot := []

namespace Arena

def size (a : Arena) : Nat := a.slots.length

def slot? (a : Arena) (id : NodeId) : Option Slot := a.slots[id]?

def node? (a : Arena) (id : NodeId) : Option Node := (a.slot? id).map Slot.node

def parent? (a : Arena) (id : NodeId) : Option NodeId := (a.slot? id).bind Slot.parent

def children (a : Arena) (id : NodeId) : List NodeId := (a.slot? id).elim [] Slot.children

def isDetached (a : Arena) (id : NodeId) : Bool := (a.slot? id).any Slot.detached

def change (a : Arena) (id : NodeId) (f : Slot → Slot) : Arena := ⟨a.slots.modify id f⟩

def add (a : Arena) (n : Node) : Arena := ⟨a.slots ++ [{ node := n }]⟩

/-- Takes a node out of the row of its parent. -/
def unlink (a : Arena) (child : NodeId) : Arena :=
  match a.parent? child with
  | none => a
  | some old => a.change old fun s => { s with children := s.children.filter (· != child) }

/-- Makes a node the last child of another one, wherever it was before. -/
def attach (a : Arena) (child parent : NodeId) : Arena :=
  ((a.unlink child).change child fun s => { s with parent := some parent }).change parent
    fun s => { s with children := s.children ++ [child] }

def reparent (a : Arena) (up : Option NodeId) (row : List NodeId) : Arena :=
  row.foldl (fun a child => a.change child fun s => { s with parent := up }) a

/-- Links the children of a node to its parent, in its place. -/
def detach (a : Arena) (id : NodeId) : Arena :=
  let up := a.parent? id
  let row := a.children id
  let freed := a.change id fun s => { s with parent := none, children := [] }
  let moved := freed.reparent up row
  let joined := match up with
    | none => moved
    | some up =>
      moved.change up fun s => { s with children := putFor (fun c => c) id row s.children }
  joined.change id fun s => { s with detached := true }

-- ---------------------------------------------------------------------------
-- Walks
-- ---------------------------------------------------------------------------

/-- The listing of a tree: takes the next number from the stack, and puts its children there. -/
inductive Lists (a : Arena) : List NodeId → List NodeId → Prop
  | done : Lists a [] []
  | next {id : NodeId} : Lists a (a.children id ++ stack) out → Lists a (id :: stack) (id :: out)

/-- A node has no effect, judged by its slot and that of its parent. -/
def isIdle (a : Arena) (id : NodeId) : Bool :=
  match a.node? id with
  | some (.positiveFilter f) => f.isIdle
  | some (.checkpoint c) => !Graph.demands ((a.parent? id).bind a.node?) (.checkpoint c)
  | _ => false

/-- Walks over everything that is on the stack, and over what is below it. -/
inductive Walks (root : NodeId) : List NodeId → Arena → Arena → Prop
  | done : Walks root [] a a
  | keep {id : NodeId} : (id ≠ root → a.isIdle id = false) →
      Walks root (a.children id ++ stack) a b → Walks root (id :: stack) a b
  | drop {id : NodeId} : id ≠ root → a.isIdle id = true →
      Walks root (a.children id ++ stack) (a.detach id) b → Walks root (id :: stack) a b

/-- Walks below one root after the other. -/
inductive Sweeps : List NodeId → Arena → Arena → Prop
  | nil : Sweeps [] a a
  | cons {root : NodeId} : Walks root [root] a b → Sweeps roots b c → Sweeps (root :: roots) a c

end Arena

end ChartPipeline
