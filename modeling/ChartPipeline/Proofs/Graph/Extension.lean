import ChartPipeline.Proofs.Forest.Grafting
import ChartPipeline.Proofs.Graph.Growth

/-!
# Chains of nodes

Nodes that are added one below the other come below a node as a whole: as a stem that is grafted
there (`forest_extend`).
-/

namespace ChartPipeline.Graph

open Forest (Leads stem)

def extend (g : Graph) (head : NodeId) : List Node → Graph × NodeId
  | [] => (g, head)
  | n :: rest => (g.addChild head n).extend g.size rest

def numbered (size : Nat) : List Node → List Vertex
  | [] => []
  | n :: rest => ⟨size, n⟩ :: numbered (size + 1) rest

variable {g : Graph} {head : NodeId} {nodes : List Node} {t : Tree Vertex} {path : List Vertex}

@[simp] theorem map_node_numbered (size : Nat) (nodes : List Node) :
    (numbered size nodes).map Vertex.node = nodes := by
  induction nodes generalizing size with
  | nil => rfl
  | cons n nodes ih => simp [numbered, ih]

theorem numbered_append (size : Nat) (first last : List Node) : numbered size (first ++ last) =
    numbered size first ++ numbered (size + first.length) last := by
  induction first generalizing size with
  | nil => rfl
  | cons n first ih =>
    have hsize : size + 1 + first.length = size + (n :: first).length := by
      rw [List.length_cons, Nat.add_assoc, Nat.add_comm 1]
    rw [List.cons_append, numbered, numbered, ih, hsize, List.cons_append]

theorem size_addChild (g : Graph) (parent : NodeId) (n : Node) :
    (g.addChild parent n).size = g.size + 1 := by
  unfold addChild attach
  split
  · rfl
  · dsimp only
    split <;> rfl

theorem extend_append (g : Graph) (head : NodeId) (first last : List Node) :
    g.extend head (first ++ last) = (g.extend head first).1.extend (g.extend head first).2 last := by
  induction first generalizing g head with
  | nil => rfl
  | cons n first ih => exact ih _ _

theorem size_extend (g : Graph) (head : NodeId) (nodes : List Node) :
    (g.extend head nodes).1.size = g.size + nodes.length := by
  induction nodes generalizing g head with
  | nil => rfl
  | cons n nodes ih =>
    rw [extend, ih, size_addChild, List.length_cons, Nat.add_assoc, Nat.add_comm 1]

theorem extend_concat (g : Graph) (head : NodeId) (nodes : List Node) (n : Node) :
    (g.extend head (nodes ++ [n])).2 = g.size + nodes.length := by
  rw [extend_append, ← size_extend g head]
  rfl

theorem WellFormed.extend (hg : g.WellFormed) (head : NodeId) (nodes : List Node) :
    (g.extend head nodes).1.WellFormed := by
  induction nodes generalizing g head with
  | nil => exact hg
  | cons n nodes ih => exact ih (hg.addChild head n) g.size

theorem WellFormed.leads_addChild (hg : g.WellFormed) (h : g.forest.Leads path t) (n : Node) :
    (g.addChild t.label.id n).forest =
      g.forest.graft (has t.label.id) (.tree ⟨g.size, n⟩ .nil) ∧
    (g.addChild t.label.id n).forest.Leads (path ++ [⟨g.size, n⟩]) ⟨⟨g.size, n⟩, .nil⟩ := by
  have hadd : (g.addChild t.label.id n).forest =
      g.forest.graft (has t.label.id) (.tree ⟨g.size, n⟩ .nil) := by
    rw [hg.forest_addChild, hg.tree?_eq h, Option.isSome_some, if_pos rfl]
  refine ⟨hadd, ?_⟩
  rw [hadd]
  exact h.changeBelow_new hg.keyed (Forest.leads_tree _ _)

theorem WellFormed.forest_extend (hg : g.WellFormed) (h : g.forest.Leads path t)
    (nodes : List Node) : (g.extend t.label.id nodes).1.forest =
      g.forest.graft (has t.label.id) (stem (numbered g.size nodes)) := by
  induction nodes generalizing g path t with
  | nil => exact (Forest.graft_nil _).symm
  | cons n nodes ih =>
    obtain ⟨hadd, hnew⟩ := hg.leads_addChild h n
    have htree (more : Forest Vertex) : (Forest.tree (⟨g.size, n⟩ : Vertex) .nil).graft (has g.size)
        more = .tree ⟨g.size, n⟩ more := by
      rw [Forest.tree, Forest.graft_cons, has, beq_self_eq_true, if_pos rfl]
      rfl
    have hrest := ih (hg.addChild _ n) hnew
    rw [hadd, size_addChild, Forest.graft_graft hg.has_size, htree] at hrest
    exact hrest

theorem WellFormed.leads_extend (hg : g.WellFormed) (h : g.forest.Leads path t)
    (nodes : List Node) : ∃ u, (g.extend t.label.id nodes).1.forest.Leads
      (path ++ numbered g.size nodes) u ∧ u.label.id = (g.extend t.label.id nodes).2 := by
  induction nodes generalizing g path t with
  | nil => exact ⟨t, by rwa [numbered, List.append_nil], rfl⟩
  | cons n nodes ih =>
    obtain ⟨u, hu, he⟩ := ih (hg.addChild _ n) (hg.leads_addChild h n).2
    rw [size_addChild, List.append_assoc] at hu
    exact ⟨u, hu, he⟩

end ChartPipeline.Graph
