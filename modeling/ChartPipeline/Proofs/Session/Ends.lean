import ChartPipeline.Proofs.Graph.Optimize
import ChartPipeline.Proofs.Session.Shape

/-!
# What pruning leaves of a chain

Of the two checkpoints of a chain, the first one is left if it is required, and the last one is left
unless the first one is and nothing between them has an effect (`EndsWith.drops_raw`,
`EndsWith.drops_main`).
-/

namespace ChartPipeline

open Forest (lastKept)
open ChartPipeline.Graph (drops)

def Node.isIdleFilter : Node → Bool
  | .positiveFilter f => f.isIdle
  | _ => false

/-- Between the two checkpoints of a model nothing has an effect. -/
def Model.endsAtRaw (m : Model) : Bool := m.mainNodes.all Node.isIdleFilter

/-- A path that ends with the chain of a model, from its filter of rows without a value on. -/
inductive EndsWith (m : Model) (required : Bool) (raw main : NodeId) : List Vertex → Prop
  | intro (above middle inner : List Vertex) (filter : NodeId) (fields : List String) :
      (∀ v ∈ middle, v.node.isPlain = true) → inner.map Vertex.node = m.mainNodes →
      EndsWith m required raw main (above ++ ⟨filter, .nullFilter fields⟩ :: (middle ++
        ⟨raw, .checkpoint { name := m.rawName, required }⟩ :: (inner ++
          [⟨main, .checkpoint { name := m.mainName, required := true }⟩])))

variable {m : Model} {o : Options} {b : Bool} {raw main : NodeId} {way path : List Vertex}
  {up v : Vertex}

theorem drops_of_isPlain (h : v.node.isPlain = true) (up : Vertex) :
    drops up v = v.node.isIdleFilter := by
  cases hn : v.node <;> simp_all [drops, Graph.isIdle, Node.isIdleFilter, Node.isPlain]

theorem drops_checkpoint (hup : up.node.isCheckpoint = false) (id : NodeId) (k : Checkpoint) :
    drops up ⟨id, .checkpoint k⟩ = !k.required := by
  simp [drops, Graph.isIdle, Graph.demands, hup]

theorem isCheckpoint_of_isPlain {n : Node} (h : n.isPlain = true) : n.isCheckpoint = false := by
  cases n <;> simp_all [Node.isPlain, Node.isCheckpoint]

/-- Behind plain nodes the last one left is a checkpoint only if it was one before, and all of them
are idle. -/
theorem isCheckpoint_lastKept (h : ∀ v ∈ path, v.node.isPlain = true) :
    (lastKept drops up path).node.isCheckpoint =
      (up.node.isCheckpoint && path.all (·.node.isIdleFilter)) := by
  induction path generalizing up with
  | nil => simp [lastKept]
  | cons v path ih =>
    obtain ⟨hv, h⟩ := List.forall_mem_cons.mp h
    rw [lastKept, drops_of_isPlain hv, List.all_cons]
    cases hidle : v.node.isIdleFilter with
    | true => rw [if_pos rfl, ih h, Bool.true_and]
    | false => rw [if_neg (by simp), ih h, isCheckpoint_of_isPlain hv]; simp

namespace EndsWith

theorem exists_raw (h : EndsWith m b raw main way) : ∃ first last,
    way = (first ++ [⟨raw, .checkpoint { name := m.rawName, required := b }⟩]) ++ (last ++
      [⟨main, .checkpoint { name := m.mainName, required := true }⟩]) ∧
    last.map Vertex.node = m.mainNodes ∧
    ∀ up, (lastKept drops up first).node.isCheckpoint = false := by
  obtain ⟨above, middle, inner, filter, fields, hmiddle, hinner⟩ := h
  refine ⟨above ++ ⟨filter, .nullFilter fields⟩ :: middle, inner, by simp, hinner, fun up => ?_⟩
  have hkeeps (up : Vertex) : drops up ⟨filter, .nullFilter fields⟩ = false := rfl
  rw [Forest.lastKept_append, lastKept, hkeeps, if_neg (by simp), isCheckpoint_lastKept hmiddle]
  rfl

theorem drops_raw (h : EndsWith m b raw main way) : ∃ first last,
    way = (first ++ [⟨raw, .checkpoint { name := m.rawName, required := b }⟩]) ++ last ∧
    last ≠ [] ∧ ∀ up, drops (lastKept drops up first)
      ⟨raw, .checkpoint { name := m.rawName, required := b }⟩ = !b := by
  obtain ⟨first, last, hway, -, hfirst⟩ := h.exists_raw
  exact ⟨first, _, hway, by simp, fun up => drops_checkpoint (hfirst up) ..⟩

theorem drops_main (h : EndsWith m b raw main way) : ∃ above,
    way = above ++ [⟨main, .checkpoint { name := m.mainName, required := true }⟩] ∧
    above ≠ [] ∧ ∀ up, drops (lastKept drops up above)
      ⟨main, .checkpoint { name := m.mainName, required := true }⟩ = (b && m.endsAtRaw) := by
  obtain ⟨first, last, rfl, hlast, hfirst⟩ := h.exists_raw
  have hplain : ∀ v ∈ last, v.node.isPlain = true := fun v hv =>
    Model.isPlain_of_mem_mainNodes (hlast ▸ List.mem_map_of_mem hv)
  have hidle : m.endsAtRaw = last.all (·.node.isIdleFilter) := by
    rw [Model.endsAtRaw, ← hlast, List.all_map]
    rfl
  have hmain (up : Vertex) : drops up ⟨main, .checkpoint { name := m.mainName, required := true }⟩ =
      up.node.isCheckpoint := by
    simp [drops, Graph.isIdle, Graph.demands]
  refine ⟨_, (List.append_assoc ..).symm, by simp, fun up => ?_⟩
  rw [hmain, Forest.lastKept_append, Forest.lastKept_append, isCheckpoint_lastKept hplain, hidle,
    lastKept, drops_checkpoint (hfirst up)]
  cases b with
  | true => rfl
  | false => exact congrArg (· && _) (hfirst up)

theorem map {b' : Bool} {change : Vertex → Vertex} (h : EndsWith m b raw main way)
    (hplain : ∀ v : Vertex, v.node.isPlain = true → change v = v)
    (hraw : change ⟨raw, .checkpoint { name := m.rawName, required := b }⟩ =
      ⟨raw, .checkpoint { name := m.rawName, required := b' }⟩)
    (hmain : change ⟨main, .checkpoint { name := m.mainName, required := true }⟩ =
      ⟨main, .checkpoint { name := m.mainName, required := true }⟩) :
    EndsWith m b' raw main (way.map change) := by
  obtain ⟨above, middle, inner, filter, fields, hmiddle, hinner⟩ := h
  have hpath {path : List Vertex} (h : ∀ v ∈ path, v.node.isPlain = true) : path.map change = path :=
    (List.map_congr_left fun v hv => hplain v (h v hv)).trans (List.map_id _)
  have hlast : ∀ v ∈ inner, v.node.isPlain = true := fun v hv =>
    Model.isPlain_of_mem_mainNodes (hinner ▸ List.mem_map_of_mem hv)
  rw [List.map_append, List.map_cons, hplain _ rfl, List.map_append, hpath hmiddle, List.map_cons, hraw,
    List.map_append, hpath hlast, List.map_singleton, hmain]
  exact .intro _ _ _ _ _ hmiddle hinner

theorem blurred (h : EndsWith m b raw main way) :
    EndsWith m b raw main (way.map Vertex.blurred) := by
  refine h.map (fun v hv => ?_) rfl rfl
  obtain ⟨id, n⟩ := v
  cases n <;> first | rfl | cases hv

end EndsWith

theorem endsWith_chainNodes (o : Options) (m : Model) (path : List Vertex) (size : NodeId) :
    EndsWith m false (size + (m.rawNodes o).length)
      (size + (m.rawNodes o).length + 1 + m.mainNodes.length)
      (path ++ Graph.numbered size (m.chainNodes o)) := by
  obtain ⟨first, fields, last, hraw, -, hlast⟩ := m.exists_rawNodes o
  have hplain {size : NodeId} : ∀ v ∈ Graph.numbered size last, v.node.isPlain = true := fun v hv =>
    hlast _ (Graph.map_node_numbered size last ▸ List.mem_map_of_mem hv)
  have hnumbered (size : NodeId) : ∃ above filter next, Graph.numbered size (m.rawNodes o) =
      above ++ ⟨filter, .nullFilter fields⟩ :: Graph.numbered next last :=
    ⟨_, _, _, by rw [hraw, Graph.numbered_append, Graph.numbered]⟩
  obtain ⟨above, filter, next, habove⟩ := hnumbered size
  rw [Model.chainNodes_eq, Graph.numbered_append, Graph.numbered, Graph.numbered_append,
    Graph.numbered, Graph.numbered, habove, List.append_assoc, List.cons_append, ← List.append_assoc]
  exact .intro _ _ _ _ _ hplain (Graph.map_node_numbered _ _)

theorem map_node_of_blurred {nodes : List Node} (hp : ∀ n ∈ nodes, n.isPlain = true)
    (h : path.map (fun v => v.node.blurred) = nodes.map Node.blurred) :
    path.map Vertex.node = nodes := by
  induction nodes generalizing path with
  | nil => rw [List.map_eq_nil_iff.mp h, List.map_nil]
  | cons n nodes ih =>
    obtain ⟨hn, hp⟩ := List.forall_mem_cons.mp hp
    obtain ⟨v, path, rfl, hv, h⟩ := List.map_eq_cons_iff.mp h
    have hparse : n.isParse = false := by
      cases n <;> first | rfl | cases hn
    rw [List.map_cons, ih hp h, Node.eq_of_blurred_eq hv hparse]

/-- A path ends with a chain if it looks so, for no node of a chain is a parse node. -/
theorem endsWith_of_blurred {first : List Node} (h : way.map (fun v => v.node.blurred) =
    (first ++ m.chainNodes o).map Node.blurred) : ∃ raw main, EndsWith m false raw main way := by
  obtain ⟨declared, fields, last, hraw, -, hlast⟩ := m.exists_rawNodes o
  rw [Model.chainNodes_eq, hraw, List.append_assoc, List.cons_append, ← List.append_assoc first,
    List.map_append] at h
  obtain ⟨above, _, rfl, -, h⟩ := List.map_eq_append_iff.mp h
  obtain ⟨⟨filter, _⟩, _, rfl, hfilter, h⟩ := List.map_eq_cons_iff.mp h
  rw [List.map_append] at h
  obtain ⟨middle, _, rfl, hmiddle, h⟩ := List.map_eq_append_iff.mp h
  obtain ⟨⟨raw, _⟩, _, rfl, hrawNode, h⟩ := List.map_eq_cons_iff.mp h
  rw [List.map_append] at h
  obtain ⟨inner, _, rfl, hinner, h⟩ := List.map_eq_append_iff.mp h
  obtain ⟨⟨main, _⟩, rfl, hmain⟩ := List.map_eq_singleton_iff.mp h
  obtain rfl := Node.eq_of_blurred_eq hfilter rfl
  obtain rfl := Node.eq_of_blurred_eq hrawNode rfl
  obtain rfl := Node.eq_of_blurred_eq hmain rfl
  refine ⟨raw, main, .intro above middle inner filter fields (fun v hv => ?_) ?_⟩
  · have hmem := List.mem_map_of_mem (f := Vertex.node) hv
    rw [map_node_of_blurred hlast hmiddle] at hmem
    exact hlast _ hmem
  · exact map_node_of_blurred (fun n hn => Model.isPlain_of_mem_mainNodes hn) hinner

end ChartPipeline
