import ChartPipeline.Proofs.Graph.Lookup

/-!
# Graphs that grow

While a graph is built, every node stays below the nodes that it was put below. Only coercions
change, so what lasts is the path to a node without them: its trace.
-/

namespace ChartPipeline

def Node.blurred : Node → Node
  | .parse _ => .parse []
  | n => n

theorem Node.transforms_blurred (n : Node) : n.blurred.transforms = n.transforms := by
  cases n <;> rfl

theorem Node.isCheckpoint_blurred (n : Node) : n.blurred.isCheckpoint = n.isCheckpoint := by
  cases n <;> rfl

theorem Node.eq_of_blurred_eq {n n' : Node} (h : n.blurred = n'.blurred) (hp : n'.isParse = false) :
    n = n' := by
  unfold Node.blurred at h
  split at h <;> split at h
  · cases hp
  · subst h
    cases hp
  · cases hp
  · exact h

def Vertex.blurred (v : Vertex) : Vertex := { v with node := v.node.blurred }

theorem Vertex.eq_of_blurred_source {v : Vertex} {k : NodeId} {source : Source}
    (h : v.blurred = ⟨k, .source source⟩) : v = ⟨k, .source source⟩ := by
  obtain ⟨rfl, hn⟩ := Vertex.mk.inj h
  have hn : v.node = .source source := Node.eq_of_blurred_eq hn rfl
  rw [← hn]

namespace Graph

open Forest (Leads)

def Trace (g : Graph) (id : NodeId) (trace : List Vertex) : Prop :=
  ∃ path t, g.forest.Leads path t ∧ t.label.id = id ∧ path.map Vertex.blurred = trace

variable {g : Graph} {id parent : NodeId} {n : Node} {trace : List Vertex} {f : Node → Node}

theorem Trace.last {v : Vertex} (h : g.Trace id (trace ++ [v])) : v.id = id := by
  obtain ⟨path, t, hl, rfl, hpath⟩ := h
  have hend := congrArg List.getLast? hpath
  rw [List.getLast?_map, hl.getLast?, List.getLast?_concat, Option.map_some] at hend
  rw [← Option.some.inj hend]
  rfl

-- ---------------------------------------------------------------------------
-- A node more
-- ---------------------------------------------------------------------------

theorem WellFormed.has_size (hg : g.WellFormed) : ∀ v ∈ g.forest.toList, has g.size v = false := by
  intro v hv
  obtain ⟨path, t, hl, rfl⟩ := Forest.exists_leads_of_mem hv
  simp [has, Nat.ne_of_lt (hg.lt_size hl)]

theorem trace_add (n : Node) (h : g.Trace id trace) : (g.add n).Trace id trace := by
  obtain ⟨path, t, hl, hid, htrace⟩ := h
  exact ⟨path, t, Forest.leads_append.mpr (.inl hl), hid, htrace⟩

theorem leads_new (g : Graph) (n : Node) :
    (g.add n).forest.Leads [⟨g.size, n⟩] ⟨⟨g.size, n⟩, .nil⟩ :=
  Forest.leads_append.mpr (.inr (Forest.leads_tree _ _))

theorem trace_new (g : Graph) (n : Node) : (g.add n).Trace g.size [⟨g.size, n.blurred⟩] :=
  ⟨_, _, leads_new g n, rfl, rfl⟩

theorem detached_addChild (g : Graph) (parent : NodeId) (n : Node) :
    (g.addChild parent n).detached = g.detached := by
  unfold Graph.addChild Graph.attach
  split
  · rfl
  · dsimp only
    split <;> rfl

theorem WellFormed.forest_addChild (hg : g.WellFormed) (parent : NodeId) (n : Node) :
    (g.addChild parent n).forest = if (g.tree? parent).isSome then g.forest.changeBelow (has parent)
      fun _ below => below ++ .tree ⟨g.size, n⟩ .nil else (g.add n).forest := by
  have hnew : (g.add n).tree? g.size = some ⟨⟨g.size, n⟩, .nil⟩ :=
    (hg.add n).tree?_eq (leads_new g n)
  have hothers : (g.add n).forest.remove (has g.size) = g.forest := by
    have hlast : (Forest.tree (⟨g.size, n⟩ : Vertex) .nil).remove (has g.size) = .nil := by
      simp [Forest.tree, Forest.remove, has]
    rw [Graph.add, Forest.remove_append, Forest.remove_eq_self hg.has_size, hlast, Forest.append_nil]
  rw [Graph.addChild, Graph.attach, hnew, Graph.tree?]
  dsimp only
  rw [hothers]
  split <;> rfl

theorem WellFormed.trace_addChild (hg : g.WellFormed) (parent : NodeId) (n : Node)
    (h : g.Trace id trace) : (g.addChild parent n).Trace id trace := by
  rw [Trace, hg.forest_addChild]
  split
  · obtain ⟨path, t, hl, hid, htrace⟩ := h
    obtain ⟨u, hu, he⟩ := hl.changeBelow_append
    exact ⟨path, u, hu, he ▸ hid, htrace⟩
  · exact trace_add n h

theorem WellFormed.trace_newChild (hg : g.WellFormed) (n : Node) (h : g.Trace parent trace) :
    (g.addChild parent n).Trace g.size (trace ++ [⟨g.size, n.blurred⟩]) := by
  obtain ⟨path, t, hl, rfl, rfl⟩ := h
  rw [Trace, hg.forest_addChild, hg.tree?_eq hl, Option.isSome_some, if_pos rfl]
  exact ⟨_, _, hl.changeBelow_new hg.keyed (Forest.leads_tree _ _), rfl, by simp [Vertex.blurred]⟩

-- ---------------------------------------------------------------------------
-- Other coercions
-- ---------------------------------------------------------------------------

theorem trace_update (hf : ∀ n, (f n).blurred = n.blurred) (other : NodeId)
    (h : g.Trace id trace) : (g.update other f).Trace id trace := by
  obtain ⟨path, t, hl, rfl, rfl⟩ := h
  refine ⟨_, _, hl.map _, ?_, ?_⟩
  · dsimp only
    split <;> rfl
  · rw [List.map_map]
    refine List.map_congr_left fun v _ => ?_
    rw [Function.comp_apply]
    split
    · simp [Vertex.blurred, hf]
    · rfl

end Graph

end ChartPipeline
