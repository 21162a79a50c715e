import ChartPipeline.Proofs.Graph.WellFormed

/-!
# Looking nodes up

In a graph that is built step by step, every lookup by number tells where the one node of that
number stands.
-/

namespace ChartPipeline.Graph

open Forest (Leads)

variable {g : Graph} {id root : NodeId} {t u : Tree Vertex} {path : List Vertex}

namespace WellFormed

theorem tree?_eq (hg : g.WellFormed) (h : g.forest.Leads path t) : g.tree? t.label.id = some t :=
  (h.find?_path? hg.keyed rfl).1

theorem node?_eq (hg : g.WellFormed) (h : g.forest.Leads path t) :
    g.node? t.label.id = some t.label.node := by
  rw [node?, hg.tree?_eq h]
  rfl

theorem children_eq (hg : g.WellFormed) (h : g.forest.Leads path t) :
    g.children t.label.id = t.below.roots.map Vertex.id := by
  rw [children, hg.tree?_eq h]
  rfl

theorem lt_size (hg : g.WellFormed) (h : g.forest.Leads path t) : t.label.id < g.size :=
  List.mem_range.mp (hg.mem_iff.mp (List.mem_map_of_mem h.mem))

theorem exists_leads (hg : g.WellFormed) (h : id < g.size) :
    ∃ path t, g.forest.Leads path t ∧ t.label.id = id := by
  obtain ⟨v, hv, rfl⟩ := List.mem_map.mp (hg.mem_iff.mpr (List.mem_range.mpr h))
  obtain ⟨path, t, hl, rfl⟩ := Forest.exists_leads_of_mem hv
  exact ⟨path, t, hl, rfl⟩

theorem path_eq (hg : g.WellFormed) (h : g.forest.Leads path t) : g.path t.label.id = path := by
  have hp : g.forest.path? (has t.label.id) = some path := (h.find?_path? hg.keyed rfl).2
  rw [Graph.path, hp]
  rfl

theorem parent?_eq (hg : g.WellFormed) (h : g.forest.Leads path t) :
    g.parent? t.label.id = (path.dropLast.getLast?).map Vertex.id := by
  have hkeys : ((g.forest.edges none).map fun edge => edge.1.id).Nodup := by
    have := hg.keyed
    rwa [Forest.Keyed, ← Forest.map_fst_edges g.forest none, List.map_map] at this
  rw [parent?, find?_key_eq hkeys (h.mem_edges none), Option.bind_some, Option.or_none]

theorem node?_parent? (hg : g.WellFormed) (h : g.forest.Leads path t) :
    (g.parent? t.label.id).bind g.node? = (path.dropLast.getLast?).map Vertex.node := by
  rw [hg.parent?_eq h]
  cases hup : path.dropLast.getLast? with
  | none => rfl
  | some up =>
    have hne : path.dropLast ≠ [] := by
      rintro hn
      simp [hn] at hup
    rw [← h.dropLast_append] at h
    obtain ⟨above, habove, -⟩ := h.split hne (by simp)
    obtain rfl := Option.some.inj (habove.getLast?.symm.trans hup)
    exact hg.node?_eq habove

theorem needsAssembly_eq (hg : g.WellFormed) (h : g.forest.Leads path t) :
    g.needsAssembly t.label.id =
      demands ((path.dropLast.getLast?).map Vertex.node) t.label.node := by
  rw [needsAssembly, hg.node?_eq h, hg.node?_parent? h]
  rfl

theorem leads_of_parentless (hg : g.WellFormed) (ht : g.tree? id = some t)
    (hp : g.parent? id = none) : g.forest.Leads [t.label] t := by
  obtain ⟨rfl, path, h⟩ := leads_of_tree? ht
  rw [hg.parent?_eq h, Option.map_eq_none_iff, List.getLast?_eq_none_iff] at hp
  rwa [← h.dropLast_append, hp, List.nil_append] at h

end WellFormed

theorem leads_of_node? {n : Node} (h : g.node? id = some n) :
    ∃ path t, g.forest.Leads path t ∧ t.label = ⟨id, n⟩ := by
  obtain ⟨t, ht, rfl⟩ := Option.map_eq_some_iff.mp h
  obtain ⟨rfl, path, hl⟩ := leads_of_tree? ht
  exact ⟨path, t, hl, rfl⟩

theorem WellFormed.node?_eq_some_iff {n : Node} (hg : g.WellFormed) :
    g.node? id = some n ↔ ⟨id, n⟩ ∈ g.forest.toList := by
  constructor
  · intro h
    obtain ⟨path, t, hl, ht⟩ := leads_of_node? h
    exact ht ▸ hl.mem
  · intro h
    obtain ⟨path, t, hl, ht⟩ := Forest.exists_leads_of_mem h
    have hnode := hg.node?_eq hl
    rwa [ht] at hnode

theorem mem_descendants : id ∈ g.descendants root ↔ ∃ t, g.tree? root = some t ∧
    (id = root ∨ ∃ path u, t.below.Leads path u ∧ u.label.id = id) := by
  rw [descendants]
  cases ht : g.tree? root with
  | none => simp
  | some t =>
    obtain ⟨rfl, -⟩ := leads_of_tree? ht
    simp only [Option.elim_some, List.mem_cons, List.mem_map, Option.some.injEq, exists_eq_left']
    refine or_congr_right ⟨?_, ?_⟩
    · rintro ⟨v, hv, rfl⟩
      obtain ⟨path, u, hu, rfl⟩ := Forest.exists_leads_of_mem hv
      exact ⟨path, u, hu, rfl⟩
    · rintro ⟨path, u, hu, rfl⟩
      exact ⟨u.label, hu.mem, rfl⟩

theorem isDetached_pruneBelow_iff (g : Graph) (root id : NodeId) :
    (g.pruneBelow root).isDetached id = true ↔
      g.isDetached id = true ∨ ∃ v ∈ (g.idleBelow root).map Prod.fst, v.id = id := by
  rw [isDetached, isDetached, List.contains_iff_mem, List.contains_iff_mem, pruneBelow,
    OrderedSet.mem_union, List.mem_map]

theorem node?_update (g : Graph) (id other : NodeId) (f : Node → Node) :
    (g.update other f).node? id = (g.node? id).map fun n => if id = other then f n else n := by
  have hhas : (has id ∘ fun v : Vertex => if v.id = other then { v with node := f v.node } else v) =
      has id := by
    funext v
    rw [Function.comp_apply, has, has]
    split <;> rfl
  rw [node?, tree?, update, Forest.find?_map, hhas]
  cases ht : g.forest.find? (has id) with
  | none => simp [node?, tree?, ht]
  | some t =>
    obtain ⟨hid, -⟩ := leads_of_tree? (g := g) ht
    simp only [node?, tree?, ht, Option.map_some, hid]
    split <;> rfl

end ChartPipeline.Graph
