import ChartPipeline.Assembly
import ChartPipeline.Proofs.Forest.Levels

/-!
# The queue of facets

An assembly goes from each root down to the first facets, and then from each facet in the queue down
to the next ones. Together these parts are all the trees, every node once (`perm_parts`), and a
facet stands in the queue behind the one that it lies below (`ordered_facets`).
-/

namespace ChartPipeline.Assembly

open Forest (Leads Keyed)

abbrev atFacet (v : Vertex) : Bool := v.node.isFacet

abbrev reach (row : Forest Vertex) : List Vertex := row.shallow atFacet

theorem reach_cons (v : Vertex) (below rest : Forest Vertex) : reach (.cons v below rest) =
    v :: ((if atFacet v then [] else reach below) ++ reach rest) := rfl

theorem exists_source {n : Node} (h : n.isSource = true) : ∃ s, n = .source s := by
  cases n with
  | source s => exact ⟨s, rfl⟩
  | _ => cases h

structure Planted (f : Forest Vertex) (trees : List (Tree Vertex)) : Prop where
  keyed : f.Keyed Vertex.id
  leads : ∀ t ∈ trees, f.Leads [t.label] t
  nodup : (trees.map (·.label.id)).Nodup
  sources : ∀ t ∈ trees, t.label.node.isSource = true

theorem Planted.nodup_ids {f : Forest Vertex} {trees : List (Tree Vertex)} (h : Planted f trees) :
    ((trees.flatMap Tree.toList).map Vertex.id).Nodup := by
  rw [List.map_flatMap, List.nodup_flatMap]
  refine ⟨fun t ht => h.keyed.sublist ((h.leads t ht).sublist.map _), ?_⟩
  have hd := h.nodup
  rw [List.Nodup, List.pairwise_map] at hd
  refine hd.imp_of_mem fun {t u} ht hu hne => ?_
  intro id hit hiu
  obtain ⟨v, hv, rfl⟩ := List.mem_map.mp hit
  obtain ⟨w, hw, hvw⟩ := List.mem_map.mp hiu
  -- a common node would have two paths, with different beginnings
  have hpath {t : Tree Vertex} {v : Vertex} (ht : t ∈ trees) (hv : v ∈ t.toList) :
      ∃ path x, f.Leads (t.label :: path) x ∧ x.label = v := by
    rcases List.mem_cons.mp hv with rfl | hv
    · exact ⟨[], t, h.leads t ht, rfl⟩
    · obtain ⟨path, x, hx, he⟩ := Forest.exists_leads_of_mem hv
      exact ⟨path, x, (h.leads t ht).append hx, he⟩
  obtain ⟨p, x, hx, rfl⟩ := hpath ht hv
  obtain ⟨q, y, hy, rfl⟩ := hpath hu hw
  have := (hx.unique h.keyed hy hvw.symm).1
  exact hne (congrArg Vertex.id (List.cons.inj this).1)

theorem mem_facets {trees : List (Tree Vertex)} {u : Tree Vertex} :
    u ∈ facets trees ↔
      ∃ t ∈ trees, u.label.node.isFacet = true ∧ ∃ path, t.below.Leads path u := by
  rw [facets, (Forest.perm_flatten_foldr_joinLevels _).mem_iff, List.flatMap_map, List.mem_flatMap]
  simp only [Forest.mem_levels]

theorem ordered_facets (trees : List (Tree Vertex)) :
    Forest.Ordered atFacet (trees.flatMap fun t => t.below.firsts atFacet) (facets trees) := by
  have h : Forest.Layered atFacet (trees.flatMap fun t => t.below.firsts atFacet)
      ((trees.map fun t => t.below.levels atFacet).foldr Forest.joinLevels []) := by
    induction trees with
    | nil => trivial
    | cons t trees ih => exact (Forest.layered_levels t.below).join ih
  exact h.ordered (List.Subset.refl _)

theorem perm_parts (trees : List (Tree Vertex)) :
    ((trees.flatMap fun t => t.label :: reach t.below) ++
      (facets trees).flatMap fun t => reach t.below).Perm (trees.flatMap Tree.toList) := by
  have hqueue : ((facets trees).flatMap fun t => reach t.below).Perm
      (trees.flatMap fun t => (t.below.levels atFacet).flatten.flatMap fun u => reach u.below) := by
    refine ((Forest.perm_flatten_foldr_joinLevels _).flatMap_right _).trans ?_
    rw [List.flatMap_map, List.flatMap_assoc]
  refine (hqueue.append_left _).trans ?_
  clear hqueue
  induction trees with
  | nil => exact .nil
  | cons t trees ih =>
    simp only [List.flatMap_cons]
    exact (Forest.perm_append_swap _ _ _ _).trans (((Forest.perm_levels t.below).cons t.label).append ih)

theorem perm_facets {trees : List (Tree Vertex)} (h : ∀ t ∈ trees, t.label.node.isSource = true) :
    ((facets trees).map Tree.label).Perm ((trees.flatMap Tree.toList).filter atFacet) := by
  refine ((Forest.perm_flatten_foldr_joinLevels _).map Tree.label).trans ?_
  rw [List.flatMap_map]
  induction trees with
  | nil => exact .nil
  | cons t trees ih =>
    obtain ⟨ht, h⟩ := List.forall_mem_cons.mp h
    have hroot : atFacet t.label = false := by
      cases hn : t.label.node <;> simp_all [atFacet, Node.isSource, Node.isFacet]
    rw [List.flatMap_cons, List.flatMap_cons, List.map_append, List.filter_append, Tree.toList,
      List.filter_cons_of_neg (by simp [hroot])]
    exact (Forest.perm_label_levels t.below).append (ih h)

end ChartPipeline.Assembly
