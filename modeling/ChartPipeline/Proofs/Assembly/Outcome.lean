import ChartPipeline.Proofs.Assembly.Failure
import ChartPipeline.Proofs.Graph.Lookup
import Mathlib.Data.List.TakeWhile

/-!
# What comes of an assembly

If nothing goes wrong, all steps count: their records are the result, and the graph differs from
the one before only in the names that its sources, checkpoints and facets got.
-/

namespace ChartPipeline

open Assembly

namespace Graph

structure SourceRoots (g : Graph) (roots : List NodeId) : Prop where
  nodup : roots.Nodup
  sources : ∀ id ∈ roots, (g.node? id).any Node.isSource = true
  parentless : ∀ id ∈ roots, g.parent? id = none

abbrev treesAt (g : Graph) (roots : List NodeId) : List (Tree Vertex) := roots.filterMap g.tree?

variable {g : Graph} {roots : List NodeId} {root : NodeId} {t : Tree Vertex}

theorem exists_tree?_of_isSource (h : (g.node? root).any Node.isSource = true) :
    ∃ t s, g.tree? root = some t ∧ t.label.id = root ∧ t.label.node = .source s := by
  rw [node?] at h
  cases ht : g.tree? root with
  | none => simp [ht] at h
  | some t =>
    rw [ht, Option.map_some, Option.any_some] at h
    obtain ⟨s, hs⟩ := exists_source h
    exact ⟨t, s, rfl, (leads_of_tree? ht).1, hs⟩

theorem SourceRoots.tree?_eq (h : g.SourceRoots roots) (hr : root ∈ roots) :
    ∃ t s, g.tree? root = some t ∧ t.label.id = root ∧ t.label.node = .source s :=
  exists_tree?_of_isSource (h.sources root hr)

theorem map_id_treesAt (hs : ∀ root ∈ roots, (g.node? root).any Node.isSource = true) :
    (g.treesAt roots).map (·.label.id) = roots := by
  have htree (root : NodeId) (hr : root ∈ roots) : (g.tree? root).map (·.label.id) = some root := by
    obtain ⟨t, s, ht, hid, -⟩ := exists_tree?_of_isSource (hs root hr)
    rw [ht, Option.map_some, hid]
  rw [treesAt, List.map_filterMap]
  exact (List.filterMap_congr htree).trans List.filterMap_some

theorem SourceRoots.planted (h : g.SourceRoots roots) (hg : g.WellFormed) :
    Planted g.forest (g.treesAt roots) where
  keyed := hg.keyed
  leads t ht := by
    obtain ⟨root, hr, ht⟩ := List.mem_filterMap.mp ht
    exact hg.leads_of_parentless ht (h.parentless root hr)
  nodup := by
    rw [map_id_treesAt h.sources]
    exact h.nodup
  sources t ht := by
    obtain ⟨root, hr, ht⟩ := List.mem_filterMap.mp ht
    obtain ⟨t', s, ht', -, hs⟩ := h.tree?_eq hr
    obtain rfl := Option.some.inj (ht'.symm.trans ht)
    rw [hs]
    rfl

/-- The steps of an assembly, those behind a failure included. -/
abbrev stepsOf (g : Graph) (roots : List NodeId) : List Step := Assembly.stepsOf (g.treesAt roots)

theorem assemble_eq (g : Graph) (roots : List NodeId) :
    g.assemble roots = outcome g (g.stepsOf roots) := rfl

end Graph

namespace Assembly

variable {g : Graph} {steps : List Step} {records : List Record} {id : NodeId} {n : String}

theorem findSome?_cause? : steps.findSome? Step.cause? = (causesOf steps).head? := by
  rw [causesOf, collect, List.head?_filterMap]

theorem takeWhile_eq_self (h : causesOf steps = []) :
    steps.takeWhile (·.cause?.isNone) = steps := by
  rw [causesOf, collect, List.filterMap_eq_nil_iff] at h
  exact List.takeWhile_eq_self_iff.mpr fun step hs => by rw [h step hs]; rfl

theorem records_eq_ok :
    (outcome g steps).records = .ok records ↔ causesOf steps = [] ∧ records = recordsOf steps := by
  simp only [outcome, findSome?_cause?]
  cases hc : causesOf steps with
  | nil =>
    rw [takeWhile_eq_self hc]
    simp [collect, eq_comm]
  | cons cause rest => simp

theorem graph_of_ok (h : (outcome g steps).records = .ok records) :
    (outcome g steps).graph = steps.foldl Step.apply g := by
  simp only [outcome, takeWhile_eq_self (records_eq_ok.mp h).1]

theorem node?_apply (g : Graph) (step : Step) (id : NodeId) : (step.apply g).node? id =
    (g.node? id).map fun n => (step.naming?.filter (·.1 == id)).elim n fun m => n.named m.2 := by
  cases step with
  | name other record =>
    rw [Step.apply, Graph.node?_update]
    by_cases h : id = other
    · simp [h, Option.filter]
    · simp [h, Ne.symm h, Option.filter]
  | _ => simp [Step.apply]

theorem detached_foldl_apply (g : Graph) (steps : List Step) :
    (steps.foldl Step.apply g).detached = g.detached := by
  induction steps generalizing g with
  | nil => rfl
  | cons step steps ih =>
    rw [List.foldl_cons, ih]
    cases step <;> rfl

theorem detached_assemble (g : Graph) (roots : List NodeId) :
    (g.assemble roots).graph.detached = g.detached :=
  detached_foldl_apply ..

theorem node?_foldl_apply_of_notMem (h : id ∉ namedBy steps) :
    (steps.foldl Step.apply g).node? id = g.node? id := by
  induction steps generalizing g with
  | nil => rfl
  | cons step steps ih =>
    simp only [namedBy, collect_cons, List.map_append, List.mem_append, not_or] at h
    rw [List.foldl_cons, ih h.2, node?_apply]
    cases hs : step.naming? with
    | none => simp
    | some m =>
      have hne : m.1 ≠ id := by simpa [hs, eq_comm, -Step.naming?] using h.1
      simp [Option.filter, hne]

theorem node?_foldl_apply (hn : (namedBy steps).Nodup) (h : .name id n ∈ steps) :
    (steps.foldl Step.apply g).node? id = (g.node? id).map (Node.named n) := by
  induction steps generalizing g with
  | nil => cases h
  | cons step steps ih =>
    have hnames : namedBy (step :: steps) = step.naming?.toList.map Prod.fst ++ namedBy steps := by
      simp [namedBy]
    rw [hnames] at hn
    rcases List.mem_cons.mp h with rfl | h
    · have hlater : id ∉ namedBy steps := (List.nodup_cons.mp hn).1
      rw [List.foldl_cons, node?_foldl_apply_of_notMem hlater, node?_apply]
      simp [Option.filter]
    · rw [List.foldl_cons, ih (hn.sublist (List.sublist_append_right _ _)) h, node?_apply]
      have hid : id ∈ namedBy steps := List.mem_map.mpr ⟨_, mem_namesOf.mpr h, rfl⟩
      cases hs : step.naming? with
      | none => simp
      | some m =>
        have hne : m.1 ≠ id := by
          rintro rfl
          exact (List.disjoint_of_nodup_append hn) (by simp [hs, -Step.naming?]) hid
        simp [Option.filter, hne]

end Assembly

end ChartPipeline
