import ChartPipeline.Proofs.Assembly.Labels
import ChartPipeline.Proofs.Session.Finish

/-!
# The shape that pruning leaves

After pruning, the checkpoints that are left in a session have to be addressable, and nothing but
sources, parse nodes, checkpoints and facets ends or branches (`tidy_prune`). So every record that a
session comes to has a name that was there before (`Session.JoinedForest.labelled`).
-/

namespace ChartPipeline

open Assembly
open Forest (Leads)
open ChartPipeline.Graph (drops)

variable {s : Session} {f : Forest Vertex} {v w parent up : Vertex} {t : Tree Vertex}

theorem not_branching {n : Node} (hs : n.isSource = false) (hc : n.isCheckpoint = false) :
    ¬ n.Branching := by
  cases n with
  | source => cases hs
  | checkpoint => cases hc
  | _ => exact id

theorem not_branching_of_drops (h : drops up v = true) (hup : up.node.isCheckpoint = false) :
    ¬ v.node.Branching := by
  cases hv : v.node with
  | checkpoint c =>
    rintro ⟨hrequired, -⟩
    simp [drops, Graph.isIdle, Graph.demands, hv, hup, hrequired] at h
  | source => simp [drops, Graph.isIdle, hv] at h
  | _ => exact id

theorem Joined.exists_single {below : Forest Vertex} (hv : Joined (v, some parent, below.roots))
    (hbelow : ∀ e ∈ below.edges (some v), Joined e) (hb : ¬ v.node.Branching)
    (hparse : v.node.isParse = false) :
    ∃ w, below.roots = [w] ∧ w.node.isParse = false ∧ w.node.isFacet = false := by
  obtain ⟨w, hw, hfirst⟩ := hv.single hb
  have hw : below.roots = [w] := hw
  cases below with
  | nil => cases hw
  | cons w' inner rest =>
    obtain ⟨rfl, -⟩ := List.cons.inj hw
    -- parse nodes are below sources, and sources have no parent
    have hedge := (hbelow _ List.mem_cons_self).parse
    exact ⟨w', hw, hedge.trans hv.source, by simpa [hparse] using hfirst⟩

theorem onward_prune (hj : ∀ e ∈ f.edges (some parent), Joined e) (hw : f.roots = [w])
    (hparse : w.node.isParse = false) (hfacet : w.node.isFacet = false)
    (hup : up.node.isCheckpoint = false) : Onward (f.prune drops up) := by
  induction f generalizing parent w with
  | nil => cases hw
  | cons v below rest ihb _ =>
    obtain ⟨rfl, hrest⟩ := List.cons.inj hw
    obtain rfl : rest = .nil := by
      cases rest with
      | nil => rfl
      | cons => cases hrest
    rw [Forest.edges, List.forall_mem_cons, List.forall_mem_append] at hj
    obtain ⟨hv, hbelow, -⟩ := hj
    cases hd : drops up v with
    | false => exact ⟨v, _, by rw [Forest.prune, hd]; rfl, hparse, hfacet⟩
    | true =>
      obtain ⟨w, hw, hparse, hfacet⟩ :=
        hv.exists_single hbelow (not_branching_of_drops hd hup) hparse
      have hprune : (Forest.cons v below .nil).prune drops up = below.prune drops up := by
        rw [Forest.prune, hd, if_pos rfl]
        exact Forest.append_nil _
      rw [hprune]
      exact ihb hbelow hw hparse hfacet

theorem tidy_prune (hj : ∀ e ∈ f.edges (some parent), Joined e) :
    Tidy up.node (f.prune drops up) := by
  induction f generalizing parent up with
  | nil => trivial
  | cons v below rest ihb ihr =>
    rw [Forest.edges, List.forall_mem_cons, List.forall_mem_append] at hj
    obtain ⟨hv, hbelow, hrest⟩ := hj
    rw [Forest.prune]
    cases hd : drops up v with
    | true => exact (tidy_append _ _).mpr ⟨ihb hbelow, ihr hrest⟩
    | false =>
      refine ⟨⟨fun hcheckpoint => ?_, fun hparse hcheckpoint hfacet => ?_⟩, ihb hbelow, ihr hrest⟩
      · cases hn : v.node with
        | checkpoint c => exact hn ▸ Graph.demands_of_not_drops hn hd
        | _ => simp [hn, Node.isCheckpoint] at hcheckpoint
      · have hb := not_branching hv.source hcheckpoint
        obtain ⟨w, hw, hparse, hfacet⟩ := hv.exists_single hbelow hb hparse
        exact onward_prune hbelow hw hparse hfacet hcheckpoint

namespace Session

abbrev trees (s : Session) : List (Tree Vertex) := (s.graph.optimize s.roots).treesAt s.roots

abbrev steps (s : Session) : List Step := stepsOf s.trees

theorem Sound.planted (hs : s.Sound) : Planted (s.graph.optimize s.roots).forest s.trees :=
  (hs.sourceRoots.optimize hs.wellFormed).planted (hs.wellFormed.optimize s.roots)

theorem Sound.exists_root (hs : s.Sound) (ht : t ∈ s.trees) : ∃ u d,
    s.graph.forest.Leads [u.label] u ∧ t = ⟨u.label, u.below.prune Graph.drops u.label⟩ ∧
      u.label.node = .source (.ofData d) ∧ (d.identity, u.label.id) ∈ s.sources := by
  obtain ⟨root, hroot, u, hu, rfl⟩ := Graph.exists_of_mem_treesAt hs.wellFormed hs.sourceRoots ht
  obtain ⟨⟨key, root⟩, hentry, rfl⟩ := List.mem_map.mp hroot
  obtain ⟨d, u', rfl, hl, hlabel⟩ := hs.leads_source hentry
  have hsame := hs.wellFormed.tree?_eq hl
  rw [hlabel] at hsame
  obtain rfl := Option.some.inj (hsame.symm.trans hu)
  exact ⟨u', d, hl, rfl, by rw [hlabel], by rw [hlabel]; exact hentry⟩

theorem JoinedForest.clear (hf : s.JoinedForest) (ht : s.graph.forest.Leads [t.label] t) :
    Clear ⟨t.label, t.below.prune drops t.label⟩ where
  tidy := tidy_prune fun e he => hf.joined e (ht.edges_subset none he)
  inner v hv := by
    obtain ⟨way, u, hu, rfl⟩ := Forest.exists_leads_of_mem hv
    obtain ⟨path, u, hl, -, rfl, -⟩ := hu.of_prune
    exact hf.isSource_eq_false (ht.append hl) _ (List.mem_of_getLast? hl.getLast?)

theorem JoinedForest.clear_trees (hf : s.JoinedForest) (hs : s.Sound) : ∀ t ∈ s.trees, Clear t := by
  intro t ht
  obtain ⟨u, d, hu, rfl, -⟩ := hs.exists_root ht
  exact hf.clear hu

/-- Each record that a session comes to, but for index records, is named by a source or by a
checkpoint that is left, and each of them names one at most. -/
theorem JoinedForest.labelled (hf : s.JoinedForest) (hs : s.Sound) : ∃ taken : List String,
    (emittedOf s.steps).map Record.name = taken.map some ∧
      taken.Subperm ((s.trees.flatMap Tree.toList).filterMap (labelIn s.steps)) :=
  hs.planted.labelled (hf.clear_trees hs)

end Session

end ChartPipeline
