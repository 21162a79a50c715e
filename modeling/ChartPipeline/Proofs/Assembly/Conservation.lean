import ChartPipeline.Proofs.Assembly.Account
import ChartPipeline.Proofs.Assembly.Meaning
import ChartPipeline.Proofs.Assembly.Visits

/-!
# What an assembly makes of its nodes

For a graph and its roots: every node below the roots is visited once, its transforms are in one
place of one record, and nothing else is in the records but the index records of the facets.
-/

namespace ChartPipeline

open Assembly

namespace Graph

def transformsAt (g : Graph) (id : NodeId) : List Transform := (g.node? id).elim [] Node.transforms

def isFacetAt (g : Graph) (id : NodeId) : Bool := (g.node? id).any Node.isFacet

variable {g : Graph} {roots : List NodeId} {records : List Record} {v : Vertex}

theorem map_id_toList_treesAt (g : Graph) (roots : List NodeId) :
    ((g.treesAt roots).flatMap Tree.toList).map Vertex.id = roots.flatMap g.descendants := by
  induction roots with
  | nil => rfl
  | cons root roots ih =>
    rw [treesAt, List.flatMap_cons, ← ih, descendants]
    cases ht : g.tree? root with
    | none => rw [List.filterMap_cons_none ht]; rfl
    | some t => rw [List.filterMap_cons_some ht, List.flatMap_cons, List.map_append]; rfl

theorem WellFormed.node?_of_mem (hg : g.WellFormed) (hr : g.SourceRoots roots)
    (hv : v ∈ (g.treesAt roots).flatMap Tree.toList) : g.node? v.id = some v.node := by
  obtain ⟨t, ht, hv⟩ := List.mem_flatMap.mp hv
  have hmem := ((hr.planted hg).leads t ht).sublist.subset hv
  obtain ⟨path, u, hu, rfl⟩ := Forest.exists_leads_of_mem hmem
  exact hg.node?_eq hu

/-- The nodes below the roots, the steps of their assembly, and the records that come of it. -/
structure Conserved (g : Graph) (roots : List NodeId) (records : List Record) : Prop where
  /-- Some of the steps complete a record, others an index record. -/
  records_eq : records = recordsOf (g.stepsOf roots)
  /-- Each record that is no index record is made of blocks, one for each of some nodes, and every
  node below the roots has its block in one place of one record. -/
  blocks : ∃ blocks : List (List NodeId),
    List.Forall₂ (fun r block => r.transform = block.flatMap g.transformsAt)
      (emittedOf (g.stepsOf roots)) blocks ∧
    blocks.flatten.Perm (roots.flatMap g.descendants)
  /-- The index records are those of the facets below the roots. -/
  indexed : ∃ facets : List NodeId, facets.Perm ((roots.flatMap g.descendants).filter g.isFacetAt) ∧
    indexedOf (g.stepsOf roots) =
      facets.flatMap fun id => indexRecords ((g.assemble roots).graph.node? id)
  /-- No node lies below two roots. -/
  nodup : (roots.flatMap g.descendants).Nodup
  /-- Every node below the roots is visited. -/
  visits : ∃ visited, (runVisiting (g.treesAt roots)).run {} =
      (visited, ((run (g.treesAt roots)).run {}).2) ∧
    (visited.map Vertex.id).Perm (roots.flatMap g.descendants)
  /-- Each root has one record without a source, with the data of the root. -/
  origins : ((records.filter (·.source.isNone)).map fun r => some (r.url, r.values)) =
    roots.map fun root => ((g.node? root).bind Node.data?).map fun d => (d.url, d.values)

theorem forall₂_map_right {α β γ : Type} {R : α → β → Prop} {S : α → γ → Prop} {f : β → γ}
    {xs : List α} {ys : List β} (h : List.Forall₂ R xs ys)
    (hs : ∀ x, ∀ y ∈ ys, R x y → S x (f y)) : List.Forall₂ S xs (ys.map f) := by
  induction h with
  | nil => exact .nil
  | cons h _ ih =>
    exact .cons (hs _ _ (List.mem_cons_self ..) h)
      (ih fun x y hy => hs x y (List.mem_cons_of_mem _ hy))

theorem exists_blocks (hg : g.WellFormed) (hr : g.SourceRoots roots) :
    ∃ blocks : List (List NodeId),
      List.Forall₂ (fun r block => r.transform = block.flatMap g.transformsAt)
        (emittedOf (g.stepsOf roots)) blocks ∧
      blocks.flatten.Perm (roots.flatMap g.descendants) := by
  obtain ⟨blocks, hblocks, hp⟩ := (hr.planted hg).exists_blocks
  refine ⟨blocks.map (List.map Vertex.id), forall₂_map_right hblocks fun r block hb h => ?_, ?_⟩
  · rw [h, transformsOf, List.flatMap_map]
    refine List.flatMap_congr fun v hv => ?_
    have hmem := hp.subset (List.mem_flatten.mpr ⟨block, hb, hv⟩)
    rw [transformsAt, hg.node?_of_mem hr hmem]
    rfl
  · rw [← map_id_toList_treesAt, ← List.map_flatten]
    exact hp.map Vertex.id

theorem exists_facets (hg : g.WellFormed) (hr : g.SourceRoots roots)
    (hok : (g.assemble roots).records = .ok records) :
    ∃ facets : List NodeId, facets.Perm ((roots.flatMap g.descendants).filter g.isFacetAt) ∧
      indexedOf (g.stepsOf roots) =
        facets.flatMap fun id => indexRecords ((g.assemble roots).graph.node? id) := by
  have hp := hr.planted hg
  have hfacets := perm_facets hp.sources
  refine ⟨(facets (g.treesAt roots)).map (·.label.id), ?_, ?_⟩
  · have hfilter : ((g.treesAt roots).flatMap Tree.toList).filter (g.isFacetAt ∘ Vertex.id) =
        ((g.treesAt roots).flatMap Tree.toList).filter atFacet := by
      refine List.filter_congr fun v hv => ?_
      rw [Function.comp_apply, isFacetAt, hg.node?_of_mem hr hv]
      rfl
    rw [← map_id_toList_treesAt, List.filter_map, hfilter]
    have hids := hfacets.map Vertex.id
    rwa [List.map_map] at hids
  · rw [List.flatMap_map]
    refine hp.indexedOf fun t ht n hn => ?_
    have hmem := (List.mem_filter.mp (hfacets.subset (List.mem_map_of_mem ht))).1
    rw [assemble_eq] at hok ⊢
    rw [graph_of_ok hok, node?_foldl_apply hp.nodup_stepsOf hn, hg.node?_of_mem hr hmem]
    rfl

theorem map_filter_source (records : List Record) :
    (records.filter (·.source.isNone)).map (fun r => { r with name := none, transform := [] }) =
      records.flatMap origin := by
  induction records with
  | nil => rfl
  | cons r records ih =>
    rw [List.flatMap_cons, ← ih, origin]
    cases h : r.source <;> simp [h]

theorem map_origins (hg : g.WellFormed) (hr : g.SourceRoots roots)
    (hok : (g.assemble roots).records = .ok records) :
    (records.filter (·.source.isNone)).map (fun r => some { r with name := none, transform := [] }) =
      (g.treesAt roots).map seedOf := by
  obtain ⟨ids, -, hindexed⟩ := exists_facets hg hr hok
  obtain rfl : records = recordsOf (g.stepsOf roots) := (records_eq_ok.mp hok).2
  have hown : ∀ r ∈ indexedOf (g.stepsOf roots), origin r = [] := by
    intro r hr
    rw [hindexed] at hr
    obtain ⟨id, -, hr⟩ := List.mem_flatMap.mp hr
    exact origin_of_mem_indexRecords hr
  rw [← (hr.planted hg).origins, ← flatMap_origin hown, ← map_filter_source, List.map_map]
  rfl

theorem seedOf_data (t : Tree Vertex) : (seedOf t).map (fun r => (r.url, r.values)) =
    t.label.node.data?.map fun d => (d.url, d.values) := by
  unfold seedOf
  cases t.label.node with
  | source s =>
    simp only [seedRecord, Record.withCoercions, Option.map_some]
    split <;> rfl
  | _ => rfl

theorem origins_eq (hg : g.WellFormed) (hr : g.SourceRoots roots)
    (hok : (g.assemble roots).records = .ok records) :
    ((records.filter (·.source.isNone)).map fun r => some (r.url, r.values)) =
      roots.map fun root => ((g.node? root).bind Node.data?).map fun d => (d.url, d.values) := by
  have hp := hr.planted hg
  have horigins := congrArg (List.map (Option.map fun r : Record => (r.url, r.values)))
    (map_origins hg hr hok)
  rw [List.map_map, List.map_map] at horigins
  calc _ = (g.treesAt roots).map fun t => t.label.node.data?.map fun d => (d.url, d.values) := by
        refine horigins.trans (List.map_congr_left fun t _ => ?_)
        rw [Function.comp_apply, seedOf_data]
    _ = ((g.treesAt roots).map (·.label.id)).map fun root =>
          ((g.node? root).bind Node.data?).map fun d => (d.url, d.values) := by
        rw [List.map_map]
        refine List.map_congr_left fun t ht => ?_
        rw [Function.comp_apply, hg.node?_eq (hp.leads t ht), Option.bind_some]
    _ = _ := by rw [map_id_treesAt hr.sources]

/-- Whatever was built: if the assembly succeeds, no transform is lost, and none is there twice. -/
theorem assemble_conserves (hg : g.Reachable) (hr : g.SourceRoots roots)
    (hok : (g.assemble roots).records = .ok records) : g.Conserved roots records where
  records_eq := (records_eq_ok.mp hok).2
  blocks := exists_blocks hg.wellFormed hr
  indexed := exists_facets hg.wellFormed hr hok
  nodup := by
    rw [← map_id_toList_treesAt]
    exact (hr.planted hg.wellFormed).nodup_ids
  visits := by
    obtain ⟨visited, hrun, hv⟩ := (hr.planted hg.wellFormed).visits
    exact ⟨visited, hrun, map_id_toList_treesAt g roots ▸ hv.map Vertex.id⟩
  origins := origins_eq hg.wellFormed hr hok

theorem assemble_conserves_sample : sample.Conserved [0] sampleRecords :=
  assemble_conserves reachable_sample sourceRoots_sample rfl

end Graph

end ChartPipeline
