import ChartPipeline.Proofs.Assembly.Conservation
import ChartPipeline.Proofs.Assembly.Optimized

/-!
# What the index records of facets read

After an assembly every facet has the name of one record, and its index records read from that one.
Unfolded, it is what the nodes above the facet make of the data of the source, with or without
optimizing.
-/

namespace ChartPipeline

open Assembly
open Forest (lastKept)
open Record (Unfolds)

namespace Assembly

/-- The index records of a facet are there, and what they read from has exactly the content. -/
def Splits (records : List Record) (f : FacetSplit) (content : Content) : Prop :=
  ∃ name r, records.filter (·.name == some name) = [r] ∧
    (∀ d, Unfolds records r d ↔ d = content) ∧
    ∀ index ∈ ({ f with source := some name } : FacetSplit).records, index ∈ records

end Assembly

namespace Graph

variable {g : Graph} {roots : List NodeId} {records : List Record} {root : NodeId}
  {t u : Tree Vertex} {path : List Vertex} {f : FacetSplit} {s : Source}

theorem splits_of_leads (hg : g.WellFormed) (hr : g.SourceRoots roots)
    (hok : (g.assemble roots).records = .ok records) (hn : (records.filterMap Record.name).Nodup)
    (hroot : root ∈ roots) (ht : g.tree? root = some t) (hu : t.below.Leads path u)
    (hf : u.label.node = .facet f) : Splits records f (contentAlong (t.label :: path)) := by
  have hp := hr.planted hg
  have hmem : t ∈ g.treesAt roots := List.mem_filterMap.mpr ⟨root, hroot, ht⟩
  have hnode : g.node? u.label.id = some (.facet f) :=
    hf ▸ hg.node?_eq ((hp.leads t hmem).append hu)
  obtain ⟨ids, hids, hindexed⟩ := exists_facets hg hr hok
  rw [assemble_eq] at hok hindexed
  obtain ⟨-, hrecords⟩ := records_eq_ok.mp hok
  obtain ⟨n, hname, ho⟩ := hp.offers hmem hu (.inl (by rw [hf]; rfl))
  rw [← hrecords] at ho
  obtain ⟨r, hone, hunfold⟩ := ho.exactly hn
  refine ⟨n, r, hone, hunfold, fun index hindex => ?_⟩
  have hid : u.label.id ∈ ids := by
    refine hids.mem_iff.mpr (List.mem_filter.mpr ⟨List.mem_flatMap.mpr ⟨root, hroot, ?_⟩, ?_⟩)
    · exact mem_descendants.mpr ⟨t, ht, .inr ⟨path, u, hu, rfl⟩⟩
    · rw [isFacetAt, hnode]
      rfl
  have hnamed : (outcome g (g.stepsOf roots)).graph.node? u.label.id =
      some (.facet { f with source := some n }) := by
    rw [graph_of_ok hok, node?_foldl_apply hp.nodup_stepsOf hname, hnode]
    rfl
  have hmem : index ∈ indexedOf (g.stepsOf roots) := by
    rw [hindexed]
    exact List.mem_flatMap.mpr ⟨_, hid, by rw [hnamed]; exact hindex⟩
  rw [hrecords]
  exact (perm_recordsOf _).mem_iff.mpr (List.mem_append_right _ hmem)

theorem splits_of_prune (hg : g.WellFormed) (hr : g.SourceRoots roots)
    (hok : ((g.optimize roots).assemble roots).records = .ok records)
    (hn : (records.filterMap Record.name).Nodup) (hroot : root ∈ roots)
    (ht : g.tree? root = some t) (hs : t.label.node = .source s) (hu : t.below.Leads path u)
    (hf : u.label.node = .facet f) :
    Splits records f
      ⟨s.data.url, s.data.values, (t.label :: path).flatMap (·.node.transforms)⟩ := by
  have hw := hg.optimize roots
  have ht' := hw.tree?_eq (leads_root hg hr hroot ht)
  obtain ⟨rfl, -⟩ := leads_of_tree? ht
  have hkeep : drops (lastKept drops t.label path.dropLast) u.label = false := by
    rw [drops, hf]
    rfl
  obtain ⟨u', hu', he⟩ := hu.exists_prune hkeep
  have hsplits := splits_of_leads hw (hr.optimize hg) hok hn hroot ht' hu' (he ▸ hf)
  rwa [contentAlong_source hs, List.flatMap_cons, flatMap_transforms_kept] at hsplits

end Graph

end ChartPipeline
