import ChartPipeline.Proofs.Assembly.Meaning
import ChartPipeline.Proofs.Graph.Optimize

/-!
# Optimizing keeps the meaning

What is assembled after optimizing may be cut into other records under other names. Still it
succeeds if it did before, and each checkpoint that is left stands for the path that it had.
-/

namespace ChartPipeline.Graph

open Assembly
open Forest (Leads kept parentOn)

variable {g : Graph} {roots : List NodeId} {records : List Record} {root id : NodeId}
  {t : Tree Vertex}

theorem nodeAbove_eq (v : Vertex) (path : List Vertex) :
    nodeAbove v.node path = (parentOn v path).node := by
  rw [nodeAbove, Forest.parentOn_eq, Forest.parentOn_eq, ← List.map_dropLast, List.getLast?_map]
  cases path.dropLast.getLast? <;> rfl

theorem leads_root (hg : g.WellFormed) (hr : g.SourceRoots roots) (hroot : root ∈ roots)
    (ht : g.tree? root = some t) : (g.optimize roots).forest.Leads [t.label]
      ⟨t.label, t.below.prune drops t.label⟩ := by
  have hp := hr.planted hg
  have hmem {root : NodeId} {t : Tree Vertex} (hroot : root ∈ roots) (ht : g.tree? root = some t) :
      t ∈ g.treesAt roots := List.mem_filterMap.mpr ⟨root, hroot, ht⟩
  have hall := leads_optimize hg hr.nodup
    (fun root hroot => by
      obtain ⟨r, s, hr, hid, -⟩ := hr.tree?_eq hroot
      exact ⟨r, hp.leads r (hmem hroot hr), hid⟩)
    (hp.leads t (hmem hroot ht))
  rwa [if_pos ((leads_of_tree? ht).1 ▸ hroot)] at hall

theorem SourceRoots.optimize (hg : g.WellFormed) (hr : g.SourceRoots roots) :
    (g.optimize roots).SourceRoots roots where
  nodup := hr.nodup
  sources := by
    intro root hroot
    obtain ⟨t, s, ht, rfl, hs⟩ := hr.tree?_eq hroot
    have hnode := (hg.optimize roots).node?_eq (leads_root hg hr hroot ht)
    rw [hs] at hnode
    simp [hnode, Node.isSource]
  parentless := by
    intro root hroot
    obtain ⟨t, s, ht, rfl, hs⟩ := hr.tree?_eq hroot
    exact (hg.optimize roots).parent?_eq (leads_root hg hr hroot ht)

theorem exists_of_mem_treesAt (hg : g.WellFormed) (hr : g.SourceRoots roots)
    (ht : t ∈ (g.optimize roots).treesAt roots) : ∃ root ∈ roots, ∃ u, g.tree? root = some u ∧
      t = ⟨u.label, u.below.prune drops u.label⟩ := by
  obtain ⟨root, hroot, ht⟩ := List.mem_filterMap.mp ht
  obtain ⟨u, s, hu, rfl, -⟩ := hr.tree?_eq hroot
  have htree := (hg.optimize roots).tree?_eq (leads_root hg hr hroot hu)
  exact ⟨_, hroot, u, hu, Option.some.inj (ht.symm.trans htree)⟩

/-- Parse nodes keep their sources, so nothing goes wrong that did not go wrong before. -/
theorem exists_records_optimize (hg : g.WellFormed) (hr : g.SourceRoots roots)
    (hok : (g.assemble roots).records = .ok records) :
    ∃ after, ((g.optimize roots).assemble roots).records = .ok after := by
  have hp := hr.planted hg
  have hw := hg.optimize roots
  have hp' := (hr.optimize hg).planted hw
  rw [assemble_eq] at hok
  refine ⟨_, records_eq_ok.mpr ⟨List.eq_nil_iff_forall_not_mem.mpr fun cause hc => ?_, rfl⟩⟩
  obtain ⟨t', ht', path', u', hu', ⟨hparse, habove⟩, -⟩ := hp'.mem_causes.mp hc
  obtain ⟨root, hroot, t, ht, rfl⟩ := exists_of_mem_treesAt hg hr ht'
  obtain ⟨path, u, hu, rfl, rfl, -⟩ := hu'.of_prune
  -- the parse node was directly below a source
  have hsource : (parentOn t.label path).node.isSource = true := by
    by_contra hno
    have hc := hp.mem_causes.mpr ⟨t, List.mem_filterMap.mpr ⟨root, hroot, ht⟩, path, u, hu,
      ⟨hparse, by rw [nodeAbove_eq]; simpa using hno⟩, rfl⟩
    rw [show causesOf (Assembly.stepsOf _) = [] from (records_eq_ok.mp hok).1] at hc
    cases hc
  have hkept : parentOn t.label (kept drops t.label path) = parentOn t.label path := by
    refine Forest.parentOn_kept (fun up v hv => ?_) (drops_of_isSource hsource)
    obtain rfl := Option.some.inj (hu.getLast?.symm.trans hv)
    exact drops_of_isParse hparse up
  rw [nodeAbove_eq, hkept, hsource] at habove
  cases habove

theorem stands_of_prune {after : List Record} {path : List Vertex} {u : Tree Vertex}
    {c : Checkpoint} {s : Source} (hg : g.WellFormed) (hr : g.SourceRoots roots)
    (hok : ((g.optimize roots).assemble roots).records = .ok after)
    (hn : (after.filterMap Record.name).Nodup) (hroot : root ∈ roots) (ht : g.tree? root = some t)
    (hs : t.label.node = .source s)
    (hu : (t.below.prune drops t.label).Leads (kept drops t.label path) u)
    (hc : u.label.node = .checkpoint c) :
    Stands ((g.optimize roots).assemble roots) after u.label.id c
      ⟨s.data.url, s.data.values, (t.label :: path).flatMap (·.node.transforms)⟩ := by
  have hw := hg.optimize roots
  have ht' := hw.tree?_eq (leads_root hg hr hroot ht)
  obtain ⟨rfl, -⟩ := leads_of_tree? ht
  have hd := demands_of_not_drops hc hu.not_dropped
  rw [← nodeAbove_eq] at hd
  have hstands := stands_of_leads hw (hr.optimize hg) hok hn hroot ht' hu hc hd
  rwa [contentAlong_source hs, List.flatMap_cons, flatMap_transforms_kept] at hstands

/-- Whatever was built: if the assembly succeeds, it also does after optimizing. If no record name
is repeated then, each checkpoint that is left below a root has got the name of exactly one record.
That unfolds to the data of the root, with the transforms on the path to the checkpoint as it was
before optimizing. -/
theorem optimize_keeps_meaning (hg : g.Reachable) (hr : g.SourceRoots roots)
    (hok : (g.assemble roots).records = .ok records) :
    ∃ after, ((g.optimize roots).assemble roots).records = .ok after ∧
      ((after.filterMap Record.name).Nodup → ∀ root ∈ roots,
        ∀ id ∈ (g.optimize roots).descendants root, ∀ c,
          (g.optimize roots).node? id = some (.checkpoint c) →
          ∃ s, g.node? root = some (.source s) ∧ (g.path id).head?.map Vertex.id = some root ∧
            Stands ((g.optimize roots).assemble roots) after id c
              ⟨s.data.url, s.data.values, g.pipeline id⟩) := by
  have hw := hg.wellFormed
  have hw' := hw.optimize roots
  obtain ⟨after, hafter⟩ := exists_records_optimize hw hr hok
  refine ⟨after, hafter, fun hn root hroot id hid c hc => ?_⟩
  obtain ⟨t, s, ht, rfl, hs⟩ := hr.tree?_eq hroot
  have htop := (hr.planted hw).leads t (List.mem_filterMap.mpr ⟨_, hroot, ht⟩)
  have htop' := leads_root hw hr hroot ht
  have ht' := hw'.tree?_eq htop'
  obtain ⟨_, he, rfl | ⟨path', u', hu', rfl⟩⟩ := mem_descendants.mp hid
  · -- the root is a source
    rw [node?, ht'] at hc
    simp [hs] at hc
  obtain rfl := Option.some.inj (ht'.symm.trans he)
  obtain ⟨path, u, hu, rfl, rfl, -⟩ := hu'.of_prune
  have hpos := htop.append hu
  have hnode : u.label.node = .checkpoint c :=
    Option.some.inj ((hw'.node?_eq (htop'.append hu')).symm.trans hc)
  refine ⟨s, hs ▸ hw.node?_eq htop, by rw [hw.path_eq hpos]; rfl, ?_⟩
  rw [pipeline, hw.path_eq hpos]
  exact stands_of_prune hw hr hafter hn hroot ht hs hu' hnode

theorem optimize_keeps_meaning_sample :
    Stands ((sample.optimize [0]).assemble [0]) sampleRecords 4 { name := "main", required := true }
      ⟨none, none, [.formula "datum.a" "b"]⟩ := by
  obtain ⟨after, hafter, h⟩ := @optimize_keeps_meaning sample [0] sampleRecords reachable_sample
    sourceRoots_sample rfl
  have hrecords : ((sample.optimize [0]).assemble [0]).records = .ok sampleRecords := rfl
  obtain rfl : after = sampleRecords := Except.ok.inj (hafter.symm.trans hrecords)
  obtain ⟨s, hs, -, h⟩ := h (by decide) 0 (by simp) 4 (by decide) _ rfl
  cases hs
  exact h

end ChartPipeline.Graph
