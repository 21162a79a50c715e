import ChartPipeline.Proofs.Assembly.Outcome

/-!
# What checkpoints stand for

After an assembly every checkpoint that has to be addressable has the name of one record, and that
record, unfolded, is what the nodes on the path to the checkpoint make of the data of the source.
-/

namespace ChartPipeline

open Assembly
open Record (Unfolds)

/-- The transforms of all nodes from a parentless one down to a node. -/
def Graph.pipeline (g : Graph) (id : NodeId) : List Transform :=
  (g.path id).flatMap (·.node.transforms)

namespace Assembly

open Forest (Leads)

/-- After an assembly, a checkpoint has the name of exactly one of the records, and that stands for
the content and nothing else. -/
def Stands (o : Outcome) (records : List Record) (id : NodeId) (c : Checkpoint)
    (content : Content) : Prop :=
  ∃ name r, o.graph.node? id = some (.checkpoint { c with source := some name }) ∧
    records.filter (·.name == some name) = [r] ∧ ∀ d, Unfolds records r d ↔ d = content

variable {g : Graph} {roots : List NodeId} {records : List Record} {root id : NodeId}
  {t u : Tree Vertex} {path : List Vertex} {c : Checkpoint} {s : Source}

theorem dropLast_getLast?_cons (v : Vertex) (h : path ≠ []) :
    ((v :: path).dropLast.getLast?).map Vertex.node = some (nodeAbove v.node path) := by
  rw [List.dropLast_cons_of_ne_nil h, List.getLast?_cons, Option.map_some, nodeAbove,
    Forest.parentOn_eq, ← List.map_dropLast, List.getLast?_map]
  cases path.dropLast.getLast? <;> rfl

theorem contentAlong_source (hs : t.label.node = .source s) (path : List Vertex) :
    contentAlong (t.label :: path) =
      ⟨s.data.url, s.data.values, (t.label :: path).flatMap (·.node.transforms)⟩ := by
  simp [contentAlong, hs, Node.data?, transformsOf]

theorem stands_of_leads (hg : g.WellFormed) (hr : g.SourceRoots roots)
    (hok : (g.assemble roots).records = .ok records)
    (hn : (records.filterMap Record.name).Nodup) (hroot : root ∈ roots)
    (ht : g.tree? root = some t) (hu : t.below.Leads path u) (hc : u.label.node = .checkpoint c)
    (hd : Graph.demands (some (nodeAbove t.label.node path)) u.label.node = true) :
    Stands (g.assemble roots) records u.label.id c (contentAlong (t.label :: path)) := by
  have hp := hr.planted hg
  have hmem : t ∈ g.treesAt roots := List.mem_filterMap.mpr ⟨root, hroot, ht⟩
  rw [Graph.assemble_eq] at hok
  obtain ⟨-, hrecords⟩ := records_eq_ok.mp hok
  obtain ⟨n, hname, ho⟩ := hp.offers hmem hu (.inr hd)
  have hnode : g.node? u.label.id = some (.checkpoint c) :=
    hc ▸ hg.node?_eq ((hp.leads t hmem).append hu)
  rw [← hc] at hnode
  rw [← hrecords] at ho
  obtain ⟨r, hone, hunfold⟩ := ho.exactly hn
  refine ⟨n, r, ?_, hone, hunfold⟩
  rw [Graph.assemble_eq, graph_of_ok hok, node?_foldl_apply hp.nodup_stepsOf hname, hnode, hc]
  rfl

end Assembly

namespace Graph

open Assembly

variable {g : Graph} {roots : List NodeId} {records : List Record} {root id : NodeId}

theorem needsAssembly_root (h : g.SourceRoots roots) (hr : root ∈ roots) :
    g.needsAssembly root = false := by
  obtain ⟨t, s, ht, -, hs⟩ := h.tree?_eq hr
  rw [needsAssembly, node?, ht]
  simp [hs, demands]

/-- Whatever was built: if the assembly succeeds and no record name is repeated, a checkpoint below
a root that has to be addressable has got the name of exactly one record. That unfolds to the data
of the root, with the transforms on the path from the root to the checkpoint in order. -/
theorem checkpoint_stands_for_path (hg : g.Reachable) (hr : g.SourceRoots roots)
    (hok : (g.assemble roots).records = .ok records) (hn : (records.filterMap Record.name).Nodup)
    (hroot : root ∈ roots) (hid : id ∈ g.descendants root) (hneeds : g.needsAssembly id = true) :
    ∃ s c, g.node? root = some (.source s) ∧ g.node? id = some (.checkpoint c) ∧
      (g.path id).head?.map Vertex.id = some root ∧
      Stands (g.assemble roots) records id c ⟨s.data.url, s.data.values, g.pipeline id⟩ := by
  have hw := hg.wellFormed
  obtain ⟨t, s, ht, rfl, hs⟩ := hr.tree?_eq hroot
  have hroots := hr.planted hw
  have htop := hroots.leads t (List.mem_filterMap.mpr ⟨_, hroot, ht⟩)
  obtain ⟨t', ht', rfl | ⟨path, u, hu, rfl⟩⟩ := mem_descendants.mp hid
  · simp [needsAssembly_root hr hroot] at hneeds
  obtain rfl := Option.some.inj (ht.symm.trans ht')
  have hpos := htop.append hu
  rw [hw.needsAssembly_eq hpos, List.singleton_append, dropLast_getLast?_cons _ hu.ne_nil] at hneeds
  obtain ⟨c, hc⟩ : ∃ c, u.label.node = .checkpoint c := by
    cases hn : u.label.node with
    | checkpoint c => exact ⟨c, rfl⟩
    | _ => simp [hn, demands] at hneeds
  refine ⟨s, c, hs ▸ hw.node?_eq htop, hc ▸ hw.node?_eq hpos, by rw [hw.path_eq hpos]; rfl, ?_⟩
  rw [pipeline, hw.path_eq hpos, List.singleton_append, ← contentAlong_source hs]
  exact stands_of_leads hw hr hok hn hroot ht hu hc hneeds

/-- A table with a computed field. Below come a checkpoint that nothing refers to and, behind a
facet with rows, one that is required. -/
def sample : Graph :=
  ((((({} : Graph).add (.source { data := {}, name := some "table" })).addChild 0
    (.calculate { expr := "datum.a", target := "b" })).addChild 1
    (.checkpoint { name := "raw", required := false })).addChild 2
    (.facet { row := some "c" })).addChild 3
    (.checkpoint { name := "main", required := true })

theorem reachable_sample : sample.Reachable :=
  .addChild _ _ (.addChild _ _ (.addChild _ _ (.addChild _ _ (.add _ .empty))))

theorem sourceRoots_sample : sample.SourceRoots [0] where
  nodup := by decide
  sources := by decide
  parentless := by decide

def sampleRecords : List Record :=
  [{ name := some "table", transform := [.formula "datum.a" "b"] },
    { name := some "row_table", source := some "table", transform := [.aggregate ["c"] []] }]

theorem checkpoint_stands_for_path_sample :
    Stands (sample.assemble [0]) sampleRecords 4 { name := "main", required := true }
      ⟨none, none, [.formula "datum.a" "b"]⟩ := by
  obtain ⟨s, c, hs, hc, -, h⟩ := @checkpoint_stands_for_path sample [0] sampleRecords 0 4
    reachable_sample sourceRoots_sample rfl (by decide) (by simp) (by decide) rfl
  cases hs
  cases hc
  exact h

end Graph

end ChartPipeline
