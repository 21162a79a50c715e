import ChartPipeline.Proofs.Assembly.Optimized
import ChartPipeline.Proofs.Assembly.References
import ChartPipeline.Proofs.Session.Shape

/-!
# Finishing a session

A session with a joined forest can be finished (`JoinedForest.exists_finish`). What it binds are
checkpoints that are left below its sources, each to the name of a record (`mem_bindings`,
`JoinedForest.exists_kept`).
-/

namespace ChartPipeline

open Assembly
open Forest (Leads)
open ChartPipeline.Graph (drops)

namespace Session

variable {s : Session} {c : Compiled} {t u : Tree Vertex} {path : List Vertex} {k : Checkpoint}
  {id : NodeId} {name record : String}

theorem finish_ok (h : s.finish.2 = .ok c) :
    ((s.graph.optimize s.roots).assemble s.roots).records = .ok c.data ∧
      c.outputs = bindings s.outputs ((s.graph.optimize s.roots).assemble s.roots).graph := by
  unfold finish at h
  dsimp only at h
  cases hr : ((s.graph.optimize s.roots).assemble s.roots).records with
  | error cause =>
    rw [hr] at h
    cases h
  | ok data =>
    rw [hr] at h
    cases h
    exact ⟨rfl, rfl⟩

theorem Sound.sourceRoots (hs : s.Sound) : s.graph.SourceRoots s.roots where
  nodup := by
    refine List.Nodup.map_on (fun x hx y hy he => ?_) (List.Nodup.of_map _ hs.keys)
    obtain ⟨d, t, hd, hl, ht⟩ := hs.leads_source hx
    obtain ⟨d', t', hd', hl', ht'⟩ := hs.leads_source hy
    have hlabel := congrArg Tree.label (hl.unique hs.wellFormed.keyed hl' (by rw [ht, ht', he])).2
    rw [ht, ht', he] at hlabel
    -- the same node has the same data
    obtain rfl : d = d' := by
      injection hlabel with _ hnode
      injection hnode with hsource
      exact congrArg Source.data hsource
    exact Prod.ext (hd.symm.trans hd') he
  sources := by
    intro root hroot
    obtain ⟨⟨key, id⟩, hentry, rfl⟩ := List.mem_map.mp hroot
    obtain ⟨d, t, -, hl, ht⟩ := hs.leads_source hentry
    have hnode := hs.wellFormed.node?_eq hl
    rw [ht] at hnode
    simp [hnode, Node.isSource]
  parentless := by
    intro root hroot
    obtain ⟨⟨key, id⟩, hentry, rfl⟩ := List.mem_map.mp hroot
    obtain ⟨d, t, -, hl, ht⟩ := hs.leads_source hentry
    have hparent := hs.wellFormed.parent?_eq hl
    rw [ht] at hparent
    exact hparent

theorem find?_bindings {outputs : OrderedMap String NodeId} {g : Graph} {name record : String}
    {c : Checkpoint} (hout : OrderedMap.find? name outputs = some id)
    (hc : g.node? id = some (.checkpoint { c with source := some record }))
    (hd : g.isDetached id = false) : OrderedMap.find? name (bindings outputs g) = some record := by
  refine OrderedMap.find?_filterMap (fun x y hy => ?_) hout (by simp [hc, hd])
  dsimp only at hy
  split at hy
  · split at hy
    · cases hy
    · obtain ⟨source, -, rfl⟩ := Option.map_eq_some_iff.mp hy
      rfl
  · cases hy

/-- Nothing is misplaced in a session that is in shape. -/
theorem JoinedForest.exists_finish (hf : s.JoinedForest) (hs : s.Sound) :
    ∃ c, s.finish.2 = .ok c := by
  have hw := hs.wellFormed
  have hp := hs.sourceRoots.planted hw
  have hok : (s.graph.assemble s.roots).records = .ok (recordsOf (s.graph.stepsOf s.roots)) := by
    rw [Graph.assemble_eq, records_eq_ok]
    refine ⟨List.eq_nil_iff_forall_not_mem.mpr fun cause hc => ?_, rfl⟩
    obtain ⟨t, ht, path, u, hu, ⟨hparse, hup⟩, -⟩ := hp.mem_causes.mp hc
    have hjoined := (hf.joined_of_leads ((hp.leads t ht).append hu)).parse
    have habove := dropLast_getLast?_cons t.label hu.ne_nil
    obtain ⟨up, hlast, hnode⟩ := Option.map_eq_some_iff.mp habove
    rw [List.singleton_append, hlast, hparse, Option.any_some, hnode, hup] at hjoined
    cases hjoined
  obtain ⟨after, hafter⟩ := Graph.exists_records_optimize hw hs.sourceRoots hok
  refine ⟨⟨after, bindings s.outputs ((s.graph.optimize s.roots).assemble s.roots).graph⟩, ?_⟩
  rw [finish, hafter]
  rfl

/-- A checkpoint that is left below a source is bound to the name that it gets, that of a record. -/
theorem Sound.node?_of_kept (hs : s.Sound) (hok : s.finish.2 = .ok c) (hroot : t.label.id ∈ s.roots)
    (ht : s.graph.forest.Leads [t.label] t)
    (hu : (t.below.prune drops t.label).Leads path u) (hk : u.label.node = .checkpoint k) :
    ((s.graph.optimize s.roots).assemble s.roots).graph.isDetached u.label.id = false ∧
      ∃ r ∈ c.data, ∃ n, r.name = some n ∧
        .name u.label.id n ∈ (s.graph.optimize s.roots).stepsOf s.roots ∧
        ((s.graph.optimize s.roots).assemble s.roots).graph.node? u.label.id =
          some (.checkpoint { k with source := some n }) := by
  have hw := hs.wellFormed
  have hw' := hw.optimize s.roots
  have hroots := hs.sourceRoots
  have hp := (hroots.optimize hw).planted hw'
  have htop := Graph.leads_root hw hroots hroot (hw.tree?_eq ht)
  have hmem : (⟨t.label, t.below.prune drops t.label⟩ : Tree Vertex) ∈
      (s.graph.optimize s.roots).treesAt s.roots :=
    List.mem_filterMap.mpr ⟨_, hroot, hw'.tree?_eq htop⟩
  obtain ⟨hrecords, -⟩ := finish_ok hok
  rw [Graph.assemble_eq] at hrecords
  constructor
  · have hapart : Graph.Apart s.graph := by simp [Graph.Apart, hs.attached]
    rw [Graph.isDetached, detached_assemble]
    exact (hapart.optimize s.roots).isDetached_eq hw' (htop.append hu) hu.ne_nil
  · have hd := Graph.demands_of_not_drops hk hu.not_dropped
    rw [← Graph.nodeAbove_eq] at hd
    obtain ⟨n, hname, r, hr, hn, -⟩ := hp.offers hmem hu (.inr hd)
    refine ⟨r, (records_eq_ok.mp hrecords).2 ▸ hr, n, hn, hname, ?_⟩
    rw [Graph.assemble_eq, graph_of_ok hrecords, node?_foldl_apply hp.nodup_stepsOf hname,
      hw'.node?_eq (htop.append hu), hk]
    rfl

theorem mem_bindings {outputs : OrderedMap String NodeId} {g : Graph}
    (h : (name, record) ∈ bindings outputs g) : ∃ id k, (name, id) ∈ outputs ∧
      g.node? id = some (.checkpoint k) ∧ g.isDetached id = false ∧ k.source = some record := by
  obtain ⟨⟨name', id⟩, hmem, hentry⟩ := List.mem_filterMap.mp h
  dsimp only at hentry
  split at hentry
  · rename_i k hk
    split at hentry
    · cases hentry
    · rename_i hd
      obtain ⟨source, hsource, he⟩ := Option.map_eq_some_iff.mp hentry
      cases he
      exact ⟨id, k, hmem, hk, by simpa using hd, hsource⟩
  · cases hentry

theorem isCheckpoint_foldl_apply (g : Graph) (steps : List Step) (id : NodeId) :
    ((steps.foldl Step.apply g).node? id).any Node.isCheckpoint =
      (g.node? id).any Node.isCheckpoint := by
  have hnamed (n : Node) (name : String) : (n.named name).isCheckpoint = n.isCheckpoint := by
    cases n <;> rfl
  induction steps generalizing g with
  | nil => rfl
  | cons step steps ih =>
    rw [List.foldl_cons, ih, node?_apply]
    cases g.node? id with
    | none => rfl
    | some n =>
      cases step.naming?.filter (·.1 == id) with
      | none => rfl
      | some m => exact hnamed n m.2

theorem exists_leads_of_assembled {g : Graph} {roots : List NodeId} {data : List Record}
    (hok : (g.assemble roots).records = .ok data)
    (hk : (g.assemble roots).graph.node? id = some (.checkpoint k)) :
    ∃ path u k, g.forest.Leads path u ∧ u.label.id = id ∧ u.label.node = .checkpoint k := by
  have hcheckpoint : (g.node? id).any Node.isCheckpoint = true := by
    rw [Graph.assemble_eq] at hok hk
    rw [graph_of_ok hok] at hk
    rw [← isCheckpoint_foldl_apply, hk]
    rfl
  obtain ⟨u, hu⟩ : ∃ u, g.tree? id = some u := by
    cases ht : g.tree? id with
    | none => simp [Graph.node?, ht] at hcheckpoint
    | some u => exact ⟨u, rfl⟩
  rw [Graph.node?, hu, Option.map_some, Option.any_some] at hcheckpoint
  obtain ⟨k, hk⟩ : ∃ k, u.label.node = .checkpoint k := by
    cases hn : u.label.node <;> simp_all [Node.isCheckpoint]
  obtain ⟨hid, path, hl⟩ := Graph.leads_of_tree? hu
  exact ⟨path, u, k, hl, hid, hk⟩

theorem JoinedForest.rooted_optimize (hf : s.JoinedForest) :
    (s.graph.optimize s.roots).Rooted s.roots := by
  refine Graph.Rooted.optimize (fun v t ht => .inl ?_) s.roots
  rw [← hf.roots]
  have hlabel : v = t.label := by simpa using ht.getLast?
  exact List.mem_map_of_mem (Forest.mem_roots.mpr ⟨t, ht, hlabel.symm⟩)

/-- Without parent there are only sources and detached nodes. -/
theorem JoinedForest.exists_leads_below (hf : s.JoinedForest) (hs : s.Sound)
    (hl : (s.graph.optimize s.roots).forest.Leads path u) (hk : u.label.node = .checkpoint k)
    (hd : (s.graph.optimize s.roots).isDetached u.label.id = false) :
    ∃ t path, t.label.id ∈ s.roots ∧ s.graph.forest.Leads [t.label] t ∧
      (t.below.prune drops t.label).Leads path u := by
  have hw := hs.wellFormed
  have hw' := hw.optimize s.roots
  obtain ⟨v, path, rfl⟩ := List.exists_cons_of_ne_nil hl.ne_nil
  by_cases hpath : path = []
  · subst hpath
    have hlabel : v = u.label := by simpa using hl.getLast?
    rcases hf.rooted_optimize v u hl with hroot | ⟨hdetached, -⟩
    · have hsource := (hs.sourceRoots.optimize hw).sources v.id hroot
      rw [hlabel, hw'.node?_eq hl, hk] at hsource
      cases hsource
    · rw [hlabel] at hdetached
      simp [Graph.isDetached, hdetached] at hd
  · obtain ⟨t', ht', hu⟩ := (show (s.graph.optimize s.roots).forest.Leads ([v] ++ path) u from
      hl).split (by simp) hpath
    obtain rfl : v = t'.label := by simpa using ht'.getLast?
    rcases hf.rooted_optimize _ t' ht' with hroot | ⟨-, hnil⟩
    · obtain ⟨root, hmem, t, ht, rfl⟩ := Graph.exists_of_mem_treesAt hw hs.sourceRoots
        (List.mem_filterMap.mpr ⟨_, hroot, hw'.tree?_eq ht'⟩)
      have htop := (hs.sourceRoots.planted hw).leads t (List.mem_filterMap.mpr ⟨root, hmem, ht⟩)
      exact ⟨t, path, hroot, htop, hu⟩
    · rw [hnil] at hu
      cases hu

theorem JoinedForest.exists_kept (hf : s.JoinedForest) (hs : s.Sound) (hok : s.finish.2 = .ok c)
    (h : (name, record) ∈ c.outputs) : ∃ t path u k, (name, u.label.id) ∈ s.outputs ∧
      t.label.id ∈ s.roots ∧ s.graph.forest.Leads [t.label] t ∧
      (t.below.prune drops t.label).Leads path u ∧ u.label.node = .checkpoint k ∧
      ∃ r ∈ c.data, r.name = some record := by
  obtain ⟨hrecords, houtputs⟩ := finish_ok hok
  rw [houtputs] at h
  obtain ⟨id, k, hmem, hk, hd, hrecord⟩ := mem_bindings h
  rw [Graph.isDetached, detached_assemble] at hd
  obtain ⟨path, u, k', hl, rfl, hk'⟩ := exists_leads_of_assembled hrecords hk
  obtain ⟨t, path, hroot, ht, hu⟩ := hf.exists_leads_below hs hl hk' hd
  obtain ⟨-, r, hr, n, hname, -, hnode⟩ := hs.node?_of_kept hok hroot ht hu hk'
  obtain rfl := Node.checkpoint.inj (Option.some.inj (hk.symm.trans hnode))
  exact ⟨t, path, u, k', hmem, hroot, ht, hu, hk', r, hr, hname.trans hrecord⟩

end Session

-- ---------------------------------------------------------------------------
-- References
-- ---------------------------------------------------------------------------

/-- If the assembly of a graph succeeds, a record that reads from another one comes behind it. And
whatever a session has gone through, it can be finished, and what its checkpoints are bound to are
the names of records. -/
theorem references_point_backwards :
    (∀ (g : Graph) (roots : List NodeId) (records : List Record), g.Reachable →
      (g.assemble roots).records = .ok records → ∀ earlier r later s,
        records = earlier ++ r :: later → r.source = some s → ∃ p ∈ earlier, p.name = some s) ∧
    ∀ (o : Options) (calls : List Call), ∃ c, (Session.run o calls).finish.2 = .ok c ∧
      ∀ entry ∈ c.outputs, ∃ r ∈ c.data, r.name = some entry.2 := by
  refine ⟨fun g roots records hg hok earlier r later s hr hs => ?_, fun o calls => ?_⟩
  · exact exists_earlier hg.wellFormed hok hr hs
  · obtain ⟨hs, hf⟩ := Session.joinedForest_run o calls
    obtain ⟨c, hc⟩ := hf.exists_finish hs
    refine ⟨c, hc, fun entry he => ?_⟩
    obtain ⟨t, path, u, k, -, -, -, -, -, hr⟩ := hf.exists_kept hs hc he
    exact hr

def Model.points (data : Option Data) : Model where
  name := ""
  data
  transforms := []
  kind := .unit { mark := .point, orient := none, encoding := [], stack := none }

/-- A chart without data, a request for a checkpoint that is not there yet, the same chart with
data, and the same request. -/
def Call.sample : List Call :=
  [.chart ⟨.points none, .nil⟩, .require "raw",
    .chart ⟨.points (some { url := some "a.json" }), .nil⟩, .require "raw"]

theorem references_point_backwards_sample :
    (∃ p ∈ Graph.sampleRecords.take 1, p.name = some "table") ∧
    ∃ c, (Session.run {} Call.sample).finish.2 = .ok c ∧
      ∀ entry ∈ c.outputs, ∃ r ∈ c.data, r.name = some entry.2 :=
  ⟨references_point_backwards.1 Graph.sample [0] Graph.sampleRecords Graph.reachable_sample rfl
      (Graph.sampleRecords.take 1) _ [] "table" rfl rfl,
    references_point_backwards.2 {} Call.sample⟩

end ChartPipeline
