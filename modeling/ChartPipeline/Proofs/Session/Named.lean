import ChartPipeline.Proofs.Assembly.Numbering
import ChartPipeline.Proofs.Session.Pruned

/-!
# Where the names of records come from

Whatever a session has gone through, each of its records has a name in the end: that of a source or
of a checkpoint, or one that is made from the name of a record before it. No name is made up for a
record (`records_named`).
-/

namespace ChartPipeline

open Assembly

namespace Session

/-- The graph of a session in the end, in which sources know their names. -/
abbrev assembled (s : Session) : Graph := ((s.graph.optimize s.roots).assemble s.roots).graph

/-- A name that a session has for the record that comes behind some others. -/
inductive Provides (s : Session) (earlier : List Record) : String → Prop
  | source : root ∈ s.roots → s.assembled.node? root = some (.source ⟨d, some name⟩) →
      (d.name = some name ∨ d.name = none ∧ ∃ i, name = "source_" ++ Nat.repr i) →
      s.Provides earlier name
  | checkpoint : s.graph.node? node = some (.checkpoint c) → s.Provides earlier c.name
  | index : p ∈ earlier → p.name = some name → label ∈ ["column_", "row_"] →
      s.Provides earlier (label ++ name)

variable {s : Session} {c : Compiled} {t : Tree Vertex} {v : Vertex} {name : String} {r : Record}
  {earlier : List Record}

theorem JoinedForest.exists_label (hf : s.JoinedForest) (hs : s.Sound)
    (hv : v ∈ s.trees.flatMap Tree.toList)
    (hl : labelIn s.steps v = some name) : .name v.id name ∈ s.steps ∧
      ((∃ t ∈ s.trees, v = t.label) ∨
        v ∈ s.graph.forest.toList ∧ v.node.checkpointName? = some name) := by
  obtain ⟨hname, hkind⟩ := exists_of_labelIn hl
  refine ⟨hname, ?_⟩
  obtain ⟨t, ht, hv⟩ := List.mem_flatMap.mp hv
  obtain ⟨u, d, hu, rfl, -⟩ := hs.exists_root ht
  rcases List.mem_cons.mp hv with rfl | hv
  · exact .inl ⟨_, ht, rfl⟩
  · have hinner : v.node.isSource = false := (hf.clear hu).inner v hv
    have hbelow : v ∈ u.below.toList :=
      (Forest.perm_prune ..).subset (List.mem_append_left _ hv)
    exact .inr ⟨hu.sublist.subset (List.mem_cons_of_mem _ hbelow),
      hkind.resolve_left (by simp [hinner])⟩

theorem JoinedForest.exists_labelled (hf : s.JoinedForest) (hs : s.Sound)
    (hr : r ∈ emittedOf s.steps) :
    ∃ v ∈ s.trees.flatMap Tree.toList, ∃ name,
      r.name = some name ∧ labelIn s.steps v = some name := by
  obtain ⟨taken, hnames, htaken⟩ := hf.labelled hs
  have hmem := hnames ▸ List.mem_map_of_mem (f := Record.name) hr
  obtain ⟨name, hname, he⟩ := List.mem_map.mp hmem
  obtain ⟨v, hv, hl⟩ := List.mem_filterMap.mp (htaken.subset hname)
  exact ⟨v, hv, name, he.symm, hl⟩

theorem exists_checkpoint {n : Node} (h : n.checkpointName? = some name) :
    ∃ c, n = .checkpoint c ∧ c.name = name := by
  cases n with
  | checkpoint c => exact ⟨c, rfl, Option.some.inj h⟩
  | _ => cases h

theorem Sound.provides_source (hs : s.Sound) (hok : s.finish.2 = .ok c) (ht : t ∈ s.trees)
    (h : .name t.label.id name ∈ s.steps) : s.Provides earlier name := by
  obtain ⟨u, d, -, rfl, hnode, hentry⟩ := hs.exists_root ht
  obtain ⟨name', hmem, hdeclared⟩ := hs.planted.exists_name ht
  obtain rfl := name_unique hs.planted.nodup_stepsOf h hmem
  rw [declaredName?, hnode] at hdeclared
  refine .source (d := d) (List.mem_map_of_mem hentry) ?_ hdeclared
  have htree := (hs.wellFormed.optimize s.roots).node?_eq (hs.planted.leads _ ht)
  have hassembled : s.assembled = s.steps.foldl Step.apply (s.graph.optimize s.roots) :=
    graph_of_ok (finish_ok hok).1
  rw [hassembled, node?_foldl_apply hs.planted.nodup_stepsOf h, htree, hnode]
  rfl

theorem Sound.exists_indexRecord (hs : s.Sound) (hok : s.finish.2 = .ok c)
    (hr : r ∈ indexedOf s.steps) :
    ∃ label ∈ FacetSplit.labels, ∃ field source, r = FacetSplit.indexRecord label field source := by
  obtain ⟨facets, -, hindexed⟩ := Graph.exists_facets (hs.wellFormed.optimize s.roots)
    (hs.sourceRoots.optimize hs.wellFormed) (finish_ok hok).1
  rw [steps, hindexed] at hr
  obtain ⟨id, -, hr⟩ := List.mem_flatMap.mp hr
  exact exists_of_mem_indexRecords hr

theorem JoinedForest.provides (hf : s.JoinedForest) (hs : s.Sound) (hok : s.finish.2 = .ok c)
    {later : List Record} (hdata : c.data = earlier ++ r :: later) :
    ∃ name, r.name = some name ∧ s.Provides earlier name := by
  have hrecords := (finish_ok hok).1
  have hrecord : c.data = recordsOf s.steps := (records_eq_ok.mp hrecords).2
  have hr : r ∈ emittedOf s.steps ++ indexedOf s.steps := by
    rw [← (perm_recordsOf s.steps).mem_iff, ← hrecord, hdata]
    simp
  rcases List.mem_append.mp hr with hr | hr
  · obtain ⟨v, hv, name, hname, hl⟩ := hf.exists_labelled hs hr
    refine ⟨name, hname, ?_⟩
    obtain ⟨hstep, ⟨t, ht, rfl⟩ | ⟨hv, hcheckpoint⟩⟩ := hf.exists_label hs hv hl
    · exact hs.provides_source hok ht hstep
    · obtain ⟨path, u, hu, rfl⟩ := Forest.exists_leads_of_mem hv
      obtain ⟨k, hk, rfl⟩ := exists_checkpoint hcheckpoint
      exact .checkpoint ((hs.wellFormed.node?_eq hu).trans (congrArg some hk))
  · obtain ⟨label, hlabel, field, source, rfl⟩ := hs.exists_indexRecord hok hr
    obtain ⟨p, hp, hname⟩ := exists_earlier (hs.wellFormed.optimize s.roots) hrecords hdata rfl
    exact ⟨_, rfl, .index hp hname hlabel⟩

end Session

/-- Whatever charts and requests a session takes, and whether they fail or not, it can be finished,
each of its records has a name of one of three kinds, and no name is made up for a record. -/
theorem records_named (o : Options) (calls : List Call) : ∃ c,
    (Session.run o calls).finish.2 = .ok c ∧
    (∀ earlier r later, c.data = earlier ++ r :: later →
      ∃ name, r.name = some name ∧ (Session.run o calls).Provides earlier name) ∧
    ((Assembly.run (Session.run o calls).trees).run {}).2.nextRecord = 0 := by
  obtain ⟨hs, hf⟩ := Session.joinedForest_run o calls
  obtain ⟨c, hok⟩ := hf.exists_finish hs
  exact ⟨c, hok, fun earlier r later hdata => hf.provides hs hok hdata,
    nextRecord_run (hf.clear_trees hs)⟩

end ChartPipeline
