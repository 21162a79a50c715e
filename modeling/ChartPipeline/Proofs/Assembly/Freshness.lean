import ChartPipeline.Proofs.Assembly.Repeating

/-!
# Whether the names of sources are fresh

The numbers of an assembly begin at nought, whatever the sources are called that have a name. So a
source without a name can get that of another one, and does exactly if another one has one of the
numbers that are given (`Graph.source_names_nodup_iff`).
-/

namespace ChartPipeline

namespace Assembly

variable {next : Nat} {declared : List (Option String)} {name : String} {f : Forest Vertex}
  {trees : List (Tree Vertex)} {tree : Tree Vertex}

-- ---------------------------------------------------------------------------
-- Lists of names
-- ---------------------------------------------------------------------------

theorem mem_sourceNames : name ∈ sourceNames next declared ↔
    some name ∈ declared ∨ ∃ i < declared.count none, name = "source_" ++ Nat.repr (next + i) := by
  induction declared generalizing next with
  | nil => simp [sourceNames]
  | cons first declared ih =>
    cases first with
    | some own => simp [sourceNames, ih, or_assoc]
    | none =>
      -- the first number is given here, and the others behind
      rw [sourceNames, List.mem_cons, ih, List.count_cons_self, Nat.exists_lt_succ_left]
      simp [Nat.add_right_comm, Nat.add_assoc, or_left_comm]

/-- Names of which those that are given are different: all are different if and only if none of the
numbers that are made up is given too. -/
theorem nodup_sourceNames_iff (h : (declared.filterMap id).Nodup) :
    (sourceNames next declared).Nodup ↔
      ∀ i < declared.count none, some ("source_" ++ Nat.repr (next + i)) ∉ declared := by
  induction declared generalizing next with
  | nil => simp [sourceNames]
  | cons first declared ih =>
    cases first with
    | some own =>
      obtain ⟨hown, hrest⟩ := List.nodup_cons.mp h
      have hown : some own ∉ declared := fun hmem => hown (List.mem_filterMap.mpr ⟨_, hmem, rfl⟩)
      rw [sourceNames, List.nodup_cons, ih hrest, mem_sourceNames, List.count_cons_of_ne (by simp)]
      constructor
      · rintro ⟨hnew, hall⟩ i hi hmem
        rcases List.mem_cons.mp hmem with he | hmem
        · exact hnew (.inr ⟨i, hi, (Option.some.inj he).symm⟩)
        · exact hall i hi hmem
      · intro hall
        refine ⟨?_, fun i hi hmem => hall i hi (List.mem_cons_of_mem _ hmem)⟩
        rintro (hmem | ⟨i, hi, rfl⟩)
        · exact hown hmem
        · exact hall i hi List.mem_cons_self
    | none =>
      have hnew : "source_" ++ Nat.repr next ∈ sourceNames (next + 1) declared ↔
          some ("source_" ++ Nat.repr next) ∈ declared := by
        rw [mem_sourceNames]
        refine or_iff_left ?_
        rintro ⟨i, -, he⟩
        exact absurd (sourceName_injective he) (by omega)
      rw [sourceNames, List.nodup_cons, hnew, ih h, List.count_cons_self, Nat.forall_lt_succ_left]
      simp [Nat.add_right_comm, Nat.add_assoc]

end Assembly

-- ---------------------------------------------------------------------------
-- Graphs
-- ---------------------------------------------------------------------------

namespace Graph

open Assembly

variable {g : Graph} {roots : List NodeId} {records : List Record} {t : Tree Vertex} {name : String}

def sourceName? (g : Graph) (id : NodeId) : Option String := (g.tree? id).bind declaredName?

theorem toList_subset_of_mem_treesAt (ht : t ∈ g.treesAt roots) : t.toList ⊆ g.forest.toList := by
  obtain ⟨root, -, ht⟩ := List.mem_filterMap.mp ht
  obtain ⟨-, path, hl⟩ := leads_of_tree? ht
  exact hl.sublist.subset

theorem chosen_treesAt (hg : g.WellFormed) (hr : roots.Nodup)
    (hs : ∀ root ∈ roots, (g.node? root).any Node.isSource = true) :
    Chosen g.forest (g.treesAt roots) where
  keyed := hg.keyed
  within _ ht := toList_subset_of_mem_treesAt ht
  nodup := by rwa [map_id_treesAt hs]
  sources t ht := by
    obtain ⟨root, hroot, ht⟩ := List.mem_filterMap.mp ht
    have hs := hs root hroot
    rwa [node?, ht] at hs

theorem tree?_of_mem_treesAt (ht : t ∈ g.treesAt roots) : g.tree? t.label.id = some t := by
  obtain ⟨root, -, ht⟩ := List.mem_filterMap.mp ht
  rwa [(leads_of_tree? ht).1]

theorem sourceName?_assemble (h : Chosen g.forest (g.treesAt roots))
    (hok : (g.assemble roots).records = .ok records) (ht : t ∈ g.treesAt roots)
    (hn : .name t.label.id name ∈ g.stepsOf roots) :
    (g.assemble roots).graph.sourceName? t.label.id = some name := by
  have hgraph : (g.assemble roots).graph =
      { g with forest := g.forest.map (renamed (g.stepsOf roots)) } := by
    rw [assemble_eq] at hok ⊢
    rw [graph_of_ok hok, foldl_apply]
  obtain ⟨s, hs⟩ := exists_source (h.sources t ht)
  have hsteady := steady_stepsOf h.keyed h.within
  have hnode := hsteady.renamed_source (h.within t ht List.mem_cons_self) hs hn
  rw [hgraph, sourceName?, tree?_map (renames_renamed _), tree?_of_mem_treesAt ht, Option.map_some,
    Option.bind_some, declaredName?, Tree.map, hnode]

theorem map_sourceName?_assemble (hg : g.WellFormed) (hr : roots.Nodup)
    (hs : ∀ root ∈ roots, (g.node? root).any Node.isSource = true)
    (hok : (g.assemble roots).records = .ok records) :
    roots.map (g.assemble roots).graph.sourceName? =
      (sourceNames 0 (roots.map g.sourceName?)).map some := by
  have h := chosen_treesAt hg hr hs
  have hdeclared : roots.map g.sourceName? = (g.treesAt roots).map declaredName? := by
    rw [← map_id_treesAt hs, List.map_map, map_id_treesAt hs]
    refine List.map_congr_left fun t ht => ?_
    rw [Function.comp_apply, sourceName?, tree?_of_mem_treesAt ht, Option.bind_some]
  have hlength : (sourceNames 0 ((g.treesAt roots).map declaredName?)).length =
      (g.treesAt roots).length := by rw [length_sourceNames, List.length_map]
  -- the names after the assembly, read off the trees and not off the list
  have hafter := congrArg (List.map (g.assemble roots).graph.sourceName?) (map_id_treesAt hs)
  rw [List.map_map] at hafter
  calc roots.map (g.assemble roots).graph.sourceName?
      = (g.treesAt roots).map fun t => (g.assemble roots).graph.sourceName? t.label.id :=
        hafter.symm
    _ = ((g.treesAt roots).zip (sourceNames 0 ((g.treesAt roots).map declaredName?))).map
          fun p => (g.assemble roots).graph.sourceName? p.1.label.id := by
        conv_lhs => rw [← List.map_fst_zip hlength.ge, List.map_map]
        rfl
    _ = ((g.treesAt roots).zip (sourceNames 0 ((g.treesAt roots).map declaredName?))).map
          fun p => some p.2 := by
        refine List.map_congr_left fun p hp => ?_
        exact sourceName?_assemble h hok (List.of_mem_zip hp).1 (h.named p hp)
    _ = (sourceNames 0 (roots.map g.sourceName?)).map some := by
        conv_rhs => rw [hdeclared, ← List.map_snd_zip hlength.le, List.map_map]
        rfl

/-- Whatever was built: after an assembly every source of the list has a name, its own or the next
number. If the names that were there are different, all are, unless a source had one of the numbers
already that are given to those without a name. -/
theorem source_names_nodup_iff (hg : g.Reachable) (hr : roots.Nodup)
    (hs : ∀ root ∈ roots, (g.node? root).any Node.isSource = true)
    (hn : (roots.filterMap g.sourceName?).Nodup)
    (hok : (g.assemble roots).records = .ok records) :
    roots.map (g.assemble roots).graph.sourceName? =
        (sourceNames 0 (roots.map g.sourceName?)).map some ∧
      ((roots.map (g.assemble roots).graph.sourceName?).Nodup ↔
        ∀ i < (roots.map g.sourceName?).count none,
          some ("source_" ++ Nat.repr i) ∉ roots.map g.sourceName?) := by
  have hnames := map_sourceName?_assemble hg.wellFormed hr hs hok
  have hdeclared : ((roots.map g.sourceName?).filterMap id).Nodup := by
    rwa [List.filterMap_map, Function.id_comp]
  refine ⟨hnames, ?_⟩
  rw [hnames, List.nodup_map_iff fun _ _ => Option.some.inj, nodup_sourceNames_iff hdeclared]
  simp only [Nat.zero_add]

def sources (name : String) : Graph :=
  ((({} : Graph).add (.source { data := {}, name := none })).add
    (.source { data := {}, name := some name })).add (.source { data := {}, name := none })

theorem reachable_sources (name : String) : (sources name).Reachable :=
  .add _ (.add _ (.add _ .empty))

/-- Two numbers are given, so the third one is free for a source that has it already. -/
theorem source_names_nodup_iff_sample :
    [0, 1, 2].map ((sources "source_2").assemble [0, 1, 2]).graph.sourceName? =
        [some "source_0", some "source_2", some "source_1"] ∧
      ([0, 1, 2].map ((sources "source_2").assemble [0, 1, 2]).graph.sourceName?).Nodup := by
  have hr : ([0, 1, 2] : List NodeId).Nodup := by decide
  obtain ⟨hnames, hnodup⟩ :=
    source_names_nodup_iff (reachable_sources "source_2") hr (by decide) (by decide) rfl
  exact ⟨hnames, hnodup.mpr (by decide)⟩

/-- The numbers do not leave out names that are there. -/
theorem source_name_repeated : ¬ ∀ (g : Graph) (roots : List NodeId) (records : List Record),
    g.Reachable → g.SourceRoots roots → (roots.filterMap g.sourceName?).Nodup →
    (g.assemble roots).records = .ok records →
    (roots.map (g.assemble roots).graph.sourceName?).Nodup := by
  intro h
  have hroots : (sources "source_1").SourceRoots [0, 1, 2] :=
    ⟨by decide, by decide, by decide⟩
  exact absurd (h _ _ _ (reachable_sources "source_1") hroots (by decide) rfl) (by decide)

end Graph

end ChartPipeline
