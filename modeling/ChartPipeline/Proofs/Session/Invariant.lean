import ChartPipeline.Proofs.Session.Checkpoints
import ChartPipeline.Proofs.Session.Required

/-!
# The invariant of a session

What holds of the graph of a session after any calls, told by the lookups of the graph, and that such
a session can be finished (`session_invariant`).
-/

namespace ChartPipeline

open Assembly (exists_source)
open Forest (Leads)

def Node.IsMain (models : List Model) (n : Node) : Prop :=
  ∃ c, n = .checkpoint c ∧ c.required = true ∧ ∃ m ∈ models, c.name = m.mainName

namespace Session

structure Invariant (s : Session) (models : List Model) : Prop where
  /-- Below each source there are nodes, and those right below it are parse nodes. -/
  parsed : ∀ id source, s.graph.node? id = some (.source source) → s.graph.children id ≠ [] ∧
    ∀ child ∈ s.graph.children id, ∃ c, s.graph.node? child = some (.parse c)
  /-- Parse nodes stand right below sources only. -/
  placed : ∀ id c, s.graph.node? id = some (.parse c) →
    ∃ up source, s.graph.parent? id = some up ∧ s.graph.node? up = some (.source source)
  /-- The nodes without a parent are the sources, in the order in which they were registered. -/
  parentless : (List.range s.graph.size).filter (fun id => (s.graph.parent? id).isNone) = s.roots
  registered : ∀ id, id ∈ s.roots ↔ ∃ source, s.graph.node? id = some (.source source)
  forks : ∀ id, 1 < (s.graph.children id).length → ∃ n, s.graph.node? id = some n ∧
    (n.isSource = true ∨ n.IsMain models)
  leaves : ∀ id < s.graph.size, s.graph.children id = [] →
    ∃ n, s.graph.node? id = some n ∧ n.IsMain models
  outputs : ∀ name id, s.output? name = some id →
    (∃ c, s.graph.node? id = some (.checkpoint c) ∧ c.name = name) ∧
    ∃ root ∈ s.roots, s.graph.ancestor? Node.isSource id = some root

variable {s s' : Session} {m : Model} {d : Data} {o : Options} {head id : NodeId} {name : String}
  {calls : List Call} {models : List Model} {path : List Vertex} {t : Tree Vertex}

-- ---------------------------------------------------------------------------
-- Sources
-- ---------------------------------------------------------------------------

theorem Begun.roots (h : Begun s m d s' head) :
    s'.roots = s.roots ∨ s'.roots = s.roots ++ [s.graph.size] := by
  cases h with
  | own =>
    rcases s.sourceFor_cases d with ⟨events, -, hsame⟩ | ⟨events, -, -, hnew⟩
    · rw [hsame]
      exact .inl rfl
    · rw [hnew]
      exact .inr (by simp [Session.roots, Session.add, Session.tell])
  | inherited =>
    obtain ⟨graph, events, hcoerce⟩ := s.exists_coerce_eq head (.ofModel m)
    rw [hcoerce]
    exact .inl rfl

theorem Sound.lt_size (hs : s.Sound) (h : id ∈ s.roots) : id < s.graph.size := by
  obtain ⟨entry, hentry, rfl⟩ := List.mem_map.mp h
  obtain ⟨d, t, -, hl, hlabel⟩ := hs.leads_source hentry
  have hlt := hs.wellFormed.lt_size hl
  rwa [hlabel] at hlt

theorem pairwise_roots_run (o : Options) (calls : List Call) :
    (run o calls).roots.Pairwise (· < ·) := by
  refine (run_of (P := fun s => s.roots.Pairwise (· < ·)) .nil (fun {s s' m d head} root hs h hb => ?_)
    (fun {s} name _ h => ?_) calls).2
  · obtain ⟨events, hadd⟩ := addChain_eq s' m root head
    rw [hadd]
    change s'.roots.Pairwise (· < ·)
    rcases hb.roots with hsame | hnew
    · rwa [hsame]
    · rw [hnew, List.pairwise_append]
      exact ⟨h, List.pairwise_singleton .., fun a ha b hb => List.mem_singleton.mp hb ▸ hs.lt_size ha⟩
  · unfold Session.require
    split <;> exact h

theorem filter_range_eq {l : List Nat} {size : Nat} {p : Nat → Bool} (hl : l.Pairwise (· < ·))
    (h : ∀ i, i ∈ l ↔ i < size ∧ p i = true) : (List.range size).filter p = l := by
  have hrange : ((List.range size).filter p).Pairwise (· < ·) := List.pairwise_lt_range.filter p
  refine List.Perm.eq_of_pairwise (fun a b _ _ hab hba => absurd hab hba.asymm) hrange hl ?_
  refine (List.perm_ext_iff_of_nodup (hrange.imp Nat.ne_of_lt) (hl.imp Nat.ne_of_lt)).mpr fun i => ?_
  rw [h, List.mem_filter, List.mem_range]

theorem JoinedForest.mem_roots_iff (hf : s.JoinedForest) (hs : s.Sound) :
    id ∈ s.roots ↔ id < s.graph.size ∧ (s.graph.parent? id).isNone = true := by
  rw [Option.isNone_iff_eq_none]
  constructor
  · exact fun h => ⟨hs.lt_size h, hs.sourceRoots.parentless id h⟩
  · rintro ⟨hlt, hparent⟩
    obtain ⟨path, t, hl, rfl⟩ := hs.wellFormed.exists_leads hlt
    rw [← hf.roots]
    refine List.mem_map_of_mem (Forest.mem_roots.mpr ⟨t, ?_, rfl⟩)
    exact hs.wellFormed.leads_of_parentless (hs.wellFormed.tree?_eq hl) hparent

-- ---------------------------------------------------------------------------
-- Checkpoints
-- ---------------------------------------------------------------------------

theorem isMain_of_branching {n : Node} (hb : n.Branching) (hn : n.isSource = false)
    (hnames : ∀ name, n.checkpointName? = some name → name ∈ checkpointNames models) :
    n.IsMain models := by
  cases n with
  | checkpoint c =>
    obtain ⟨hrequired, m, hm⟩ := hb
    obtain ⟨m', hmem, hname⟩ := List.mem_flatMap.mp (hnames c.name rfl)
    rcases List.mem_pair.mp hname with hraw | hmain
    · exact absurd (hraw.symm.trans hm) (rawName_ne_mainName m' m)
    · exact ⟨c, rfl, hrequired, m', hmem, hmain⟩
  | source => cases hn
  | _ => cases hb

/-- A node that is not followed by exactly one node is a source, or the last one of a chain. -/
theorem JoinedForest.isMain_of_roots (hf : s.JoinedForest)
    (hnames : ∀ name ∈ s.graph.forest.checkpoints, name ∈ checkpointNames models)
    (h : s.graph.forest.Leads path t) (hrow : ∀ w, t.below.roots ≠ [w]) :
    t.label.node.isSource = true ∨ t.label.node.IsMain models := by
  refine (Bool.eq_false_or_eq_true t.label.node.isSource).imp_right fun hsource => ?_
  have hbranching : t.label.node.Branching := by
    by_contra hb
    obtain ⟨w, hw, -⟩ := (hf.joined_of_leads h).single hb
    exact hrow w hw
  refine isMain_of_branching hbranching hsource fun name hname => hnames name ?_
  exact List.mem_filterMap.mpr ⟨t.label, h.mem, hname⟩

theorem Registered.outputs (hr : s.Registered) (hf : s.JoinedForest) (hs : s.Sound)
    (h : s.output? name = some id) :
    (∃ c, s.graph.node? id = some (.checkpoint c) ∧ c.name = name) ∧
      ∃ root ∈ s.roots, s.graph.ancestor? Node.isSource id = some root := by
  obtain ⟨above, k, ⟨path, u, hl, rfl, hpath⟩, hk⟩ := hr.names _ (OrderedMap.mem_of_find? h)
  have hlast := congrArg List.getLast? hpath
  rw [List.getLast?_map, hl.getLast?, List.getLast?_concat, Option.map_some] at hlast
  have hnode : u.label.node = .checkpoint k :=
    Node.eq_of_blurred_eq (congrArg Vertex.node (Option.some.inj hlast)) rfl
  obtain ⟨t, way, rfl, hroot, -, -, -⟩ := hf.exists_split hl (by rw [hnode]; rfl)
  exact ⟨⟨k, (hs.wellFormed.node?_eq hl).trans (congrArg some hnode), hk⟩, t.label.id, hroot,
    hf.ancestor?_eq hs hl⟩

-- ---------------------------------------------------------------------------
-- Lookups
-- ---------------------------------------------------------------------------

theorem exists_parse {n : Node} (h : n.isParse = true) : ∃ c, n = .parse c := by
  cases n with
  | parse c => exact ⟨c, rfl⟩
  | _ => cases h

theorem JoinedForest.below_source (hf : s.JoinedForest) (hs : s.Sound) {source : Source}
    (h : s.graph.node? id = some (.source source)) : s.graph.children id ≠ [] ∧
      ∀ child ∈ s.graph.children id, ∃ c, s.graph.node? child = some (.parse c) := by
  obtain ⟨path, t, hl, hlabel⟩ := Graph.leads_of_node? h
  have hsource : t.label.node.isSource = true := by rw [hlabel]; rfl
  have hchildren := hs.wellFormed.children_eq hl
  rw [hlabel] at hchildren
  rw [hchildren]
  refine ⟨by simpa using (hf.joined_of_leads hl).started hsource, fun child hchild => ?_⟩
  obtain ⟨_, hv, rfl⟩ := List.mem_map.mp hchild
  obtain ⟨u, hu, rfl⟩ := Forest.mem_roots.mp hv
  have hparse := (hf.joined_of_leads (hl.append hu)).parse
  simp only [List.dropLast_concat, hl.getLast?, Option.any_some, hsource] at hparse
  obtain ⟨c, hc⟩ := exists_parse hparse
  exact ⟨c, (hs.wellFormed.node?_eq (hl.append hu)).trans (congrArg some hc)⟩

theorem JoinedForest.above_parse (hf : s.JoinedForest) (hs : s.Sound) {c : Coercions}
    (h : s.graph.node? id = some (.parse c)) : ∃ up source,
      s.graph.parent? id = some up ∧ s.graph.node? up = some (.source source) := by
  obtain ⟨path, t, hl, hlabel⟩ := Graph.leads_of_node? h
  have hparent := hs.wellFormed.parent?_eq hl
  have hnode := hs.wellFormed.node?_parent? hl
  have hparse := (hf.joined_of_leads hl).parse
  rw [hlabel] at hparent hnode hparse
  have hparse : path.dropLast.getLast?.any (·.node.isSource) = true := hparse.symm
  obtain ⟨up, hup, hsource⟩ := (Option.any_eq_true _ _).mp hparse
  obtain ⟨source, hsource⟩ := exists_source hsource
  rw [hup] at hparent hnode
  rw [hparent, Option.map_some, Option.bind_some] at hnode
  exact ⟨up.id, source, hparent, hnode.trans (congrArg some hsource)⟩

theorem JoinedForest.mem_roots_iff_source (hf : s.JoinedForest) (hs : s.Sound) :
    id ∈ s.roots ↔ ∃ source, s.graph.node? id = some (.source source) := by
  constructor
  · intro h
    obtain ⟨n, hn, hsource⟩ := (Option.any_eq_true _ _).mp (hs.sourceRoots.sources id h)
    obtain ⟨source, rfl⟩ := exists_source hsource
    exact ⟨source, hn⟩
  · rintro ⟨source, h⟩
    obtain ⟨path, t, hl, hlabel⟩ := Graph.leads_of_node? h
    have hlt := hs.wellFormed.lt_size hl
    have hparent := hs.wellFormed.parent?_eq hl
    have hsource := (hf.joined_of_leads hl).source
    rw [hlabel] at hlt hparent hsource
    exact (hf.mem_roots_iff hs).mpr ⟨hlt, by rw [hparent, Option.isNone_map]; exact hsource.symm⟩

end Session

/-- Whatever charts and requests a session takes, and whether they fail or not, its graph is of the
shape that chains make, and it can be finished. -/
theorem session_invariant (o : Options) (calls : List Call) :
    (Session.run o calls).Invariant ((calls.flatMap Call.added).map Prod.fst) ∧
      ∃ c, (Session.run o calls).finish.2 = .ok c := by
  obtain ⟨hs, hf⟩ := Session.joinedForest_run o calls
  have hr := Session.registered_run o calls
  have hw := hs.wellFormed
  have hnames : ∀ name ∈ (Session.run o calls).graph.forest.checkpoints,
      name ∈ Session.checkpointNames ((calls.flatMap Call.added).map Prod.fst) :=
    fun _ h => (Session.perm_checkpoints_run o calls).mem_iff.mp h
  refine ⟨⟨fun id source => hf.below_source hs, fun id c => hf.above_parse hs, ?_,
    fun id => hf.mem_roots_iff_source hs, fun id hrow => ?_, fun id hlt hrow => ?_,
    fun name id => hr.outputs hf hs⟩, hf.exists_finish hs⟩
  · exact Session.filter_range_eq (Session.pairwise_roots_run o calls) fun id => hf.mem_roots_iff hs
  · cases ht : (Session.run o calls).graph.tree? id with
    | none => simp [Graph.children, ht] at hrow
    | some t =>
      obtain ⟨rfl, path, hl⟩ := Graph.leads_of_tree? ht
      rw [hw.children_eq hl] at hrow
      exact ⟨_, hw.node?_eq hl, hf.isMain_of_roots hnames hl fun w hone => by simp [hone] at hrow⟩
  · obtain ⟨path, t, hl, rfl⟩ := hw.exists_leads hlt
    rw [hw.children_eq hl, List.map_eq_nil_iff] at hrow
    refine ⟨_, hw.node?_eq hl, ?_⟩
    rcases hf.isMain_of_roots hnames hl fun w hone => by simp [hone] at hrow with hsource | hmain
    · exact absurd hrow ((hf.joined_of_leads hl).started hsource)
    · exact hmain

end ChartPipeline
