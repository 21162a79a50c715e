import ChartPipeline.Proofs.Assembly.Outcome
import ChartPipeline.Proofs.Session.Run

/-!
# The shape of a session

The parentless nodes of a session are its sources, and the parse nodes are the nodes below them.
Chains branch only at sources and where they end, and facets stand only where a chain begins
(`Session.joinedForest_run`).
-/

namespace ChartPipeline

open Forest (Leads stem)

/-- A node that any number of nodes may follow: a source, or the last checkpoint of a chain. -/
def Node.Branching : Node → Prop
  | .source _ => True
  | .checkpoint c => c.required = true ∧ ∃ m : Model, c.name = m.mainName
  | _ => False

def Node.isPlain : Node → Bool
  | .source _ | .parse _ | .checkpoint _ | .facet _ => false
  | _ => true

structure Joined (e : Vertex × Option Vertex × List Vertex) : Prop where
  source : e.1.node.isSource = e.2.1.isNone
  parse : e.1.node.isParse = e.2.1.any (·.node.isSource)
  /-- Where nothing branches, there is something to go on to, and a facet only at the beginning. -/
  single : ¬ e.1.node.Branching →
    ∃ w, e.2.2 = [w] ∧ (w.node.isFacet = true → e.1.node.isParse = true)
  started : e.1.node.isSource = true → e.2.2 ≠ []

-- ---------------------------------------------------------------------------
-- The nodes of a chain
-- ---------------------------------------------------------------------------

namespace Model

variable {m : Model} {o : Options} {n : Node} {first last : List Node}

theorem exists_rawNodes (o : Options) (m : Model) : ∃ first fields last, m.rawNodes o =
    (if m.facet?.isSome then [.facet (.ofModel m)] else []) ++ first ++ .nullFilter fields :: last ∧
      (∀ n ∈ first, n.isPlain = true) ∧ ∀ n ∈ last, n.isPlain = true := by
  refine ⟨m.declaredLinks.filterMap Link.node?, NullFilter.ofModel m o.filterInvalid,
    (m.binLinks o ++ m.timeUnitLinks).filterMap Link.node?, ?_, fun n hn => ?_, fun n hn => ?_⟩
  · have hfacet : m.facetLinks.filterMap Link.node? =
        if m.facet?.isSome then [.facet (.ofModel m)] else [] := by
      unfold facetLinks
      split <;> rfl
    simp [rawNodes, rawLinks, hfacet, Link.node?]
  · obtain ⟨link, hlink, hn⟩ := List.mem_filterMap.mp hn
    simp only [declaredLinks, List.mem_append, List.mem_filterMap] at hlink
    obtain ⟨t, -, ht⟩ | ⟨t, -, ht⟩ := hlink
    · cases t <;> cases ht
      cases hn
    · cases t <;> cases ht <;> cases hn <;> rfl
  · obtain ⟨link, hlink, hn⟩ := List.mem_filterMap.mp hn
    simp only [binLinks, timeUnitLinks, List.mem_append, List.mem_map, List.mem_ite_nil_left] at hlink
    rcases hlink with (⟨e, -, rfl⟩ | ⟨-, hlink⟩) | ⟨-, hlink⟩
    · cases hn
    · obtain rfl := List.mem_singleton.mp hlink
      cases hn
      rfl
    · obtain rfl := List.mem_singleton.mp hlink
      cases hn
      rfl

theorem isPlain_of_mem_mainNodes (hn : n ∈ m.mainNodes) : n.isPlain = true := by
  simp only [mainNodes, List.mem_append, List.mem_map, List.mem_ite_nil_left] at hn
  rcases hn with ((⟨-, hn⟩ | ⟨stacking, -, rfl⟩) | ⟨-, hn⟩) | ⟨-, hn⟩
  · exact List.mem_singleton.mp hn ▸ rfl
  · rfl
  · exact List.mem_singleton.mp hn ▸ rfl
  · exact List.mem_singleton.mp hn ▸ rfl

theorem chainNodes_eq (o : Options) (m : Model) : m.chainNodes o = m.rawNodes o ++
    .checkpoint { name := m.rawName, required := false } ::
      (m.mainNodes ++ [.checkpoint { name := m.mainName, required := true }]) := rfl

theorem exists_chainNodes (o : Options) (m : Model) : ∃ first rest, m.chainNodes o = first :: rest ∧
    first.isSource = false ∧ first.isParse = false ∧
      ∀ n ∈ rest, n.isSource = false ∧ n.isParse = false ∧ n.isFacet = false := by
  have hplain {n : Node} (h : n.isPlain = true) :
      n.isSource = false ∧ n.isParse = false ∧ n.isFacet = false := by
    cases n <;> simp_all [Node.isPlain, Node.isSource, Node.isParse, Node.isFacet]
  have hcheckpoint (c : Checkpoint) : (Node.checkpoint c).isSource = false ∧
      (Node.checkpoint c).isParse = false ∧ (Node.checkpoint c).isFacet = false := ⟨rfl, rfl, rfl⟩
  obtain ⟨declared, fields, last, hraw, hdeclared, hlast⟩ := m.exists_rawNodes o
  -- everything but the facet
  have hrest : ∀ n ∈ declared ++ .nullFilter fields :: last ++
      .checkpoint { name := m.rawName, required := false } ::
        (m.mainNodes ++ [.checkpoint { name := m.mainName, required := true }]),
      n.isSource = false ∧ n.isParse = false ∧ n.isFacet = false := by
    intro n hn
    simp only [List.mem_append, List.mem_cons, List.not_mem_nil, or_false] at hn
    rcases hn with (hn | rfl | hn) | rfl | hn | rfl
    · exact hplain (hdeclared n hn)
    · exact ⟨rfl, rfl, rfl⟩
    · exact hplain (hlast n hn)
    · exact hcheckpoint _
    · exact hplain (isPlain_of_mem_mainNodes hn)
    · exact hcheckpoint _
  rw [chainNodes_eq, hraw]
  split
  · exact ⟨_, _, rfl, rfl, rfl, by simpa using hrest⟩
  · cases declared with
    | nil => exact ⟨_, _, rfl, rfl, rfl, fun n hn => hrest n (List.mem_cons_of_mem _ hn)⟩
    | cons n declared =>
      obtain ⟨hsource, hparse, -⟩ := hrest n (List.mem_cons_self ..)
      exact ⟨_, _, rfl, hsource, hparse, fun n hn => hrest n (List.mem_cons_of_mem _ hn)⟩

theorem branching_of_last (h : m.chainNodes o = first ++ [n]) : n.Branching := by
  rw [chainNodes_eq, ← List.cons_append, ← List.append_assoc] at h
  obtain ⟨-, h⟩ := List.append_inj' h rfl
  obtain rfl := List.singleton_inj.mp h
  exact ⟨rfl, m, rfl⟩

end Model

-- ---------------------------------------------------------------------------
-- Edges of a chain
-- ---------------------------------------------------------------------------

variable {m : Model} {o : Options} {f more : Forest Vertex} {up v : Vertex} {head : NodeId}
  {e : Vertex × Option Vertex × List Vertex}

theorem joined_stem (hup : up.node.isSource = false) (size : Nat)
    (he : e ∈ (stem (Graph.numbered size (m.chainNodes o))).edges (some up)) : Joined e := by
  obtain ⟨first, a, last, hsplit, rfl⟩ := Forest.mem_edges_stem he
  obtain ⟨head, rest, hchain, hsource, hparse, hrest⟩ := m.exists_chainNodes o
  have hnodes : first.map Vertex.node ++ a.node :: last.map Vertex.node = m.chainNodes o := by
    rw [← Graph.map_node_numbered size (m.chainNodes o), hsplit, List.map_append, List.map_cons]
  have hall : ∀ n ∈ m.chainNodes o, n.isSource = false ∧ n.isParse = false := by
    rw [hchain]
    exact List.forall_mem_cons.mpr ⟨⟨hsource, hparse⟩, fun n hn => ⟨(hrest n hn).1, (hrest n hn).2.1⟩⟩
  obtain ⟨ha, hap⟩ := hall a.node (hnodes ▸ by simp)
  have habove : ∀ w ∈ first.getLast?.or (some up), w.node.isSource = false := by
    intro w hw
    cases hl : first.getLast? with
    | none =>
      rw [hl, Option.none_or] at hw
      cases hw
      exact hup
    | some w' =>
      rw [hl, Option.some_or] at hw
      cases hw
      have hmem := List.mem_map_of_mem (f := Vertex.node) (List.mem_of_getLast? hl)
      exact (hall w.node (hnodes ▸ List.mem_append_left _ hmem)).1
  obtain ⟨w, hw⟩ : ∃ w, first.getLast?.or (some up) = some w := by
    cases first.getLast? <;> exact ⟨_, rfl⟩
  refine ⟨?_, ?_, fun hb => ?_, fun hs => ?_⟩
  · simp [ha, hw]
  · simp [hap, hw, habove w hw]
  · cases last with
    | nil => exact absurd (Model.branching_of_last hnodes.symm) hb
    | cons w last =>
      refine ⟨w, rfl, fun hw => ?_⟩
      -- the node is not the first one
      have hmem : w.node ∈ rest := by
        rw [hchain] at hnodes
        cases first with
        | nil =>
          obtain ⟨-, rfl⟩ := List.cons.inj hnodes
          exact List.mem_cons_self ..
        | cons b first =>
          obtain ⟨-, rfl⟩ := List.cons.inj hnodes
          simp
      simp [(hrest _ hmem).2.2] at hw
  · simp [ha] at hs

theorem joined_graft (hf : f.Keyed Vertex.id) (hmore : more.roots ≠ [])
    (hjoined : ∀ e ∈ f.edges none, e.1.id = head ∨ Joined e)
    (hhead : ∀ e ∈ f.edges none, e.1.id = head → e.1.node.isSource = e.2.1.isNone ∧
      e.1.node.isParse = e.2.1.any (·.node.isSource) ∧ e.1.node.Branching)
    (hnew : ∀ v ∈ f.toList, v.id = head → ∀ e ∈ more.edges (some v), Joined e)
    (he : e ∈ (f.graft (Graph.has head) more).edges none) : Joined e := by
  rcases Forest.mem_edges_graft hf he with ⟨row, hrow, hchanged⟩ | ⟨v, hv, hid, he⟩
  · obtain ⟨v, up, row'⟩ := e
    split at hchanged
    · rename_i hid
      subst hchanged
      obtain ⟨hsource, hparse, hb⟩ := hhead _ hrow hid
      exact ⟨hsource, hparse, fun hn => absurd hb hn, fun _ => by simp [hmore]⟩
    · rename_i hid
      subst hchanged
      exact (hjoined _ hrow).resolve_left hid
  · exact hnew v hv hid e he

-- ---------------------------------------------------------------------------
-- Other nodes in their places
-- ---------------------------------------------------------------------------

structure Node.Alike (n n' : Node) : Prop where
  source : n'.isSource = n.isSource
  parse : n'.isParse = n.isParse
  facet : n'.isFacet = n.isFacet
  branching : n.Branching → n'.Branching

theorem alike_merge (c : Coercions) (n : Node) : n.Alike ((n.merge? (.parse c)).getD n) := by
  cases n <;> exact ⟨rfl, rfl, rfl, id⟩

theorem alike_require (n : Node) : n.Alike n.require := by
  cases n with
  | checkpoint c => exact ⟨rfl, rfl, rfl, fun h => ⟨rfl, h.2⟩⟩
  | _ => exact ⟨rfl, rfl, rfl, id⟩

theorem Joined.map (h : Joined e) {change : Vertex → Vertex}
    (hc : ∀ v : Vertex, v.node.Alike (change v).node) :
    Joined (change e.1, e.2.1.map change, e.2.2.map change) where
  source := by rw [(hc e.1).source, h.source, Option.isNone_map]
  parse := by
    rw [(hc e.1).parse, h.parse]
    cases e.2.1 with
    | none => rfl
    | some up => exact (hc up).source.symm
  single hn := by
    obtain ⟨w, hw, hfacet⟩ := h.single fun hb => hn ((hc e.1).branching hb)
    refine ⟨change w, by simp [hw], fun hf => ?_⟩
    rw [(hc e.1).parse]
    exact hfacet ((hc w).facet ▸ hf)
  started hs := by
    have hrow := h.started ((hc e.1).source ▸ hs)
    simpa using hrow

theorem joined_update {g : Graph} (h : ∀ e ∈ g.forest.edges none, Joined e) (id : NodeId)
    {change : Node → Node} (hc : ∀ n : Node, n.Alike (change n)) :
    ∀ e ∈ (g.update id change).forest.edges none, Joined e := by
  intro e he
  rw [Graph.update, ← Option.map_none, Forest.edges_map] at he
  obtain ⟨e', he', rfl⟩ := List.mem_map.mp he
  have hchange (v : Vertex) :
      v.node.Alike (if v.id = id then { v with node := change v.node } else v).node := by
    split
    · exact hc v.node
    · exact ⟨rfl, rfl, rfl, fun hb => hb⟩
  exact (h e' he').map hchange

namespace Session

/-- The roots of the forest are the sources of the session, and every node is joined to its parent
and its children as the chains join them. -/
structure JoinedForest (s : Session) : Prop where
  roots : s.graph.forest.roots.map Vertex.id = s.roots
  joined : ∀ e ∈ s.graph.forest.edges none, Joined e

variable {s s' : Session} {d : Data} {id main : NodeId} {key : String} {t : Tree Vertex}
  {path : List Vertex}

theorem JoinedForest.update (hf : s.JoinedForest) (id : NodeId) {change : Node → Node}
    (hc : ∀ n : Node, n.Alike (change n)) (hgraph : s'.graph = s.graph.update id change)
    (hsources : s'.sources = s.sources) : s'.JoinedForest where
  roots := by
    have hroots : s'.roots = s.roots := by rw [Session.roots, hsources, Session.roots]
    rw [hroots, ← hf.roots, hgraph, Graph.update, Forest.roots_map, List.map_map]
    refine List.map_congr_left fun v _ => ?_
    rw [Function.comp_apply]
    split <;> rfl
  joined := by
    rw [hgraph]
    exact joined_update hf.joined id hc

theorem JoinedForest.joined_of_leads (hf : s.JoinedForest) (h : s.graph.forest.Leads path t) :
    Joined (t.label, path.dropLast.getLast?, t.below.roots) := by
  have hedge := h.mem_edges none
  rw [Option.or_none] at hedge
  exact hf.joined _ hedge

theorem JoinedForest.isSource_eq_false (hf : s.JoinedForest)
    (h : s.graph.forest.Leads (v :: path) t) :
    ∀ w ∈ path, w.node.isSource = false := by
  intro w hw
  obtain ⟨first, last, rfl⟩ := List.append_of_mem hw
  obtain ⟨u, hu, hlabel⟩ : ∃ u, s.graph.forest.Leads (v :: first ++ [w]) u ∧ u.label = w := by
    cases last with
    | nil => exact ⟨t, h, by simpa [eq_comm, List.getLast?_cons] using h.getLast?⟩
    | cons x last =>
      have h : s.graph.forest.Leads ((v :: first ++ [w]) ++ (x :: last)) t := by simpa using h
      obtain ⟨u, hu, -⟩ := h.split (by simp) (by simp)
      exact ⟨u, hu, by simpa [eq_comm, List.getLast?_cons] using hu.getLast?⟩
  have hsource := (hf.joined_of_leads hu).source
  rw [List.dropLast_concat, List.getLast?_cons, hlabel] at hsource
  exact hsource

theorem JoinedForest.ancestor?_eq (hf : s.JoinedForest) (hs : s.Sound)
    (h : s.graph.forest.Leads (v :: path) t) :
    s.graph.ancestor? Node.isSource t.label.id = some v.id := by
  have hsource : v.node.isSource = true := by
    by_cases hpath : path = []
    · subst hpath
      obtain rfl : v = t.label := by simpa using h.getLast?
      exact (hf.joined_of_leads h).source
    · obtain ⟨u, hu, -⟩ := (show s.graph.forest.Leads ([v] ++ path) t from h).split (by simp) hpath
      obtain rfl : v = u.label := by simpa using hu.getLast?
      exact (hf.joined_of_leads hu).source
  have hnone : path.reverse.find? (fun v => v.node.isSource) = none := by
    refine List.find?_eq_none.mpr fun w hw => ?_
    simp [hf.isSource_eq_false h w (List.mem_reverse.mp hw)]
  rw [Graph.ancestor?, hs.wellFormed.path_eq h, List.reverse_cons, List.find?_append, hnone,
    Option.none_or, List.find?_singleton, if_pos hsource]
  rfl

theorem update_merge_nil (g : Graph) (id : NodeId) :
    g.update id (fun n => (n.merge? (.parse [])).getD n) = g := by
  have hnode (n : Node) : (n.merge? (.parse [])).getD n = n := by
    cases n <;> rfl
  have hforest (f : Forest Vertex) : (f.map fun v =>
      if v.id = id then { v with node := (v.node.merge? (.parse [])).getD v.node } else v) = f := by
    induction f with
    | nil => rfl
    | cons v below rest ihb ihr => rw [Forest.map, ihb, ihr, hnode, ite_self]
  rw [Graph.update, hforest]

/-- The first parse node below the source takes in the coercions of a model that inherits. -/
theorem JoinedForest.coerce_eq (hf : s.JoinedForest) (hs : s.Sound) (hd : s.DrawsOn main d)
    (c : Coercions) :
    ∃ t v c₀ later, (d.identity, t.label.id) ∈ s.sources ∧ s.graph.forest.Leads [t.label] t ∧
      t.below.roots = v :: later ∧ v.node = .parse c₀ ∧ ∃ events, s.coerce main c =
        { s with graph := s.graph.update v.id fun n => (n.merge? (.parse c)).getD n, events } := by
  obtain ⟨root, d', way, m, hroot, path, u, hl, rfl, hpath⟩ := hd
  obtain ⟨v₀, path, rfl, hv₀, hpath⟩ := List.map_eq_cons_iff.mp hpath
  have hne : path ≠ [] := by
    rintro rfl
    simp at hpath
  have hv₀ := Vertex.eq_of_blurred_source hv₀
  obtain ⟨t, ht, -⟩ := (show s.graph.forest.Leads ([v₀] ++ path) u from hl).split (by simp) hne
  obtain rfl : v₀ = t.label := by simpa using ht.getLast?
  have hsource : t.label.node.isSource = true := by rw [hv₀]; rfl
  -- the source is the nearest one above the main checkpoint
  have hancestor := hf.ancestor?_eq hs hl
  obtain ⟨v, later, hrow⟩ := List.exists_cons_of_ne_nil ((hf.joined_of_leads ht).started hsource)
  have hrow : t.below.roots = v :: later := hrow
  obtain ⟨w, hw, rfl⟩ := Forest.mem_roots.mp (hrow ▸ List.mem_cons_self : v ∈ t.below.roots)
  have hparse := (hf.joined_of_leads (ht.append hw)).parse
  obtain ⟨c₀, hc₀⟩ : ∃ c₀, w.label.node = .parse c₀ := by
    cases hn : w.label.node <;> simp_all [Node.isParse]
  have hbelow : parseBelow? s.graph t.label.id = some (w.label.id, c₀) := by
    rw [parseBelow?, hs.wellFormed.tree?_eq ht]
    simp [hrow, hc₀, Node.coercions?]
  refine ⟨t, w.label, c₀, later, hv₀ ▸ hroot, ht, hrow, hc₀, ?_⟩
  unfold Session.coerce
  split
  · rename_i hempty
    rw [List.isEmpty_iff.mp hempty, update_merge_nil]
    exact ⟨_, rfl⟩
  · rw [hancestor]
    dsimp only
    rw [hbelow]
    exact ⟨_, rfl⟩

-- ---------------------------------------------------------------------------
-- Sources
-- ---------------------------------------------------------------------------

theorem Sound.leads_source (hs : s.Sound) (h : (key, id) ∈ s.sources) : ∃ d t, d.identity = key ∧
    s.graph.forest.Leads [t.label] t ∧ t.label = ⟨id, .source (.ofData d)⟩ := by
  obtain ⟨d, hd, way, t, hl, -, hway⟩ := hs.sources _ h
  obtain ⟨v, rfl, hv⟩ := List.map_eq_singleton_iff.mp hway
  have hv := Vertex.eq_of_blurred_source hv
  have hlast : v = t.label := by simpa using hl.getLast?
  subst hlast
  exact ⟨d, t, hd, hl, hv⟩

theorem sourceFor_cases (s : Session) (d : Data) :
    (∃ events, OrderedMap.find? d.identity s.sources = some (s.sourceFor d).2 ∧
      (s.sourceFor d).1 = { s with events }) ∨
    ∃ events, OrderedMap.find? d.identity s.sources = none ∧ (s.sourceFor d).2 = s.graph.size ∧
      (s.sourceFor d).1 = { s with
        graph := s.graph.add (.source (.ofData d))
        sources := s.sources ++ [(d.identity, s.graph.size)], events } := by
  unfold sourceFor
  cases hfind : OrderedMap.find? d.identity s.sources with
  | some id => exact .inl ⟨_, rfl, rfl⟩
  | none => exact .inr ⟨_, rfl, rfl, by rw [← OrderedMap.put_of_find?_eq_none hfind]; rfl⟩

theorem edge_eq {g : Graph} (hg : g.WellFormed) (h : g.forest.Leads path t)
    (he : e ∈ g.forest.edges none) (hid : e.1.id = t.label.id) :
    e = (t.label, path.dropLast.getLast?, t.below.roots) := by
  have hedge := h.mem_edges none
  rw [Option.or_none] at hedge
  have hkeys : ((g.forest.edges none).map fun e => e.1.id).Nodup := by
    have hk := hg.keyed
    rwa [Forest.Keyed, ← Forest.map_fst_edges g.forest none, List.map_map] at hk
  exact List.inj_on_of_nodup_map hkeys he hedge hid

theorem joined_own {g : Graph} (hg : g.WellFormed) (ht : g.forest.Leads [t.label] t)
    (hs : t.label.node.isSource = true)
    (hjoined : ∀ e ∈ g.forest.edges none, e.1.id = t.label.id ∨ Joined e) (c : Coercions) :
    ∀ e ∈ (g.extend t.label.id (.parse c :: m.chainNodes o)).1.forest.edges none, Joined e := by
  intro e he
  rw [hg.forest_extend ht] at he
  obtain ⟨first, rest, hchain, -⟩ := m.exists_chainNodes o
  refine joined_graft hg.keyed (by simp [Graph.numbered]) hjoined (fun e he hid => ?_)
    (fun v hv hid e he => ?_) he
  · have hparse : t.label.node.isParse = false := by
      cases hn : t.label.node <;> simp_all [Node.isSource, Node.isParse]
    rw [edge_eq hg ht he hid]
    refine ⟨hs, hparse, ?_⟩
    cases hn : t.label.node <;> simp_all [Node.isSource, Node.Branching]
  · obtain ⟨path, u, hu, rfl⟩ := Forest.exists_leads_of_mem hv
    rw [(hu.unique hg.keyed ht hid).2] at he
    rw [Graph.numbered, stem, Forest.edges, Forest.roots_stem] at he
    rcases List.mem_cons.mp he with rfl | he
    · refine ⟨rfl, hs.symm, fun _ => ⟨⟨g.size + 1, first⟩, ?_, fun _ => rfl⟩, fun h => by cases h⟩
      rw [hchain]
      rfl
    · rw [Forest.edges, List.append_nil] at he
      exact joined_stem rfl _ he

theorem JoinedForest.sourceFor (hf : s.JoinedForest) (d : Data) :
    (s.sourceFor d).1.graph.forest.roots.map Vertex.id = (s.sourceFor d).1.roots ∧
      ∀ e ∈ (s.sourceFor d).1.graph.forest.edges none, e.1.id = (s.sourceFor d).2 ∨ Joined e := by
  rcases s.sourceFor_cases d with ⟨events, -, hsame⟩ | ⟨events, -, hid, hnew⟩
  · rw [hsame]
    exact ⟨hf.roots, fun e he => .inr (hf.joined e he)⟩
  · rw [hnew, hid]
    refine ⟨?_, fun e he => ?_⟩
    · simp only [Graph.add, Forest.roots_append, List.map_append, hf.roots, Session.roots]
      rfl
    · simp only [Graph.add, Forest.edges_append] at he
      rcases List.mem_append.mp he with he | he
      · exact .inr (hf.joined e he)
      · obtain rfl := List.mem_singleton.mp he
        exact .inl rfl

theorem joinedForest_extend {s₁ s' : Session} {nodes : List Node} (hw : s₁.graph.WellFormed)
    (ht : s₁.graph.forest.Leads path t)
    (hroots : s₁.graph.forest.roots.map Vertex.id = s₁.roots)
    (hgraph : s'.graph = (s₁.graph.extend t.label.id nodes).1)
    (hsources : s'.sources = s₁.sources)
    (hjoined : ∀ e ∈ (s₁.graph.extend t.label.id nodes).1.forest.edges none, Joined e) :
    s'.JoinedForest where
  roots := by
    rw [hgraph, hw.forest_extend ht, Forest.roots_changeBelow, hroots, roots, roots, hsources]
  joined := by rwa [hgraph]

theorem JoinedForest.addChain (hf : s.JoinedForest) (hs : s.Sound) (hb : Begun s m d s' head)
    (root : NodeId) :
    (s'.addChain m root head).1.JoinedForest := by
  obtain ⟨events, hadd⟩ := addChain_eq s' m root head
  rw [hadd]
  cases hb with
  | own hdata =>
    obtain ⟨hgrown, hsource⟩ := hs.sourceFor d
    obtain ⟨d', t, -, ht, hlabel⟩ := hgrown.sound.leads_source hsource
    obtain ⟨hroots, hjoined⟩ := hf.sourceFor d
    have hid : (s.sourceFor d).2 = t.label.id := by rw [hlabel]
    rw [hid] at hjoined ⊢
    exact joinedForest_extend hgrown.sound.wellFormed ht hroots rfl rfl
      (joined_own hgrown.sound.wellFormed ht (by rw [hlabel]; rfl) hjoined _)
  | inherited hdata hd =>
    have hgrown := hs.coerce head (.ofModel m)
    have hfits : (s.coerce head (.ofModel m)).JoinedForest := by
      obtain ⟨t, v, c₀, later, -, -, -, -, events, hcoerce⟩ := hf.coerce_eq hs hd (.ofModel m)
      rw [hcoerce]
      exact hf.update v.id (alike_merge _) rfl rfl
    -- the chain goes on from the last checkpoint of another one
    obtain ⟨path, t, m', ht, rfl, hlast⟩ := (hd.grown hgrown).exists_leads
    have hw := hgrown.sound.wellFormed
    refine joinedForest_extend hw ht hfits.roots rfl rfl fun e he => ?_
    rw [hw.forest_extend ht] at he
    obtain ⟨first, rest, hchain, -⟩ := m.exists_chainNodes (s.coerce t.label.id (.ofModel m)).options
    refine joined_graft hw.keyed (by simp [hchain, Graph.numbered])
      (fun e he => .inr (hfits.joined e he)) (fun e he hid => ?_) (fun v hv hid e he => ?_) he
    · have hj := hfits.joined e he
      refine ⟨hj.source, hj.parse, ?_⟩
      rw [edge_eq hw ht he hid, hlast]
      exact ⟨rfl, m', rfl⟩
    · obtain ⟨path, u, hu, rfl⟩ := Forest.exists_leads_of_mem hv
      rw [(hu.unique hw.keyed ht hid).2] at he
      exact joined_stem (by rw [hlast]; rfl) _ he

theorem Chained.joinedForest {readers : List (Model × Data)} (h : Chained s readers s')
    (hs : s.Sound) (hf : s.JoinedForest) : s'.JoinedForest := by
  induction h with
  | nil => exact hf
  | cons hb _ ih => exact ih (hb.addChain hs _).1.sound (hf.addChain hs hb _)

theorem JoinedForest.require (hf : s.JoinedForest) (name : String) :
    (s.require name).JoinedForest := by
  unfold Session.require
  split
  · exact hf.update _ alike_require rfl rfl
  · exact hf

theorem joinedForest_start (o : Options) : JoinedForest { options := o } :=
  ⟨rfl, fun _ he => nomatch he⟩

/-- After any calls a session is in shape. -/
theorem joinedForest_run (o : Options) (calls : List Call) :
    (run o calls).Sound ∧ (run o calls).JoinedForest :=
  run_of (joinedForest_start o) (fun root hs hf hb => hf.addChain hs hb root)
    (fun name _ hf => hf.require name) calls

end Session

end ChartPipeline
