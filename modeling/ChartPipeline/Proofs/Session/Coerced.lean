import ChartPipeline.Proofs.Node.Coercions
import ChartPipeline.Proofs.Node.Identity
import ChartPipeline.Proofs.Session.Finish

/-!
# Coercions at their sources

Below each source there is one parse node for every model that declares its data, and the first of
them has taken in the coercions of the models that inherit the data (`Chained.coerced`).
-/

namespace ChartPipeline

open Coercions (besides)
open Forest (Leads)

namespace Model

variable {d : Data} {readers : List (Model × Data)} {r : Model × Data}

def declaring (d : Data) (readers : List (Model × Data)) : List Model :=
  (readers.filter fun r => r.2.identity == d.identity && r.1.data.isSome).map Prod.fst

/-- The models that read the data without declaring it, in order. -/
def inheriting (d : Data) (readers : List (Model × Data)) : List Model :=
  (readers.filter fun r => r.2.identity == d.identity && r.1.data.isNone).map Prod.fst

theorem mem_map_fst_filter {p : Model → Bool} {m : Model} :
    m ∈ (readers.filter fun r => r.2.identity == d.identity && p r.1).map Prod.fst ↔
      (m, d) ∈ readers ∧ p m = true := by
  simp only [List.mem_map, List.mem_filter, Bool.and_eq_true, beq_iff_eq]
  constructor
  · rintro ⟨⟨m', d'⟩, ⟨hr, hd, hp⟩, rfl⟩
    exact ⟨Data.identity_injective hd ▸ hr, hp⟩
  · intro ⟨hr, hp⟩
    exact ⟨_, ⟨hr, rfl, hp⟩, rfl⟩

theorem mem_declaring {m : Model} :
    m ∈ declaring d readers ↔ (m, d) ∈ readers ∧ m.data.isSome = true :=
  mem_map_fst_filter (p := fun m => m.data.isSome)

theorem mem_inheriting {m : Model} :
    m ∈ inheriting d readers ↔ (m, d) ∈ readers ∧ m.data.isNone = true :=
  mem_map_fst_filter (p := fun m => m.data.isNone)

theorem mem_inheriting_append_declaring {m : Model} :
    m ∈ inheriting d readers ++ declaring d readers ↔ (m, d) ∈ readers := by
  rw [List.mem_append, mem_inheriting, mem_declaring]
  cases m.data <;> simp

theorem map_fst_filter_concat (p : Model → Bool) (d : Data) (readers : List (Model × Data))
    (r : Model × Data) :
    ((readers ++ [r]).filter fun r => r.2.identity == d.identity && p r.1).map Prod.fst =
      (readers.filter fun r => r.2.identity == d.identity && p r.1).map Prod.fst ++
        if r.2.identity = d.identity && p r.1 then [r.1] else [] := by
  rw [List.filter_append, List.map_append]
  by_cases h : r.2.identity = d.identity
  · cases hp : p r.1 <;> simp [h, hp]
  · simp [h]

theorem declaring_concat (d : Data) (readers : List (Model × Data)) (r : Model × Data) :
    declaring d (readers ++ [r]) = declaring d readers ++
      if r.2.identity = d.identity && r.1.data.isSome then [r.1] else [] :=
  map_fst_filter_concat (fun m => m.data.isSome) d readers r

theorem inheriting_concat (d : Data) (readers : List (Model × Data)) (r : Model × Data) :
    inheriting d (readers ++ [r]) = inheriting d readers ++
      if r.2.identity = d.identity && r.1.data.isNone then [r.1] else [] :=
  map_fst_filter_concat (fun m => m.data.isNone) d readers r

end Model

namespace Graph

variable {g : Graph} {r t : Tree Vertex} {path later : List Vertex} {v : Vertex}

def parses (g : Graph) (id : NodeId) : List Coercions :=
  (g.tree? id).elim [] fun t => t.below.roots.filterMap (·.node.coercions?)

theorem WellFormed.parses_eq (hg : g.WellFormed) (h : g.forest.Leads path t) :
    g.parses t.label.id = t.below.roots.filterMap (·.node.coercions?) := by
  rw [parses, hg.tree?_eq h]
  rfl

theorem WellFormed.parses_extend (hg : g.WellFormed) (hr : g.forest.Leads [r.label] r)
    (ht : g.forest.Leads path t) (n : Node) (nodes : List Node) :
    (g.extend t.label.id (n :: nodes)).1.parses r.label.id = g.parses r.label.id ++
      if r.label.id = t.label.id then n.coercions?.toList else [] := by
  have hnew := hr.changeBelow_root (p := has t.label.id)
    (g := fun _ below => below ++ Forest.stem (numbered g.size (n :: nodes)))
  have hforest := hg.forest_extend ht (n :: nodes)
  rw [Forest.graft] at hforest
  rw [← hforest] at hnew
  rw [(hg.extend _ _).parses_eq hnew, hg.parses_eq hr]
  by_cases he : r.label.id = t.label.id
  · rw [has, he, beq_self_eq_true, if_pos rfl, if_pos rfl, Forest.roots_append, List.filterMap_append]
    rfl
  · rw [has, beq_eq_false_iff_ne.mpr he, if_neg (by simp), if_neg he, Forest.roots_changeBelow,
      List.append_nil]

theorem WellFormed.parses_merge {c₀ : Coercions} (hg : g.WellFormed)
    (ht : g.forest.Leads [t.label] t) (hrow : t.below.roots = v :: later) (hv : v.node = .parse c₀)
    (hr : g.forest.Leads [r.label] r) (c : Coercions) :
    (g.update v.id fun n => (n.merge? (.parse c)).getD n).parses r.label.id =
      if r.label.id = t.label.id then c₀.merge c :: later.filterMap (·.node.coercions?)
      else g.parses r.label.id := by
  have hnew := hr.map fun w =>
    if w.id = v.id then { w with node := (w.node.merge? (.parse c)).getD w.node } else w
  have hid (w : Vertex) : (if w.id = v.id then
      { w with node := (w.node.merge? (.parse c)).getD w.node } else w).id = w.id := by
    split <;> rfl
  have hsame {row : List Vertex} (h : ∀ w ∈ row, w.id ≠ v.id) : (row.map fun w => if w.id = v.id then
      { w with node := (w.node.merge? (.parse c)).getD w.node } else w) = row :=
    (List.map_congr_left fun w hw => if_neg (h w hw)).trans (List.map_id _)
  obtain ⟨u, hu, rfl⟩ := Forest.mem_roots.mp (hrow ▸ List.mem_cons_self : v ∈ t.below.roots)
  have hparses := (hg.update u.label.id fun n => (n.merge? (.parse c)).getD n).parses_eq hnew
  rw [hid, Forest.roots_map] at hparses
  rw [hparses]
  by_cases he : r.label.id = t.label.id
  · obtain ⟨-, rfl⟩ := hr.unique hg.keyed ht he
    rw [if_pos rfl, hrow, List.map_cons, hsame, if_pos rfl, hv]
    · rfl
    · intro w hw hid
      have hnodup := hg.keyed.nodup_roots ht
      rw [hrow, List.map_cons, List.nodup_cons] at hnodup
      exact hnodup.1 (hid ▸ List.mem_map_of_mem hw)
  · rw [if_neg he, hsame, hg.parses_eq hr]
    intro w hw hsame
    obtain ⟨x, hx, rfl⟩ := Forest.mem_roots.mp hw
    have hpath := ((hr.append hx).unique hg.keyed (ht.append hu) hsame).1
    exact he (congrArg Vertex.id (List.cons.inj hpath).1)

end Graph

namespace Session

variable {s s' : Session} {m : Model} {d : Data} {head : NodeId} {readers more : List (Model × Data)}

/-- Each source is that of some data that is declared, and below it there is what the readers of the
data ask for. -/
structure Coerced (s : Session) (readers : List (Model × Data)) : Prop where
  keys : ∀ key, key ∈ s.sources.keys ↔ ∃ r ∈ readers, r.2.identity = key ∧ r.1.data.isSome
  known : ∀ r ∈ readers, r.2.identity ∈ s.sources.keys
  parses : ∀ d id, (d.identity, id) ∈ s.sources → s.graph.parses id =
    besides ((Model.inheriting d readers).map .ofModel) ((Model.declaring d readers).map .ofModel)

theorem Sound.id_eq_iff {key key' : String} {id id' : NodeId} (hs : s.Sound)
    (h : (key, id) ∈ s.sources) (h' : (key', id') ∈ s.sources) : id = id' ↔ key = key' := by
  constructor
  · rintro rfl
    exact congrArg Prod.fst
      (List.inj_on_of_nodup_map hs.sourceRoots.nodup h h' rfl : ((key, id) : String × NodeId) = _)
  · rintro rfl
    exact congrArg Prod.snd
      (List.inj_on_of_nodup_map hs.keys h h' rfl : ((key, id) : String × NodeId) = _)

theorem Coerced.declaring_eq_nil (hc : s.Coerced readers) (h : d.identity ∉ s.sources.keys) :
    Model.declaring d readers = [] := by
  rw [Model.declaring, List.map_eq_nil_iff, List.filter_eq_nil_iff]
  intro r hr hread
  obtain ⟨hd, hdata⟩ := by simpa using hread
  exact h ((hc.keys _).mpr ⟨r, hr, hd, hdata⟩)

theorem Coerced.inheriting_eq_nil (hc : s.Coerced readers) (h : Model.declaring d readers = []) :
    Model.inheriting d readers = [] := by
  rw [Model.declaring, List.map_eq_nil_iff, List.filter_eq_nil_iff] at h
  rw [Model.inheriting, List.map_eq_nil_iff, List.filter_eq_nil_iff]
  intro r hr hread
  obtain ⟨hd, -⟩ := by simpa using hread
  obtain ⟨r', hr', hd', hdata⟩ := (hc.keys _).mp (hc.known r hr)
  exact h r' hr' (by simp [hd', hd, hdata])

theorem Coerced.sourceFor (hc : s.Coerced readers) (hs : s.Sound) (d : Data) :
    (∀ key, key ∈ (s.sourceFor d).1.sources.keys ↔ key ∈ s.sources.keys ∨ key = d.identity) ∧
    ∀ e id, (e.identity, id) ∈ (s.sourceFor d).1.sources → (s.sourceFor d).1.graph.parses id =
      besides ((Model.inheriting e readers).map .ofModel)
        ((Model.declaring e readers).map .ofModel) := by
  rcases s.sourceFor_cases d with ⟨events, hfind, hsame⟩ | ⟨events, hfind, -, hnew⟩
  · rw [hsame]
    refine ⟨fun key => ⟨.inl, ?_⟩, hc.parses⟩
    rintro (h | rfl)
    · exact h
    · exact List.mem_map_of_mem (OrderedMap.mem_of_find? hfind)
  · rw [hnew]
    refine ⟨fun key => by simp [OrderedMap.keys], fun e id h => ?_⟩
    rcases List.mem_append.mp h with h | h
    · obtain ⟨_, r, -, hr, hlabel⟩ := hs.leads_source h
      have hadd := (hs.wellFormed.add (.source (.ofData d))).parses_eq
        (Forest.leads_append.mpr (.inl hr))
      rw [← hs.wellFormed.parses_eq hr, hlabel] at hadd
      exact hadd.trans (hc.parses e id h)
    · obtain ⟨he, rfl⟩ := Prod.mk.inj (List.mem_singleton.mp h)
      have hadd := (hs.wellFormed.add (.source (.ofData d))).parses_eq (Graph.leads_new s.graph _)
      refine hadd.trans ?_
      rw [hc.declaring_eq_nil (he ▸ OrderedMap.notMem_of_find? hfind)]
      rfl

theorem Coerced.keys_concat (hc : s.Coerced readers) (m : Model) (d : Data) (key : String) :
    (∃ r ∈ readers ++ [(m, d)], r.2.identity = key ∧ r.1.data.isSome = true) ↔
      key ∈ s.sources.keys ∨ key = d.identity ∧ m.data.isSome = true := by
  rw [hc.keys]
  simp only [List.mem_append, List.mem_singleton, or_and_right, exists_or, exists_eq_left,
    @eq_comm _ key]

theorem Coerced.besides_own (hc : s.Coerced readers) (hdata : m.data = some d) (e : Data) :
    besides ((Model.inheriting e (readers ++ [(m, d)])).map .ofModel)
        ((Model.declaring e (readers ++ [(m, d)])).map .ofModel) =
      besides ((Model.inheriting e readers).map .ofModel)
          ((Model.declaring e readers).map .ofModel) ++
        if e.identity = d.identity then [.ofModel m] else [] := by
  rw [Model.declaring_concat, Model.inheriting_concat]
  by_cases he : e.identity = d.identity
  · have hnone : (Model.declaring e readers).map Coercions.ofModel = [] →
        (Model.inheriting e readers).map Coercions.ofModel = [] := fun h => by
      rw [hc.inheriting_eq_nil (List.map_eq_nil_iff.mp h), List.map_nil]
    simpa [he, hdata] using Coercions.besides_declared hnone (.ofModel m)
  · simp [he, Ne.symm he]

/-- A chain below the source of its data begins with the coercions of the model. -/
theorem Coerced.parses_own (hc : s.Coerced readers) (hs : s.Sound) (hdata : m.data = some d)
    {e : Data} {id : NodeId} (h : (e.identity, id) ∈ (s.sourceFor d).1.sources) (o : Options) :
    ((s.sourceFor d).1.graph.extend (s.sourceFor d).2
        (.parse (.ofModel m) :: m.chainNodes o)).1.parses id =
      besides ((Model.inheriting e (readers ++ [(m, d)])).map .ofModel)
        ((Model.declaring e (readers ++ [(m, d)])).map .ofModel) := by
  obtain ⟨hgrown, hsource⟩ := hs.sourceFor d
  obtain ⟨_, t, -, ht, hlabel⟩ := hgrown.sound.leads_source hsource
  obtain ⟨_, r, -, hr, hlabel'⟩ := hgrown.sound.leads_source h
  have hextend := hgrown.sound.wellFormed.parses_extend hr ht (.parse (.ofModel m)) (m.chainNodes o)
  rw [hlabel, hlabel', (hc.sourceFor hs d).2 e id h] at hextend
  rw [hextend, hc.besides_own hdata]
  simp only [hgrown.sound.id_eq_iff h hsource]
  rfl

/-- Of the nodes right below sources only the first one below the source of the data changes. -/
theorem Coerced.parses_coerce (hc : s.Coerced readers) (hs : s.Sound) (hf : s.JoinedForest)
    (hdata : m.data = none) (hd : s.DrawsOn head d) {e : Data} {id : NodeId}
    (h : (e.identity, id) ∈ s.sources) :
    (s.coerce head (.ofModel m)).graph.parses id =
      besides ((Model.inheriting e (readers ++ [(m, d)])).map .ofModel)
        ((Model.declaring e (readers ++ [(m, d)])).map .ofModel) := by
  obtain ⟨t, v, c₀, later, hsource, ht, hrow, hv, more, hcoerce⟩ := hf.coerce_eq hs hd (.ofModel m)
  obtain ⟨_, r, -, hr, hlabel⟩ := hs.leads_source h
  have hmerge := hs.wellFormed.parses_merge ht hrow hv hr (.ofModel m)
  have hid := hs.id_eq_iff h hsource
  rw [hlabel] at hmerge
  rw [hcoerce, Model.declaring_concat, Model.inheriting_concat]
  refine hmerge.trans ?_
  by_cases he : e.identity = d.identity
  · have hbefore := hc.parses e id h
    rw [hid.mpr he, hs.wellFormed.parses_eq ht, hrow,
      List.filterMap_cons_some (b := c₀) (by rw [hv]; rfl)] at hbefore
    have hinherited := Coercions.besides_inherited hbefore.symm (.ofModel m)
    rw [if_pos (hid.mpr he)]
    simpa [he, hdata] using hinherited.symm
  · rw [if_neg (mt hid.mp he)]
    simpa [Ne.symm he] using hc.parses e id h

/-- A chain that goes on from a checkpoint brings nothing right below a source. -/
theorem Sound.parses_chain {key : String} {id : NodeId} (hs : s.Sound) (hd : s.DrawsOn head d)
    (h : (key, id) ∈ s.sources) (m : Model) (o : Options) :
    (s.graph.extend head (m.chainNodes o)).1.parses id = s.graph.parses id := by
  obtain ⟨_, r, -, hr, hlabel⟩ := hs.leads_source h
  obtain ⟨path, u, m', hu, rfl, hlast⟩ := hd.exists_leads
  obtain ⟨first, rest, hchain, -⟩ := m.exists_chainNodes o
  have hextend := hs.wellFormed.parses_extend hr hu first rest
  have hne : r.label.id ≠ u.label.id := fun he => by
    obtain ⟨-, rfl⟩ := hr.unique hs.wellFormed.keyed hu he
    rw [hlabel] at hlast
    cases hlast
  rwa [← hchain, if_neg hne, List.append_nil, hlabel] at hextend

theorem Coerced.addChain (hc : s.Coerced readers) (hs : s.Sound) (hf : s.JoinedForest)
    (hb : Begun s m d s' head) (root : NodeId) :
    (s'.addChain m root head).1.Coerced (readers ++ [(m, d)]) := by
  obtain ⟨events, hadd⟩ := addChain_eq s' m root head
  rw [hadd]
  cases hb with
  | own hdata =>
    have hkeys := (hc.sourceFor hs d).1
    refine ⟨fun key => ?_, fun r hr => ?_, fun e id h => hc.parses_own hs hdata h _⟩
    · rw [hc.keys_concat, hdata]
      exact (hkeys key).trans (or_congr_right (and_iff_left rfl).symm)
    · refine (hkeys _).mpr ?_
      rcases List.mem_append.mp hr with hr | hr
      · exact .inl (hc.known r hr)
      · rw [List.mem_singleton.mp hr]
        exact .inr rfl
  | inherited hdata hd =>
    have hgrown := hs.coerce head (.ofModel m)
    obtain ⟨graph, more, hcoerce⟩ := s.exists_coerce_eq head (.ofModel m)
    have hsources : (s.coerce head (.ofModel m)).sources = s.sources := by rw [hcoerce]
    refine ⟨fun key => ?_, fun r hr => ?_, fun e id h => ?_⟩
    · rw [hc.keys_concat, hdata]
      simp [hsources]
    · refine (show r.2.identity ∈ (s.coerce head (.ofModel m)).sources.keys from ?_)
      rw [hsources]
      rcases List.mem_append.mp hr with hr | hr
      · exact hc.known r hr
      · rw [List.mem_singleton.mp hr]
        obtain ⟨_, _, _, _, hsource, -⟩ := hf.coerce_eq hs hd (.ofModel m)
        exact List.mem_map_of_mem hsource
    · exact (hgrown.sound.parses_chain (hd.grown hgrown) h m _).trans
        (hc.parses_coerce hs hf hdata hd (hsources ▸ h))

theorem Begun.keys_sources (hb : Begun s m d s' head) : s'.sources.keys =
    OrderedSet.union s.sources.keys (m.data.toList.map Data.identity) := by
  cases hb with
  | own hdata =>
    have hkeys : (s.sourceFor d).1.sources.keys = OrderedSet.add s.sources.keys d.identity := by
      rcases s.sourceFor_cases d with ⟨events, hfind, hsame⟩ | ⟨events, hfind, -, hnew⟩
      · rw [hsame, OrderedSet.add, if_pos]
        exact List.mem_map_of_mem (OrderedMap.mem_of_find? hfind)
      · rw [hnew, OrderedSet.add, if_neg (OrderedMap.notMem_of_find? hfind)]
        simp [OrderedMap.keys]
    rw [hdata]
    exact hkeys
  | inherited hdata =>
    obtain ⟨graph, events, hcoerce⟩ := s.exists_coerce_eq head (.ofModel m)
    rw [hdata, hcoerce]
    rfl

theorem Chained.keys_sources (h : Chained s readers s') : s'.sources.keys =
    OrderedSet.union s.sources.keys ((readers.filterMap (·.1.data)).map Data.identity) := by
  induction h with
  | nil => rfl
  | @cons s m d s₁ head rest s₂ root hb _ ih =>
    obtain ⟨events, hadd⟩ := addChain_eq s₁ m root head
    rw [ih, hadd, hb.keys_sources]
    cases hdata : m.data with
    | none => simp [hdata, OrderedSet.union]
    | some own => simp [hdata, OrderedSet.union]

/-- Chain by chain, the readers of a session are those whose chains were added. -/
theorem Chained.coerced (h : Chained s more s') (hs : s.Sound) (hf : s.JoinedForest)
    (hc : s.Coerced readers) : s'.Coerced (readers ++ more) := by
  induction h generalizing readers with
  | nil => rwa [List.append_nil]
  | @cons s m d s₁ head rest s₂ root hb _ ih =>
    have hone := ih (hb.addChain hs root).1.sound (hf.addChain hs hb root) (hc.addChain hs hf hb root)
    rwa [List.append_assoc] at hone

end Session

end ChartPipeline
