import ChartPipeline.Proofs.Session.Ends
import ChartPipeline.Proofs.Session.Finish

/-!
# Required checkpoints

What is required of a session can be addressed in the end, but for one case: where the first
checkpoint of a chain is required and nothing that has an effect comes between it and the last one,
the last one is dropped (`required_addressable`).
-/

namespace ChartPipeline

open Forest (Leads lastKept kept)
open ChartPipeline.Graph (drops)

def Vertex.require (id : NodeId) (v : Vertex) : Vertex :=
  if v.id = id then { v with node := v.node.require } else v

namespace Session

def Standing (s : Session) (m : Model) (required : Bool) : Prop :=
  ∃ raw main trace, s.output? m.rawName = some raw ∧ s.output? m.mainName = some main ∧
    s.graph.Trace main trace ∧ EndsWith m required raw main trace

structure Registered (s : Session) : Prop where
  keys : s.outputs.keys.Nodup
  names : ∀ entry ∈ s.outputs, ∃ above k,
    s.graph.Trace entry.2 (above ++ [⟨entry.2, .checkpoint k⟩]) ∧ k.name = entry.1

/-- A checkpoint is known by the name, and pruning takes it out or not. -/
def Fate (s : Session) (name : String) (gone : Bool) : Prop :=
  ∃ path u k, s.graph.forest.Leads path u ∧ s.output? name = some u.label.id ∧
    u.label.node = .checkpoint k ∧ ∀ up, drops (lastKept drops up path.dropLast) u.label = gone

end Session

variable {s s' : Session} {m : Model} {d : Data} {o : Options} {b gone : Bool}
  {id raw main head : NodeId} {trace way path : List Vertex} {up v : Vertex} {u : Tree Vertex}
  {names : List String} {readers : List (Model × Data)} {calls : List Call} {c : Compiled}
  {name record : String}

namespace Session

-- ---------------------------------------------------------------------------
-- One chain
-- ---------------------------------------------------------------------------

theorem Begun.outputs (h : Begun s m d s' head) : s'.outputs = s.outputs := by
  cases h with
  | own =>
    rcases s.sourceFor_cases d with ⟨events, -, hsame⟩ | ⟨events, -, -, hnew⟩
    · rw [hsame]
      rfl
    · rw [hnew]
      rfl
  | inherited =>
    obtain ⟨graph, events, hcoerce⟩ := s.exists_coerce_eq head (.ofModel m)
    rw [hcoerce]

theorem Begun.standing (h : Begun s m d s' head) (hs : s.Sound) (root : NodeId) :
    ∃ raw main trace, (s'.addChain m root head).1.outputs =
        (s.outputs.put m.rawName raw).put m.mainName main ∧
      (s'.addChain m root head).1.graph.Trace main trace ∧ EndsWith m false raw main trace := by
  obtain ⟨hgrown, source, d', way, -, path, t, ht, rfl, -⟩ := h.grown hs
  obtain ⟨events, hchain⟩ := addChain_eq s' m root t.label.id
  obtain ⟨u, hu, -⟩ := hgrown.sound.wellFormed.leads_extend ht (m.chainNodes s'.options)
  have hends := endsWith_chainNodes s'.options m path s'.graph.size
  refine ⟨_, _, _, ?_, ⟨_, u, ?_, ?_, rfl⟩, hends.blurred⟩
  · rw [hchain, h.outputs]
  · rw [hchain]
    exact hu
  · obtain ⟨above, habove, -⟩ := hends.drops_main
    have hlast := hu.getLast?
    rw [habove, List.getLast?_concat] at hlast
    rw [← Option.some.inj hlast]

theorem trace_of_append {g : Graph} {last : List Vertex} (h : g.Trace id ((way ++ [v]) ++ last)) :
    g.Trace v.id (way ++ [v]) := by
  by_cases hlast : last = []
  · obtain rfl := hlast
    rw [List.append_nil] at h
    rwa [h.last]
  obtain ⟨path, t, hl, -, hpath⟩ := h
  obtain ⟨first, rest, rfl, hfirst, hrest⟩ := List.map_eq_append_iff.mp hpath
  have hne : first ≠ [] := by
    rintro rfl
    simp at hfirst
  have hne' : rest ≠ [] := by
    rintro rfl
    exact hlast hrest.symm
  obtain ⟨u, hu, -⟩ := hl.split hne hne'
  have hend := congrArg List.getLast? hfirst
  rw [List.getLast?_map, hu.getLast?, List.getLast?_concat, Option.map_some] at hend
  exact ⟨first, u, hu, by rw [← Option.some.inj hend]; rfl, hfirst⟩

theorem Registered.grown (h : s.Registered) (hg : Grown names s s') :
    ∀ entry ∈ s.outputs, ∃ above k, s'.graph.Trace entry.2 (above ++ [⟨entry.2, .checkpoint k⟩]) ∧
      k.name = entry.1 := by
  intro entry he
  obtain ⟨above, k, ht, hk⟩ := h.names entry he
  exact ⟨above, k, hg.traces _ _ ht, hk⟩

theorem Registered.addChain (h : s.Registered) (hs : s.Sound) (hb : Begun s m d s' head)
    (root : NodeId) :
    (s'.addChain m root head).1.Registered ∧ (s'.addChain m root head).1.Standing m false := by
  obtain ⟨hgrown, -⟩ := hb.addChain hs root
  obtain ⟨raw, main, trace, hout, ht, hends⟩ := hb.standing hs root
  obtain ⟨above, hmain, -⟩ := hends.drops_main
  obtain ⟨first, last, hraw, -⟩ := hends.drops_raw
  have htraw := trace_of_append (hraw ▸ ht)
  refine ⟨⟨?_, fun entry he => ?_⟩, raw, main, trace, ?_, ?_, ht, hends⟩
  · rw [hout]
    exact OrderedMap.nodup_keys_put _ _ (OrderedMap.nodup_keys_put _ _ h.keys)
  · rw [hout] at he
    rcases OrderedMap.mem_put he with rfl | he
    · exact ⟨above, _, hmain ▸ ht, rfl⟩
    · rcases OrderedMap.mem_put he with rfl | he
      · exact ⟨first, _, htraw, rfl⟩
      · exact h.grown hgrown entry he
  · rw [output?, hout, OrderedMap.find?_put_of_ne (rawName_ne_mainName m m)]
    exact OrderedMap.find?_put_self ..
  · rw [output?, hout]
    exact OrderedMap.find?_put_self ..

theorem Standing.grown (h : s.Standing m b) (hg : Grown names s s') (hraw : m.rawName ∉ names)
    (hmain : m.mainName ∉ names) : s'.Standing m b := by
  obtain ⟨raw, main, trace, hr, hm, ht, hends⟩ := h
  exact ⟨raw, main, trace, (hg.outputs _ hraw).trans hr, (hg.outputs _ hmain).trans hm,
    hg.traces _ _ ht, hends⟩

-- ---------------------------------------------------------------------------
-- One request
-- ---------------------------------------------------------------------------

theorem output?_require (s : Session) (name other : String) :
    (s.require name).output? other = s.output? other := by
  unfold Session.require
  split <;> rfl

theorem trace_unique {g : Graph} {trace' : List Vertex} (hg : g.WellFormed) (h : g.Trace id trace)
    (h' : g.Trace id trace') : trace = trace' := by
  obtain ⟨path, t, hl, rfl, rfl⟩ := h
  obtain ⟨path', t', hl', hid, rfl⟩ := h'
  rw [(hl.unique hg.keyed hl' hid.symm).1]

theorem trace_require {g : Graph} (h : g.Trace id trace) (other : NodeId) :
    (g.update other Node.require).Trace id (trace.map (Vertex.require other)) := by
  obtain ⟨path, t, hl, rfl, rfl⟩ := h
  refine ⟨_, _, hl.map _, ?_, ?_⟩
  · dsimp only
    split <;> rfl
  · rw [List.map_map, List.map_map]
    refine List.map_congr_left fun v _ => ?_
    obtain ⟨id, n⟩ := v
    rw [Function.comp_apply, Function.comp_apply, Vertex.require, Vertex.blurred, Vertex.blurred]
    split <;> cases n <;> rfl

theorem Registered.require (h : s.Registered) (name : String) : (s.require name).Registered := by
  unfold Session.require
  split
  · rename_i id _
    refine ⟨h.keys, fun entry he => ?_⟩
    obtain ⟨above, k, ht, hk⟩ := h.names entry he
    have ht := trace_require ht id
    rw [List.map_append, List.map_singleton, Vertex.require] at ht
    split at ht
    · exact ⟨_, _, ht, hk⟩
    · exact ⟨_, _, ht, hk⟩
  · exact h

theorem registered_run (o : Options) (calls : List Call) : (run o calls).Registered :=
  (run_of (P := Registered) ⟨.nil, fun _ h => nomatch h⟩
    (fun root hs hr hb => (hr.addChain hs hb root).1) (fun name _ hr => hr.require name) calls).2

/-- A request for the first checkpoint of a chain is the only one that changes the chain. -/
theorem Standing.require (h : s.Standing m b) (hs : s.Sound) (hr : s.Registered) (name : String) :
    (s.require name).Standing m (b || name == m.rawName) := by
  obtain ⟨raw, main, trace, hraw, hmain, ht, hends⟩ := h
  refine ⟨raw, main, ?_⟩
  rw [output?_require, output?_require]
  unfold Session.require
  cases hout : s.output? name with
  | none =>
    have hne : name ≠ m.rawName := by
      rintro rfl
      rw [hraw] at hout
      cases hout
    rw [beq_eq_false_iff_ne.mpr hne, Bool.or_false]
    exact ⟨trace, hraw, hmain, ht, hends⟩
  | some id =>
    have hid : raw = id ↔ name = m.rawName := by
      constructor
      · rintro rfl
        obtain ⟨above, k, habove, hk⟩ := hr.names _ (OrderedMap.mem_of_find? hout)
        obtain ⟨first, last, rfl, -⟩ := hends.drops_raw
        have hlast := congrArg List.getLast? (trace_unique hs.wellFormed habove (trace_of_append ht))
        rw [List.getLast?_concat, List.getLast?_concat] at hlast
        obtain rfl := Node.checkpoint.inj (Vertex.mk.inj (Option.some.inj hlast)).2
        exact hk.symm
      · rintro rfl
        exact Option.some.inj (hraw.symm.trans hout)
    refine ⟨_, hraw, hmain, trace_require ht id, hends.map (fun v hv => ?_) ?_ ?_⟩
    · obtain ⟨id, n⟩ := v
      cases n <;> first | exact ite_self _ | cases hv
    · by_cases he : raw = id
      · simp [Vertex.require, he, hid.mp he, Node.require]
      · simp [Vertex.require, he, mt hid.mpr he]
    · exact ite_self _

-- ---------------------------------------------------------------------------
-- All calls
-- ---------------------------------------------------------------------------

theorem Chained.standing (h : Chained s readers s') (hs : s.Sound) (hr : s.Registered)
    (hn : (checkpointNames (readers.map Prod.fst)).Nodup) :
    s'.Registered ∧ ∀ r ∈ readers, s'.Standing r.1 false := by
  induction h with
  | nil => exact ⟨hr, fun _ h => nomatch h⟩
  | @cons s m d s₁ head rest s₂ root hb hrest ih =>
    rw [List.map_cons, ← List.singleton_append, checkpointNames_append, List.nodup_append] at hn
    obtain ⟨-, hn, hapart⟩ := hn
    obtain ⟨hgrown, -⟩ := hb.addChain hs root
    obtain ⟨hr, hone⟩ := hr.addChain hs hb root
    obtain ⟨hr', hlater⟩ := ih hgrown.sound hr hn
    refine ⟨hr', List.forall_mem_cons.mpr ⟨?_, hlater⟩⟩
    exact hone.grown (hrest.grown hgrown.sound) (fun h => hapart _ (by simp [checkpointNames]) _ h rfl)
      (fun h => hapart _ (by simp [checkpointNames]) _ h rfl)

theorem mem_checkpointNames (h : (m, d) ∈ readers) :
    m.rawName ∈ checkpointNames (readers.map Prod.fst) ∧
      m.mainName ∈ checkpointNames (readers.map Prod.fst) :=
  ⟨List.mem_flatMap.mpr ⟨m, List.mem_map_of_mem h, by simp⟩,
    List.mem_flatMap.mpr ⟨m, List.mem_map_of_mem h, by simp⟩⟩

theorem mem_checkpointNames_of_output? (h : (run o calls).output? name = some id) :
    name ∈ checkpointNames ((calls.flatMap Call.added).map Prod.fst) := by
  induction calls using List.reverseRecOn with
  | nil => cases h
  | append_singleton calls call ih =>
    rw [run_concat] at h
    rw [List.flatMap_append, List.map_append, checkpointNames_append, List.mem_append]
    cases call with
    | chart t =>
      obtain ⟨hs, -⟩ := joinedForest_run o calls
      have hgrown := (hs.chained_call t).grown hs
      by_cases hname : name ∈ checkpointNames ((Call.chart t).added.map Prod.fst)
      · exact .inr (by simpa using hname)
      · exact .inl (ih ((hgrown.outputs _ hname).symm.trans h))
    | require other => exact .inl (ih ((output?_require _ _ _).symm.trans h))

/-- Every request is for a checkpoint that is known by then. -/
def Answered (o : Options) (calls : List Call) : Prop :=
  ∀ before name after, calls = before ++ .require name :: after →
    ((run o before).output? name).isSome

theorem Answered.of_append {more : List Call} (h : Answered o (calls ++ more)) : Answered o calls :=
  fun before name after he => h before name (after ++ more) (by simp [he])

theorem standing_run (hcalls : Answered o calls)
    (hn : (checkpointNames ((calls.flatMap Call.added).map Prod.fst)).Nodup) :
    (run o calls).Registered ∧ ∀ r ∈ calls.flatMap Call.added, ∃ b, (run o calls).Standing r.1 b ∧
      (b = true ↔ Call.require r.1.rawName ∈ calls) := by
  induction calls using List.reverseRecOn with
  | nil => exact ⟨⟨.nil, fun _ h => nomatch h⟩, fun _ h => nomatch h⟩
  | append_singleton calls call ih =>
    rw [List.flatMap_append, List.flatMap_singleton] at hn ⊢
    rw [List.map_append, checkpointNames_append, List.nodup_append] at hn
    obtain ⟨hfirst, hlast, hapart⟩ := hn
    obtain ⟨hr, hold⟩ := ih hcalls.of_append hfirst
    obtain ⟨hs, -⟩ := joinedForest_run o calls
    rw [run_concat]
    cases call with
    | chart t =>
      have hc := hs.chained_call t
      obtain ⟨hr', hnew⟩ := hc.standing hs hr hlast
      refine ⟨hr', fun r hall => ?_⟩
      rcases List.mem_append.mp hall with h | h
      · obtain ⟨b, hb, hiff⟩ := hold r h
        have hown := mem_checkpointNames h
        refine ⟨b, hb.grown (hc.grown hs) (fun hn => hapart _ hown.1 _ hn rfl)
          fun hn => hapart _ hown.2 _ hn rfl, by simpa using hiff⟩
      · refine ⟨false, hnew r h, iff_of_false Bool.false_ne_true fun hrequire => ?_⟩
        -- it would have been known before
        have hmem : Call.require r.1.rawName ∈ calls := by simpa using hrequire
        obtain ⟨before, after, rfl⟩ := List.append_of_mem hmem
        obtain ⟨id, hid⟩ := Option.isSome_iff_exists.mp (hcalls.of_append before _ after rfl)
        refine hapart r.1.rawName ?_ _ (mem_checkpointNames h).1 rfl
        rw [List.flatMap_append, List.map_append, checkpointNames_append]
        exact List.mem_append_left _ (mem_checkpointNames_of_output? hid)
    | require name =>
      refine ⟨hr.require name, fun r h => ?_⟩
      obtain ⟨b, hb, hiff⟩ := hold r (by simpa [Call.added] using h)
      refine ⟨_, hb.require hs hr name, ?_⟩
      rw [Bool.or_eq_true, hiff, beq_iff_eq, List.mem_append, List.mem_singleton, Call.require.injEq,
        @eq_comm _ name]

-- ---------------------------------------------------------------------------
-- The end
-- ---------------------------------------------------------------------------

theorem JoinedForest.exists_split (hf : s.JoinedForest) (h : s.graph.forest.Leads path u)
    (hu : u.label.node.isSource = false) : ∃ t way, path = t.label :: way ∧
      t.label.id ∈ s.roots ∧ t.label.node.isSource = true ∧ s.graph.forest.Leads [t.label] t ∧
      t.below.Leads way u := by
  obtain ⟨v, way, rfl⟩ := List.exists_cons_of_ne_nil h.ne_nil
  have hway : way ≠ [] := by
    rintro rfl
    have hsource := (hf.joined_of_leads h).source
    rw [hu] at hsource
    cases hsource
  obtain ⟨t, ht, hu⟩ := (show s.graph.forest.Leads ([v] ++ way) u from h).split (by simp) hway
  obtain rfl : v = t.label := by simpa using ht.getLast?
  refine ⟨t, way, rfl, ?_, (hf.joined_of_leads ht).source, ht, hu⟩
  rw [← hf.roots]
  exact List.mem_map_of_mem (Forest.mem_roots.mpr ⟨t, ht, rfl⟩)

theorem drops_blurred (up v : Vertex) : drops up.blurred v.blurred = drops up v := by
  have hup : up.blurred.node.isCheckpoint = up.node.isCheckpoint := Node.isCheckpoint_blurred _
  obtain ⟨id, n⟩ := v
  cases n with
  | checkpoint c =>
    change (!(c.required && !up.blurred.node.isCheckpoint)) = !(c.required && !up.node.isCheckpoint)
    rw [hup]
  | _ => rfl

theorem fate_of_trace {above : List Vertex} {k : Checkpoint}
    (h : s.graph.Trace id (above ++ [⟨id, .checkpoint k⟩])) (hout : s.output? name = some id)
    (hd : ∀ up, drops (lastKept drops up above) ⟨id, .checkpoint k⟩ = gone) : s.Fate name gone := by
  obtain ⟨path, u, hl, rfl, hpath⟩ := h
  obtain ⟨first, _, rfl, rfl, hlast⟩ := List.map_eq_append_iff.mp hpath
  obtain ⟨w, rfl, hw⟩ := List.map_eq_singleton_iff.mp hlast
  obtain rfl : w = u.label := by simpa using hl.getLast?
  refine ⟨_, u, k, hl, hout, ?_, fun up => ?_⟩
  · exact Node.eq_of_blurred_eq (congrArg Vertex.node hw) rfl
  · rw [List.dropLast_concat, ← drops_blurred, ← Forest.lastKept_map drops_blurred, hw]
    exact hd up.blurred

theorem Standing.fates (h : s.Standing m b) :
    s.Fate m.rawName (!b) ∧ s.Fate m.mainName (b && m.endsAtRaw) := by
  obtain ⟨raw, main, trace, hraw, hmain, ht, hends⟩ := h
  constructor
  · obtain ⟨first, last, rfl, -, hdrops⟩ := hends.drops_raw
    exact fate_of_trace (trace_of_append ht) hraw hdrops
  · obtain ⟨above, rfl, -, hdrops⟩ := hends.drops_main
    exact fate_of_trace ht hmain hdrops

/-- What is pruned, and nothing else, cannot be addressed in the end. -/
theorem JoinedForest.source?_eq_none_iff (hf : s.JoinedForest) (hs : s.Sound) (hr : s.Registered)
    (hok : s.finish.2 = .ok c) (h : s.Fate name gone) :
    c.source? name = none ↔ gone = true := by
  obtain ⟨path, u, k, hl, hout, hk, hdrops⟩ := h
  obtain ⟨t, way, rfl, hroot, hsource, ht, hu⟩ := hf.exists_split hl (by rw [hk]; rfl)
  -- a source is never dropped
  have hgone : drops (lastKept drops t.label way.dropLast) u.label = gone := by
    have hall := hdrops t.label
    rwa [List.dropLast_cons_of_ne_nil hu.ne_nil, lastKept,
      if_neg (by simp [Graph.drops_of_isSource hsource])] at hall
  obtain ⟨hrecords, houtputs⟩ := finish_ok hok
  cases gone with
  | false =>
    obtain ⟨u', hu', he⟩ := hu.exists_prune hgone
    obtain ⟨hattached, r, -, n, -, -, hnode⟩ := hs.node?_of_kept hok hroot ht hu' (he ▸ hk)
    rw [he] at hattached hnode
    rw [Compiled.source?, houtputs, find?_bindings hout hnode hattached]
    simp
  | true =>
    refine iff_of_true (Option.eq_none_iff_forall_ne_some.mpr fun record hrecord => ?_) rfl
    obtain ⟨t', path', u', k', hmem, hroot', ht', hu', -, -⟩ :=
      hf.exists_kept hs hok (OrderedMap.mem_of_find? hrecord)
    obtain ⟨way', u'', hu'', -, rfl, hstays⟩ := hu'.of_prune
    have hid := OrderedMap.find?_of_mem hr.keys hmem
    -- it is the same node, and it would have been dropped
    have hsame := (ht.append hu).unique hs.wellFormed.keyed (ht'.append hu'')
      (Option.some.inj (hout.symm.trans hid))
    obtain ⟨hpath, rfl⟩ := hsame
    simp only [List.singleton_append, List.cons.injEq] at hpath
    obtain ⟨he, rfl⟩ := hpath
    rw [← he, hgone] at hstays
    cases hstays

end Session

-- ---------------------------------------------------------------------------
-- Sessions
-- ---------------------------------------------------------------------------

open Session (checkpointNames)

/-- A session that is asked only for checkpoints that it knows, and in which no two of them have the
same name, can be finished. What is required of it, the last checkpoint of each chain and whatever
it was asked for, can be addressed then, but for the last checkpoint of a chain whose first one was
asked for while nothing between the two has an effect. -/
theorem required_addressable (hcalls : Session.Answered o calls)
    (hn : (checkpointNames ((calls.flatMap Call.added).map Prod.fst)).Nodup) :
    ∃ c, (Session.run o calls).finish.2 = .ok c ∧ ∀ name,
      ((∃ r ∈ calls.flatMap Call.added, name = r.1.mainName) ∨ Call.require name ∈ calls) →
      (c.source? name = none ↔ ∃ r ∈ calls.flatMap Call.added, name = r.1.mainName ∧
        Call.require r.1.rawName ∈ calls ∧ r.1.endsAtRaw = true) := by
  obtain ⟨hs, hf⟩ := Session.joinedForest_run o calls
  obtain ⟨hr, hstanding⟩ := Session.standing_run hcalls hn
  obtain ⟨c, hok⟩ := hf.exists_finish hs
  refine ⟨c, hok, fun name hname => ?_⟩
  have hmain : ∀ r ∈ calls.flatMap Call.added, (c.source? r.1.mainName = none ↔
      Call.require r.1.rawName ∈ calls ∧ r.1.endsAtRaw = true) := by
    intro r h
    obtain ⟨b, hb, hiff⟩ := hstanding r h
    rw [hf.source?_eq_none_iff hs hr hok hb.fates.2, Bool.and_eq_true, hiff]
  refine ⟨fun hnone => ?_, ?_⟩
  · rcases hname with ⟨r, h, rfl⟩ | hrequire
    · exact ⟨r, h, rfl, (hmain r h).mp hnone⟩
    · obtain ⟨before, after, rfl⟩ := List.append_of_mem hrequire
      obtain ⟨id, hid⟩ := Option.isSome_iff_exists.mp (hcalls before name after rfl)
      obtain ⟨m, hm, hname⟩ := List.mem_flatMap.mp (Session.mem_checkpointNames_of_output? hid)
      obtain ⟨r, h, rfl⟩ := List.mem_map.mp hm
      have h : r ∈ (before ++ Call.require name :: after).flatMap Call.added := by
        rw [List.flatMap_append]
        exact List.mem_append_left _ h
      rcases List.mem_pair.mp hname with rfl | rfl
      · -- the first checkpoint of a chain stays if it was asked for
        obtain ⟨b, hb, hiff⟩ := hstanding r h
        have hgone := (hf.source?_eq_none_iff hs hr hok hb.fates.1).mp hnone
        rw [hiff.mpr hrequire] at hgone
        cases hgone
      · exact ⟨r, h, rfl, (hmain r h).mp hnone⟩
  · rintro ⟨r, h, rfl, hgone⟩
    exact (hmain r h).mpr hgone

def Call.asked : List Call :=
  [.chart ⟨.points (some { url := some "a.json" }), .nil⟩, .require "raw"]

theorem answered_asked : Session.Answered {} Call.asked := by
  intro before name after he
  cases before with
  | nil => cases (List.cons.inj he).1
  | cons chart before =>
    obtain ⟨rfl, hrest⟩ := List.cons.inj he
    cases before with
    | nil =>
      obtain rfl := Call.require.inj (List.cons.inj hrest).1
      decide +kernel
    | cons call before =>
      have hlength := congrArg List.length hrest
      simp at hlength

theorem added_asked : Call.asked.flatMap Call.added =
    [(.points (some { url := some "a.json" }), { url := some "a.json" })] := rfl

theorem required_addressable_sample : ∃ c, (Session.run {} Call.asked).finish.2 = .ok c ∧
    c.source? "main" = none ∧ c.source? "raw" ≠ none := by
  obtain ⟨c, hok, h⟩ := required_addressable answered_asked (by decide +kernel)
  rw [added_asked] at h
  have hraw : Call.require "raw" ∈ Call.asked := List.mem_cons_of_mem _ (List.mem_singleton_self _)
  refine ⟨c, hok, (h "main" (.inl ⟨_, List.mem_singleton_self _, rfl⟩)).mpr
    ⟨_, List.mem_singleton_self _, rfl, hraw, rfl⟩, fun hnone => ?_⟩
  obtain ⟨r, hr, hname, -⟩ := (h "raw" (.inr hraw)).mp hnone
  rw [List.mem_singleton.mp hr] at hname
  exact absurd hname (by decide)

/-- Not all that is required can be addressed. -/
theorem required_not_addressable : ¬ ∀ (o : Options) (calls : List Call), Session.Answered o calls →
    (checkpointNames ((calls.flatMap Call.added).map Prod.fst)).Nodup →
    ∃ c, (Session.run o calls).finish.2 = .ok c ∧ ∀ name,
      ((∃ r ∈ calls.flatMap Call.added, name = r.1.mainName) ∨ Call.require name ∈ calls) →
      (c.source? name).isSome := by
  intro h
  obtain ⟨c, hok, h⟩ := h {} Call.asked answered_asked (by decide +kernel)
  have houtputs : ((Session.run {} Call.asked).finish.2.toOption.map Compiled.outputs) =
      some [("raw", "source_0")] := by decide +kernel
  rw [hok] at houtputs
  have hmain := h "main" (.inl ⟨_, added_asked ▸ List.mem_singleton_self _, rfl⟩)
  rw [Compiled.source?, Option.some.inj houtputs] at hmain
  cases hmain

end ChartPipeline
