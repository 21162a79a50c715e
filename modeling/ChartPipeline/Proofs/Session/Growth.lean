import ChartPipeline.Proofs.Graph.Growth
import ChartPipeline.Proofs.Session.Stages

/-!
# Sessions that grow

A session never takes anything back. What a step leaves alone is told by `Grown`, and each step has
one lemma about that, and one about the trace of what it adds.
-/

namespace ChartPipeline

namespace Session

/-- Each source stands on its own, and has data of the identity that it is known by. -/
structure Sound (s : Session) : Prop where
  wellFormed : s.graph.WellFormed
  attached : s.graph.detached = []
  keys : s.sources.keys.Nodup
  sources : ∀ entry ∈ s.sources, ∃ d : Data, d.identity = entry.1 ∧
    s.graph.Trace entry.2 [⟨entry.2, .source (.ofData d)⟩]

/-- Everything that was there is still there, except that checkpoints of the given names may be
others now. -/
structure Grown (names : List String) (s s' : Session) : Prop where
  sound : s'.Sound
  options : s'.options = s.options
  sources : s.sources ⊆ s'.sources
  traces : ∀ id trace, s.graph.Trace id trace → s'.graph.Trace id trace
  outputs : ∀ name ∉ names, s'.output? name = s.output? name

variable {s s' s'' : Session} {names more : List String} {head : NodeId}

theorem Grown.refl (hs : s.Sound) : Grown [] s s :=
  ⟨hs, rfl, fun _ h => h, fun _ _ h => h, fun _ _ => rfl⟩

theorem Grown.trans (h : Grown names s s') (h' : Grown more s' s'') :
    Grown (names ++ more) s s'' := by
  refine ⟨h'.sound, h'.options.trans h.options, fun _ hm => h'.sources (h.sources hm),
    fun id trace ht => h'.traces id trace (h.traces id trace ht), fun name hn => ?_⟩
  rw [List.mem_append, not_or] at hn
  rw [h'.outputs name hn.2, h.outputs name hn.1]

-- ---------------------------------------------------------------------------
-- Nodes
-- ---------------------------------------------------------------------------

theorem Sound.tell (hs : s.Sound) (e : Event) : Grown [] s (s.tell e) := by
  obtain ⟨hw, hd, hk, hsources⟩ := hs
  exact ⟨⟨hw, hd, hk, hsources⟩, rfl, fun _ h => h, fun _ _ h => h, fun _ _ => rfl⟩

/-- Any step that keeps the graph well-formed, its nodes attached, and their traces. -/
theorem Sound.grown (hs : s.Sound) (hw : s'.graph.WellFormed)
    (hd : s'.graph.detached = s.graph.detached)
    (ht : ∀ id trace, s.graph.Trace id trace → s'.graph.Trace id trace)
    (ho : s'.options = s.options) (hsources : s'.sources = s.sources)
    (houtputs : ∀ name ∉ names, s'.output? name = s.output? name) : Grown names s s' := by
  refine ⟨⟨hw, hd.trans hs.attached, hsources ▸ hs.keys, fun entry he => ?_⟩, ho,
    fun _ h => hsources ▸ h, ht, houtputs⟩
  obtain ⟨d, hd, htrace⟩ := hs.sources entry (hsources ▸ he)
  exact ⟨d, hd, ht _ _ htrace⟩

theorem Sound.add (hs : s.Sound) (parent : Option NodeId) (n : Node) :
    Grown [] s (s.add parent n) := by
  cases parent with
  | none =>
    exact hs.grown (hs.wellFormed.add n) rfl (fun _ _ => Graph.trace_add n) rfl rfl
      fun _ _ => rfl
  | some parent =>
    exact hs.grown (hs.wellFormed.addChild parent n) (Graph.detached_addChild ..)
      (fun _ _ => hs.wellFormed.trace_addChild parent n) rfl rfl fun _ _ => rfl

-- ---------------------------------------------------------------------------
-- Chains
-- ---------------------------------------------------------------------------

structure Continues (names : List String) (s : Session) (head : NodeId) (nodes : List Node)
    (last : Session × NodeId) : Prop where
  grown : Grown names s last.1
  trace : ∀ trace, s.graph.Trace head trace → ∃ added, last.1.graph.Trace last.2 (trace ++ added) ∧
    added.map Vertex.node = nodes.map Node.blurred

variable {first last : Session × NodeId} {nodes others : List Node}

theorem Continues.refl (hs : s.Sound) : Continues [] s head [] (s, head) :=
  ⟨.refl hs, fun trace ht => ⟨[], by rwa [List.append_nil], rfl⟩⟩

theorem Continues.trans (h : Continues names s head nodes first)
    (h' : Continues more first.1 first.2 others last) :
    Continues (names ++ more) s head (nodes ++ others) last := by
  refine ⟨h.grown.trans h'.grown, fun trace ht => ?_⟩
  obtain ⟨added, ht1, hadded⟩ := h.trace trace ht
  obtain ⟨added', ht2, hadded'⟩ := h'.trace _ ht1
  exact ⟨added ++ added', by rwa [List.append_assoc] at ht2, by
    rw [List.map_append, List.map_append, hadded, hadded']⟩

theorem Sound.continues_add (hs : s.Sound) (head : NodeId) (n : Node) :
    Continues [] s head [n] (s.add (some head) n, s.graph.size) :=
  ⟨hs.add (some head) n, fun _ ht => ⟨_, hs.wellFormed.trace_newChild n ht, rfl⟩⟩

theorem Sound.addLinks (hs : s.Sound) (head : NodeId) (links : List Link) :
    Continues [] s head (links.filterMap Link.node?) (s.addLinks head links) := by
  induction links generalizing s head with
  | nil => exact .refl hs
  | cons link links ih =>
    cases link with
    | tell e =>
      have hone : Continues [] s head [] (s.tell e, head) :=
        ⟨hs.tell e, (Continues.refl hs).trace⟩
      exact hone.trans (ih hone.grown.sound head)
    | node n =>
      have hone := hs.continues_add head n
      exact hone.trans (ih hone.grown.sound s.graph.size)

theorem Continues.addLinks (h : Continues names s head nodes first) (links : List Link) :
    Continues names s head (nodes ++ links.filterMap Link.node?)
      (first.1.addLinks first.2 links) := by
  have hnext := h.trans (h.grown.sound.addLinks first.2 links)
  rwa [List.append_nil] at hnext

theorem addCheckpoint_eq (s : Session) (parent : NodeId) (name : String) (required : Bool) :
    ∃ events, s.addCheckpoint parent name required =
      ({ s.add (some parent) (.checkpoint { name, required }) with
          outputs := s.outputs.put name s.graph.size, events }, s.graph.size) := by
  unfold addCheckpoint
  dsimp only
  split <;> exact ⟨_, rfl⟩

theorem Sound.addCheckpoint (hs : s.Sound) (parent : NodeId) (name : String) (required : Bool) :
    Continues [name] s parent [.checkpoint { name, required }]
      (s.addCheckpoint parent name required) := by
  obtain ⟨events, he⟩ := addCheckpoint_eq s parent name required
  have hone := hs.continues_add parent (.checkpoint { name, required })
  rw [he]
  refine ⟨hs.grown hone.grown.sound.wellFormed (Graph.detached_addChild ..) hone.grown.traces rfl rfl
    fun other hn => ?_, hone.trace⟩
  exact OrderedMap.find?_put_of_ne (fun he => hn (List.mem_singleton.mpr he)) _ _

theorem Continues.addCheckpoint (h : Continues names s head nodes first) (name : String)
    (required : Bool) : Continues (names ++ [name]) s head (nodes ++ [.checkpoint { name, required }])
      (first.1.addCheckpoint first.2 name required) :=
  h.trans (h.grown.sound.addCheckpoint first.2 name required)

theorem output?_addCheckpoint (s : Session) (parent : NodeId) (name : String) (required : Bool) :
    (s.addCheckpoint parent name required).1.output? name =
      some (s.addCheckpoint parent name required).2 := by
  obtain ⟨events, he⟩ := addCheckpoint_eq s parent name required
  rw [he]
  exact OrderedMap.find?_put_self ..

-- ---------------------------------------------------------------------------
-- Beginnings
-- ---------------------------------------------------------------------------

theorem Sound.sourceFor (hs : s.Sound) (d : Data) : Grown [] s (s.sourceFor d).1 ∧
    (d.identity, (s.sourceFor d).2) ∈ (s.sourceFor d).1.sources := by
  unfold Session.sourceFor
  split
  · rename_i id hid
    exact ⟨hs.tell _, OrderedMap.mem_of_find? hid⟩
  · rename_i hnone
    have hone := hs.add none (.source (.ofData d))
    have hput := OrderedMap.put_of_find?_eq_none hnone s.graph.size
    refine ⟨⟨⟨hone.sound.wellFormed, hone.sound.attached, OrderedMap.nodup_keys_put _ _ hs.keys, ?_⟩,
      rfl, ?_, hone.traces, hone.outputs⟩, ?_⟩
    · intro entry he
      have he : entry ∈ s.sources.put d.identity s.graph.size := he
      rw [hput] at he
      rcases List.mem_append.mp he with he | he
      · exact hone.sound.sources entry he
      · rw [List.mem_singleton.mp he]
        exact ⟨d, rfl, Graph.trace_new s.graph _⟩
    · intro entry he
      exact (hput ▸ List.mem_append_left _ he : entry ∈ s.sources.put d.identity s.graph.size)
    · exact OrderedMap.mem_of_find? (OrderedMap.find?_put_self ..)

theorem blurred_merge? (n : Node) (c : Coercions) :
    ((n.merge? (.parse c)).getD n).blurred = n.blurred := by
  cases n <;> rfl

theorem exists_coerce_eq (s : Session) (main : NodeId) (c : Coercions) :
    ∃ graph events, s.coerce main c = { s with graph, events } := by
  unfold Session.coerce
  split
  · exact ⟨_, _, rfl⟩
  · split
    · exact ⟨_, _, rfl⟩
    · split <;> exact ⟨_, _, rfl⟩

theorem Sound.coerce (hs : s.Sound) (main : NodeId) (c : Coercions) :
    Grown [] s (s.coerce main c) := by
  unfold Session.coerce
  split
  · exact .refl hs
  · split
    · exact .refl hs
    · split
      · exact hs.add _ _
      · exact hs.grown (hs.wellFormed.update _ _) rfl
          (fun _ _ => Graph.trace_update (blurred_merge? · c) _) rfl rfl fun _ _ => rfl

end Session

end ChartPipeline
