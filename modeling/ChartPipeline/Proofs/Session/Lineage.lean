import ChartPipeline.Proofs.Session.Growth

/-!
# What the models of a chart build

The chain of a model starts from the source of its data, or goes on from the chain of the model
around it. So the trace of a main checkpoint runs through the chains of all models from the owner
of the data down (`Sound.addModels`).
-/

namespace ChartPipeline

/-- The models of a path from the nearest one with data of its own down, and that data. -/
inductive Lineage : List Model → Data → List Model → Prop
  | own (above : List Model) : m.data = some d → Lineage (above ++ [m]) d [m]
  | inherited : Lineage above d line → m.data = none → Lineage (above ++ [m]) d (line ++ [m])

/-- The models that build a chain, where the row stands below one that does or not. -/
def Forest.chained (inherits : Bool) : Forest Model → List Model
  | .nil => []
  | .cons m below rest =>
    let inside := inherits || m.data.isSome
    (if inside then [m] else []) ++ (below.chained inside ++ rest.chained inherits)

theorem lineage_concat : Lineage (path ++ [m]) d line ↔ (m.data = some d ∧ line = [m]) ∨
    m.data = none ∧ ∃ above, Lineage path d above ∧ line = above ++ [m] := by
  constructor
  · generalize hwhole : path ++ [m] = whole
    rintro (⟨above, hd⟩ | ⟨h, hd⟩)
    · obtain ⟨rfl, rfl⟩ := List.append_inj' hwhole rfl |>.imp_right List.singleton_inj.mp
      exact .inl ⟨hd, rfl⟩
    · obtain ⟨rfl, rfl⟩ := List.append_inj' hwhole rfl |>.imp_right List.singleton_inj.mp
      exact .inr ⟨hd, _, h, rfl⟩
  · rintro (⟨hd, rfl⟩ | ⟨hd, above, h, rfl⟩)
    · exact .own path hd
    · exact .inherited h hd

theorem Lineage.getLast? (h : Lineage path d line) : line.getLast? = path.getLast? := by
  cases h <;> simp

namespace Session

open Forest (Leads)

-- ---------------------------------------------------------------------------
-- One chain
-- ---------------------------------------------------------------------------

/-- The rows at a node come from a source of the data, through the chains of the models. -/
def Reads (s : Session) (o : Options) (id : NodeId) (d : Data) (line : List Model) : Prop :=
  ∃ root d' added, (d.identity, root) ∈ s.sources ∧ d'.identity = d.identity ∧
    s.graph.Trace id (⟨root, .source (.ofData d')⟩ :: added) ∧ added.map Vertex.node =
      (Node.parse [] :: line.flatMap (Model.chainNodes o)).map Node.blurred

def Context (s : Session) (o : Options) (path : List Model) : Option NodeId → Prop
  | none => ∀ m ∈ path, m.data = none
  | some main => ∃ d line, Lineage path d line ∧ s.Reads o main d line

variable {s s' : Session} {o : Options} {names : List String} {path outer : List Model}
  {above : Option NodeId} {m : Model} {id root head : NodeId} {d : Data} {line : List Model}
  {last : Session × NodeId}

theorem Reads.grown (h : s.Reads o id d line) (hg : Grown names s s') : s'.Reads o id d line := by
  obtain ⟨root, d', added, hroot, hd, ht, hadded⟩ := h
  exact ⟨root, d', added, hg.sources hroot, hd, hg.traces _ _ ht, hadded⟩

theorem Context.grown (h : s.Context o path above) (hg : Grown names s s') :
    s'.Context o path above := by
  cases above with
  | none => exact h
  | some main =>
    obtain ⟨d, line, hl, hr⟩ := h
    exact ⟨d, line, hl, hr.grown hg⟩

theorem Sound.begin (hs : s.Sound) (hc : s.Context o path above)
    (h : s.begin m above = some (s', root, head)) : Grown [] s s' ∧
      ∃ d line, Lineage (path ++ [m]) d (line ++ [m]) ∧ s'.Reads o head d line := by
  unfold Session.begin at h
  split at h
  · rename_i data hdata
    obtain ⟨hgrown, hsource⟩ := hs.sourceFor data
    obtain ⟨d', hd', ht⟩ := hgrown.sound.sources _ hsource
    have hparse := hgrown.sound.continues_add (s.sourceFor data).2 (.parse (.ofModel m))
    obtain ⟨added, ht, hadded⟩ := hparse.trace _ ht
    cases h
    exact ⟨hgrown.trans hparse.grown, data, [], .own path hdata, _, d', added,
      hparse.grown.sources hsource, hd', ht, hadded⟩
  · rename_i main hdata
    obtain ⟨d, line, hl, hr⟩ := hc
    have hgrown := hs.coerce main (.ofModel m)
    cases h
    exact ⟨hgrown, d, line, .inherited hl hdata, hr.grown hgrown⟩
  · cases h

theorem isSome_begin (s : Session) (m : Model) (above : Option NodeId) :
    (s.begin m above).isSome = (above.isSome || m.data.isSome) := by
  unfold Session.begin
  split
  · rename_i hdata
    simp [hdata]
  · rfl
  · rename_i hdata
    simp [hdata]

theorem Sound.addChain (hs : s.Sound) (m : Model) (root head : NodeId) :
    Continues [m.rawName, m.mainName] s head (m.chainNodes s.options)
      ((s.addChain m root head).1, (s.addChain m root head).2.main) := by
  have hchain := (((hs.addLinks head (m.rawLinks s.options)).addCheckpoint m.rawName false).addLinks
    (m.mainNodes.map .node)).addCheckpoint m.mainName true
  have hmain : (m.mainNodes.map Link.node).filterMap Link.node? = m.mainNodes := by
    simp [Link.node?, Function.comp_def]
  simp only [hmain, List.append_assoc] at hchain
  exact hchain

theorem Reads.continues (h : s.Reads s.options head d line)
    (hc : Continues names s head (m.chainNodes s.options) last) :
    last.1.Reads s.options last.2 d (line ++ [m]) := by
  obtain ⟨root, d', added, hroot, hd, ht, hadded⟩ := h
  obtain ⟨added', ht', hadded'⟩ := hc.trace _ ht
  refine ⟨root, d', added ++ added', hc.grown.sources hroot, hd, ht', ?_⟩
  rw [List.map_append, hadded, hadded', List.flatMap_append]
  simp

theorem output?_addChain (s : Session) (m : Model) (root head : NodeId) :
    (s.addChain m root head).1.output? m.mainName = some (s.addChain m root head).2.main :=
  output?_addCheckpoint ..

def checkpointNames (models : List Model) : List String :=
  models.flatMap fun m => [m.rawName, m.mainName]

theorem checkpointNames_append (first last : List Model) :
    checkpointNames (first ++ last) = checkpointNames first ++ checkpointNames last :=
  List.flatMap_append

theorem Sound.addModel (hs : s.Sound) (ho : s.options = o) (hc : s.Context o path above)
    (h : s.addModel m above = .ok (s', chain)) :
    Grown (checkpointNames (if above.isSome || m.data.isSome then [m] else [])) s s' ∧
      s'.Context o (path ++ [m]) (chain.map Chain.main) ∧
      chain.isSome = (above.isSome || m.data.isSome) ∧ (chain = none → m.kind = .layer) ∧
      ∀ c ∈ chain, s'.output? m.mainName = some c.main := by
  unfold Session.addModel at h
  split at h
  · cases h
  split at h
  · rename_i begun root head hbegin
    obtain ⟨hgrown, d, line, hline, hreads⟩ := hs.begin hc hbegin
    have hchain := hgrown.sound.addChain m root head
    have hinside : (above.isSome || m.data.isSome) = true := by
      rw [← isSome_begin s, hbegin]
      rfl
    obtain rfl : begun.options = o := hgrown.options.trans ho
    cases h
    refine ⟨?_, ⟨d, _, hline, hreads.continues hchain⟩, hinside.symm, by simp, ?_⟩
    · rw [if_pos hinside]
      exact hgrown.trans hchain.grown
    · rintro c ⟨⟩
      exact output?_addChain ..
  · rename_i hbegin hkind
    have hinside : (above.isSome || m.data.isSome) = false := by
      rw [← isSome_begin s, hbegin]
      rfl
    obtain ⟨habove, hdata⟩ := Bool.or_eq_false_iff.mp hinside
    obtain rfl : above = none := by simpa using habove
    cases h
    refine ⟨?_, ?_, hinside.symm, fun _ => hkind, by simp⟩
    · rw [hinside]
      exact .refl hs
    · intro m' hm'
      rcases List.mem_append.mp hm' with hm' | hm'
      · exact hc m' hm'
      · rw [List.mem_singleton.mp hm']
        simpa using hdata
  · cases h

-- ---------------------------------------------------------------------------
-- All models
-- ---------------------------------------------------------------------------

theorem rawName_ne_mainName (m other : Model) : m.rawName ≠ other.mainName := by
  have hend (owner text : String) (h : text.toList ≠ []) :
      (joinName owner text).toList.getLast? = text.toList.getLast? := by
    unfold joinName
    split
    · rfl
    · rw [String.toList_append, List.getLast?_append_of_ne_nil _ h]
  intro he
  have hlast := congrArg (fun name => name.toList.getLast?) he
  simp only [Model.rawName, Model.mainName, Model.nameOf] at hlast
  rw [hend _ _ (by decide), hend _ _ (by decide)] at hlast
  exact absurd hlast (by decide)

theorem notMem_checkpointNames {models : List Model} (h : m.mainName ∉ models.map Model.mainName) :
    m.mainName ∉ checkpointNames models := by
  intro hm
  obtain ⟨other, hother, hm⟩ := List.mem_flatMap.mp hm
  rcases List.mem_cons.mp hm with he | hm
  · exact rawName_ne_mainName other m he.symm
  · exact h (List.mem_singleton.mp hm ▸ List.mem_map_of_mem hother)

def Built (s : Session) (o : Options) (path : List Model) (m : Model) : Prop :=
  ∃ d line main, Lineage path d line ∧ s.output? m.mainName = some main ∧ s.Reads o main d line

theorem Built.grown (h : s.Built o path m) (hg : Grown names s s') (hn : m.mainName ∉ names) :
    s'.Built o path m := by
  obtain ⟨d, line, main, hl, hmain, hr⟩ := h
  exact ⟨d, line, main, hl, (hg.outputs _ hn).trans hmain, hr.grown hg⟩

theorem addModels_cons_ok {below rest : Forest Model}
    (h : addModels above (.cons m below rest) s = .ok s') : ∃ s1 chain s2,
      s.addModel m above = .ok (s1, chain) ∧
      addModels (chain.map Chain.main) below s1 = .ok s2 ∧ addModels above rest s2 = .ok s' := by
  rw [addModels] at h
  cases h1 : s.addModel m above with
  | error => simp [h1, bind, Except.bind] at h
  | ok one =>
    obtain ⟨s1, chain⟩ := one
    cases h2 : addModels (chain.map Chain.main) below s1 with
    | error => simp [h1, h2, bind, Except.bind] at h
    | ok s2 =>
      simp only [h1, h2, bind, Except.bind] at h
      exact ⟨s1, chain, s2, rfl, h2, h⟩

theorem Sound.addModels {f : Forest Model} (hs : s.Sound) (ho : s.options = o)
    (hc : s.Context o outer above) (h : Session.addModels above f s = .ok s') :
    Grown (checkpointNames (f.chained above.isSome)) s s' ∧
      (((f.chained above.isSome).map Model.mainName).Nodup → ∀ path t, f.Leads path t →
        (t.label.kind = .layer ∧ ∀ m ∈ outer ++ path, m.data = none) ∨
          t.label ∈ f.chained above.isSome ∧ s'.Built o (outer ++ path) t.label) := by
  induction f generalizing s above outer s' with
  | nil =>
    cases h
    exact ⟨.refl hs, fun _ _ _ hl => nomatch hl⟩
  | cons m below rest ihb ihr =>
    obtain ⟨s1, chain, s2, h1, h2, h3⟩ := addModels_cons_ok h
    obtain ⟨hg1, hc1, hsome, hlayer, hmain⟩ := hs.addModel ho hc h1
    obtain ⟨hg2, hbelow⟩ := ihb hg1.sound (hg1.options.trans ho) hc1 h2
    have hg12 := hg1.trans hg2
    obtain ⟨hg3, hrest⟩ := ihr hg2.sound (hg12.options.trans ho) (hc.grown hg12) h3
    rw [Option.isSome_map, hsome] at hg2 hbelow
    rw [Forest.chained]
    have hg23 := hg2.trans hg3
    rw [← checkpointNames_append] at hg23
    refine ⟨by rw [checkpointNames_append]; exact hg1.trans hg23, fun hn path t hl => ?_⟩
    rw [List.map_append, List.map_append, List.nodup_append, List.nodup_append] at hn
    obtain ⟨-, ⟨hinner, hafter, hapart⟩, hfirst⟩ := hn
    cases hl with
    | here =>
      cases chain with
      | none => exact .inl ⟨hlayer rfl, hc1⟩
      | some chain =>
        obtain ⟨d, line, hline, hreads⟩ := hc1
        have hbuilt : s1.Built o (outer ++ [m]) m := ⟨d, line, _, hline, hmain _ rfl, hreads⟩
        have hmem : m ∈ if above.isSome || m.data.isSome then [m] else [] := by simp [← hsome]
        refine .inr ⟨List.mem_append_left _ hmem, hbuilt.grown hg23 ?_⟩
        refine notMem_checkpointNames fun hname => ?_
        rw [List.map_append] at hname
        exact hfirst _ (List.mem_map_of_mem hmem) _ hname rfl
    | down hl =>
      rcases hbelow hinner _ _ hl with hlayer | ⟨hmem, hbuilt⟩
      · exact .inl (by simpa using hlayer)
      · rw [List.append_assoc] at hbuilt
        refine .inr ⟨List.mem_append_right _ (List.mem_append_left _ hmem), hbuilt.grown hg3 ?_⟩
        exact notMem_checkpointNames fun hname => hapart _ (List.mem_map_of_mem hmem) _ hname rfl
    | along hl =>
      refine (hrest hafter _ _ hl).imp_right fun ⟨hmem, hbuilt⟩ => ⟨?_, hbuilt⟩
      exact List.mem_append_right _ (List.mem_append_right _ hmem)

/-- Whatever the models are called, the chain of each of them reads the data of its lineage. -/
theorem Sound.exists_reads {f : Forest Model} {t : Tree Model} (hs : s.Sound) (ho : s.options = o)
    (hc : s.Context o outer above) (h : Session.addModels above f s = .ok s')
    (hl : f.Leads path t) (hkind : t.label.kind ≠ .layer) :
    ∃ d line main, Lineage (outer ++ path) d line ∧ s'.Reads o main d line := by
  induction f generalizing s above outer s' path with
  | nil => cases hl
  | cons m below rest ihb ihr =>
    obtain ⟨s1, chain, s2, h1, h2, h3⟩ := addModels_cons_ok h
    obtain ⟨hg1, hc1, -, hlayer, -⟩ := hs.addModel ho hc h1
    have ho1 := hg1.options.trans ho
    have hg2 := (hg1.sound.addModels ho1 hc1 h2).1
    have hg12 := hg1.trans hg2
    have hc2 := hc.grown hg12
    have hg3 := (hg2.sound.addModels (hg12.options.trans ho) hc2 h3).1
    cases hl with
    | here =>
      cases chain with
      | none => exact absurd (hlayer rfl) hkind
      | some chain =>
        obtain ⟨d, line, hline, hreads⟩ := hc1
        exact ⟨d, line, _, hline, hreads.grown (hg2.trans hg3)⟩
    | down hl =>
      obtain ⟨d, line, main, hline, hreads⟩ := ihb hg1.sound ho1 hc1 h2 hl
      rw [List.append_assoc] at hline
      exact ⟨d, line, main, hline, hreads.grown hg3⟩
    | along hl => exact ihr hg2.sound (hg12.options.trans ho) hc2 h3 hl

end Session

end ChartPipeline
