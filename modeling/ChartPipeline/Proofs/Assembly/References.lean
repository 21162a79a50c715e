import ChartPipeline.Proofs.Assembly.Conservation

/-!
# What records refer to

A record is handed on under a name only after it is complete, so a record comes behind the one that
it reads from (`exists_earlier`). A facet gets the name of a complete record too; the name of any
other node may be told before its record is.
-/

namespace ChartPipeline.Assembly

open Forest (Leads)

def Step.cites (facet : NodeId → Bool) : Step → Option String
  | .emit r | .index r => r.source
  | .name id n => if facet id then some n else none
  | _ => none

abbrev recordNames (steps : List Step) : List String := (recordsOf steps).filterMap Record.name

/-- Each step refers to what is known, or to what was completed before it. -/
def Backward (facet : NodeId → Bool) (known : List String) : List Step → Prop
  | [] => True
  | step :: rest =>
    (∀ s ∈ step.cites facet, s ∈ known) ∧ Backward facet (known ++ recordNames [step]) rest

def Grounded (known : List String) (r : Record) : Prop := ∀ s ∈ r.source, s ∈ known

variable {facet : NodeId → Bool} {known more : List String} {above : Node} {v : Vertex}
  {below row : Forest Vertex} {r q : Record} {p : Option Record} {before new steps : List Step}
  {step : Step} {n s : String} {id : NodeId} {t : Tree Vertex} {trees queue : List (Tree Vertex)}

theorem recordNames_append (steps later : List Step) :
    recordNames (steps ++ later) = recordNames steps ++ recordNames later := by
  simp [recordNames]

theorem backward_append (later : List Step) : Backward facet known (steps ++ later) ↔
    Backward facet known steps ∧ Backward facet (known ++ recordNames steps) later := by
  induction steps generalizing known with
  | nil => simp [Backward, recordNames]
  | cons step steps ih =>
    have hnames : recordNames (step :: steps) = recordNames [step] ++ recordNames steps :=
      recordNames_append [step] steps
    rw [List.cons_append, Backward, Backward, ih, hnames, List.append_assoc, and_assoc]

theorem Backward.mem_known (h : Backward facet known steps) (hs : step ∈ steps)
    (hc : step.cites facet = some s) : s ∈ known ++ recordNames steps := by
  obtain ⟨first, last, rfl⟩ := List.append_of_mem hs
  obtain ⟨-, hstep, -⟩ := (backward_append _).mp h
  rw [recordNames_append, ← List.append_assoc]
  exact List.mem_append_left _ (hstep s hc)

theorem backward_of_cites (h : ∀ step ∈ steps, step.cites facet = none) :
    Backward facet known steps := by
  induction steps generalizing known with
  | nil => trivial
  | cons step steps ih =>
    obtain ⟨hstep, h⟩ := List.forall_mem_cons.mp h
    exact ⟨by simp [hstep], ih h⟩

theorem Grounded.mono (h : Grounded known r) (hs : known ⊆ more) : Grounded more r :=
  fun s hr => hs (h s hr)

theorem grounded_ofSource : Grounded known (.ofSource s) ↔ s ∈ known := by
  simp [Grounded, Record.ofSource]

-- ---------------------------------------------------------------------------
-- Records on their way down
-- ---------------------------------------------------------------------------

theorem Completed.backward (facet : NodeId → Bool) (h : Completed r new n) (hr : Grounded known r) :
    Backward facet known new ∧ n ∈ known ++ recordNames new := by
  cases h with
  | refer hs =>
    subst hs
    exact ⟨trivial, by simpa using grounded_ofSource.mp hr⟩
  | emit => exact ⟨⟨hr, trivial⟩, by simp [recordNames]⟩

theorem HandedOver.backward (facet : NodeId → Bool) (h : HandedOver r row new q)
    (hr : Grounded known r) :
    Backward facet known new ∧ Grounded (known ++ recordNames new) q := by
  cases h with
  | dropped => exact ⟨trivial, by simpa [recordNames] using hr⟩
  | leaf => exact ⟨⟨hr, trivial⟩, hr.mono (List.subset_append_left _ _)⟩
  | only => exact ⟨trivial, by simpa [recordNames] using hr⟩
  | fork h =>
    obtain ⟨hb, hn⟩ := h.backward facet hr
    exact ⟨hb, grounded_ofSource.mpr hn⟩

theorem Passed.backward (h : Passed above v below r new p) (hr : Grounded known r)
    (hv : facet v.id = v.node.isFacet) :
    Backward facet known new ∧ ∀ q ∈ p, Grounded (known ++ recordNames new) q := by
  have hstay {q : Record} (hq : q.source = r.source) : Grounded (known ++ recordNames new) q := by
    rw [Grounded, hq]
    exact hr.mono (List.subset_append_left _ _)
  cases h with
  | parse =>
    refine ⟨backward_of_cites fun step hs => ?_, by rintro _ ⟨⟩; exact hstay rfl⟩
    split at hs
    · cases hs
    · rw [List.mem_singleton.mp hs]
      rfl
  | ignored hn =>
    refine ⟨backward_of_cites fun step hs => ?_, by rintro _ ⟨⟩; exact hstay rfl⟩
    obtain ⟨n, -, rfl⟩ := List.mem_map.mp hs
    simp [Step.cites, hv, hn, Node.isFacet]
  | last hn =>
    refine ⟨backward_of_cites fun step hs => ?_, by rintro _ ⟨⟩; exact hstay rfl⟩
    rw [List.mem_singleton.mp hs]
    simp [Step.cites, hv, hn, Node.isFacet]
  | «sealed» hn =>
    refine ⟨⟨hr, backward_of_cites fun step hs => ?_⟩, ?_⟩
    · rcases List.mem_pair.mp hs with rfl | rfl
      · rfl
      · simp [Step.cites, hv, hn, Node.isFacet]
    · rintro _ ⟨⟩
      exact grounded_ofSource.mpr (by simp [recordNames])
  | facet _ h =>
    obtain ⟨hb, hn⟩ := h.backward facet hr
    exact ⟨(backward_append _).mpr ⟨hb, by simp only [Step.cites]; split <;> simp_all, trivial⟩,
      by simp⟩
  | row =>
    refine ⟨backward_of_cites fun step hs => ?_, by rintro _ ⟨⟩; exact hstay rfl⟩
    obtain ⟨e, -, rfl⟩ := List.mem_map.mp hs
    rfl

theorem Walked.backward (h : Walked above r row new) (hr : Grounded known r)
    (hf : ∀ v ∈ row.toList, facet v.id = v.node.isFacet) : Backward facet known new := by
  induction h generalizing known with
  | nil => trivial
  | stop h _ ih =>
    simp only [Forest.toList, List.forall_mem_cons, List.forall_mem_append] at hf
    exact (backward_append _).mpr ⟨(h.backward hr hf.1).1,
      ih (hr.mono (List.subset_append_left _ _)) hf.2.2⟩
  | through h hh _ _ ihb ihr =>
    simp only [Forest.toList, List.forall_mem_cons, List.forall_mem_append] at hf
    obtain ⟨hfirst, hp⟩ := h.backward hr hf.1
    obtain ⟨hsecond, hq⟩ := hh.backward facet (hp _ rfl)
    refine (backward_append _).mpr ⟨(backward_append _).mpr ⟨(backward_append _).mpr
      ⟨hfirst, hsecond⟩, ihb ?_ hf.2.1⟩, ihr (hr.mono (List.subset_append_left _ _)) hf.2.2⟩
    rwa [recordNames_append, ← List.append_assoc]

-- ---------------------------------------------------------------------------
-- Whole assemblies
-- ---------------------------------------------------------------------------

theorem Started.backward (h : Started t new) (hf : ∀ v ∈ t.toList, facet v.id = v.node.isFacet) :
    Backward facet known new := by
  obtain ⟨hroot, hf⟩ := List.forall_mem_cons.mp hf
  cases h with
  | stray => exact ⟨by simp [Step.cites], trivial⟩
  | @source s n first q last told hs hh hw =>
    have hseed : Grounded known (seedRecord s n t.below) := by
      have hnone : (seedRecord s n t.below).source = none := by
        unfold seedRecord Record.withCoercions
        split <;> rfl
      simp [Grounded, hnone]
    have hname : Backward facet known (.name t.label.id n :: told.map .tell) := by
      refine backward_of_cites (List.forall_mem_cons.mpr ⟨?_, fun step hm => ?_⟩)
      · simp [Step.cites, hroot, hs, Node.isFacet]
      · obtain ⟨e, -, rfl⟩ := List.mem_map.mp hm
        rfl
    obtain ⟨hfirst, hq⟩ := hh.backward facet (hseed.mono (List.subset_append_left _ _))
    refine (backward_append _).mpr ⟨(backward_append _).mpr ⟨hname, hfirst⟩, hw.backward ?_ hf⟩
    rwa [recordNames_append, ← List.append_assoc]

theorem Opened.backward (h : Opened before t new) (hb : Backward facet [] before)
    (hf : ∀ v ∈ t.toList, facet v.id = v.node.isFacet) :
    Backward facet [] (before ++ new) := by
  obtain ⟨hroot, hf⟩ := List.forall_mem_cons.mp hf
  refine (backward_append _).mpr ⟨hb, ?_⟩
  cases h with
  | @facet s n last hs hn hw =>
    have hknown : n ∈ [] ++ recordNames before :=
      hb.mem_known (mem_of_nameOf? hn) (by simp [Step.cites, hroot, hs, Node.isFacet])
    have hindex (records : List Record) (hr : ∀ r ∈ records, r.source = some n)
        {known : List String} (hk : n ∈ known) : Backward facet known (records.map .index) := by
      induction records generalizing known with
      | nil => trivial
      | cons r records ih =>
        obtain ⟨hr, hlater⟩ := List.forall_mem_cons.mp hr
        exact ⟨by simpa [Step.cites, hr] using hk, ih hlater (List.mem_append_left _ hk)⟩
    refine (backward_append _).mpr ⟨hindex _ (fun r hr => ?_) hknown,
      hw.backward (grounded_ofSource.mpr (List.mem_append_left _ hknown)) hf⟩
    simp only [FacetSplit.records, List.mem_append, Option.mem_toList, Option.map_eq_some_iff] at hr
    obtain ⟨_, -, rfl⟩ | ⟨_, -, rfl⟩ := hr <;> rfl
  | skipped => trivial

theorem Continued.backward (h : Continued before queue new) (hb : Backward facet [] before)
    (hf : ∀ t ∈ queue, ∀ v ∈ t.toList, facet v.id = v.node.isFacet) :
    Backward facet [] (before ++ new) := by
  induction h with
  | nil => simpa using hb
  | cons h _ ih =>
    obtain ⟨hfirst, hf⟩ := List.forall_mem_cons.mp hf
    rw [← List.append_assoc]
    exact ih (h.backward hb hfirst) hf

theorem backward_of_started {parts : List (List Step)} (h : List.Forall₂ Started trees parts)
    (hf : ∀ t ∈ trees, ∀ v ∈ t.toList, facet v.id = v.node.isFacet) :
    Backward facet known parts.flatten := by
  induction h generalizing known with
  | nil => trivial
  | cons h _ ih =>
    obtain ⟨hfirst, hf⟩ := List.forall_mem_cons.mp hf
    exact (backward_append _).mpr ⟨h.backward hfirst, ih hf⟩

theorem backward_stepsOf (hf : ∀ t ∈ trees, ∀ v ∈ t.toList, facet v.id = v.node.isFacet) :
    Backward facet [] (stepsOf trees) := by
  obtain ⟨parts, last, hs, hp, hc⟩ := exists_of_run trees
  rw [stepsOf, hs]
  refine hc.backward (backward_of_started hp hf) fun u hu v hv => ?_
  obtain ⟨t, ht, -, path, hl⟩ := mem_facets.mp hu
  exact hf t ht v (List.mem_cons_of_mem _ (hl.sublist.subset hv))

theorem exists_earlier {g : Graph} {roots : List NodeId} {records earlier later : List Record}
    (hg : g.WellFormed) (hok : (g.assemble roots).records = .ok records)
    (hr : records = earlier ++ r :: later) (hs : r.source = some s) :
    ∃ p ∈ earlier, p.name = some s := by
  rw [Graph.assemble_eq] at hok
  obtain ⟨-, rfl⟩ := records_eq_ok.mp hok
  -- the steps before the one that completes the record
  obtain ⟨first, rest, hsteps, rfl, hrest⟩ := List.filterMap_eq_append_iff.mp hr
  obtain ⟨idle, step, last, rfl, hidle, hstep, -⟩ := List.filterMap_eq_cons_iff.mp hrest
  have hfacets : ∀ t ∈ g.treesAt roots, ∀ v ∈ t.toList, g.isFacetAt v.id = v.node.isFacet := by
    intro t ht v hv
    obtain ⟨root, -, ht⟩ := List.mem_filterMap.mp ht
    obtain ⟨-, path, hl⟩ := Graph.leads_of_tree? ht
    obtain ⟨way, u, hu, rfl⟩ := Forest.exists_leads_of_mem (hl.sublist.subset hv)
    simp [Graph.isFacetAt, hg.node?_eq hu]
  have hb := backward_stepsOf hfacets
  rw [← Graph.stepsOf, hsteps, ← List.append_assoc, backward_append] at hb
  have hcites : step.cites g.isFacetAt = some s := by
    cases step with
    | emit => cases hstep; exact hs
    | index => cases hstep; exact hs
    | _ => simp at hstep
  have hmem := hb.2.1 s hcites
  have hnone : recordsOf idle = [] := List.filterMap_eq_nil_iff.mpr hidle
  rw [recordNames_append, recordNames, recordNames, hnone] at hmem
  rw [List.nil_append, List.filterMap_nil, List.append_nil] at hmem
  exact List.mem_filterMap.mp hmem

end ChartPipeline.Assembly
