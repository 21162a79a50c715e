import ChartPipeline.Proofs.Assembly.Meaning

/-!
# When an assembly succeeds

An assembly of parentless roots succeeds if they are sources and every parse node below them stands
directly below a source, however many facets lie between (`Graph.assemble_ok_iff`). Otherwise the
error names a root that is no source, or a parse node that stands somewhere else.
-/

namespace ChartPipeline

open Assembly

namespace Assembly

variable {t : Tree Vertex} {trees : List (Tree Vertex)} {steps : List Step} {parts : List (List Step)}
  {new more : List Step} {g : Graph} {cause : CompileError}

theorem records_eq_error :
    (outcome g steps).records = .error cause ↔ (causesOf steps).head? = some cause := by
  simp only [outcome, findSome?_cause?]
  cases (causesOf steps).head? <;> simp

theorem Started.exists_cause (h : Started t new) (hc : cause ∈ causesOf new) :
    (t.label.node.isSource = false ∧ cause = .invalidSpec (.rootIsNoSource t.label.id)) ∨
      FailsIn t.label.node t.below cause := by
  cases hs : t.label.node.isSource with
  | true => exact .inr ((h.mem_causes hs).mp hc)
  | false =>
    cases h with
    | source hn => simp [hn, Node.isSource] at hs
    | stray => exact .inl ⟨rfl, by simpa using hc⟩

theorem Started.mem_causes_of_stray (h : Started t new) (hs : t.label.node.isSource = false) :
    .invalidSpec (.rootIsNoSource t.label.id) ∈ causesOf new := by
  cases h with
  | source hn => simp [hn, Node.isSource] at hs
  | stray => simp

theorem exists_cause_of_started (h : List.Forall₂ Started trees parts)
    (hc : cause ∈ causesOf parts.flatten) : ∃ t ∈ trees,
      (t.label.node.isSource = false ∧ cause = .invalidSpec (.rootIsNoSource t.label.id)) ∨
        FailsIn t.label.node t.below cause := by
  induction h with
  | nil => simp at hc
  | @cons t part trees parts h _ ih =>
    rw [List.flatten_cons, mem_causesOf_append] at hc
    rcases hc with hc | hc
    · exact ⟨t, List.mem_cons_self .., h.exists_cause hc⟩
    · obtain ⟨u, hu, hcase⟩ := ih hc
      exact ⟨u, List.mem_cons_of_mem _ hu, hcase⟩

theorem mem_causes_of_stray (h : List.Forall₂ Started trees parts) (ht : t ∈ trees)
    (hs : t.label.node.isSource = false) :
    .invalidSpec (.rootIsNoSource t.label.id) ∈ causesOf parts.flatten := by
  induction h with
  | nil => cases ht
  | cons h _ ih =>
    rw [List.flatten_cons, mem_causesOf_append]
    rcases List.mem_cons.mp ht with rfl | ht
    · exact .inl (h.mem_causes_of_stray hs)
    · exact .inr (ih ht)

/-- If a root is no source, the assembly does not come to the facets that follow the roots. -/
theorem exists_first_cause (ht : t ∈ trees) (hs : t.label.node.isSource = false) :
    ∃ cause, (causesOf (stepsOf trees)).head? = some cause ∧ ∃ u ∈ trees,
      (u.label.node.isSource = false ∧ cause = .invalidSpec (.rootIsNoSource u.label.id)) ∨
        FailsIn u.label.node u.below cause := by
  obtain ⟨parts, last, hsteps, hp, -⟩ := exists_of_run trees
  have hmem := mem_causes_of_stray hp ht hs
  obtain ⟨cause, rest, hcauses⟩ := List.exists_cons_of_ne_nil (List.ne_nil_of_mem hmem)
  refine ⟨cause, ?_, exists_cause_of_started hp (hcauses ▸ List.mem_cons_self)⟩
  have happend : causesOf (stepsOf trees) = causesOf parts.flatten ++ causesOf last := by
    rw [stepsOf, hsteps, causesOf, collect_append]
  rw [happend, hcauses]
  rfl

end Assembly

namespace Graph

/-- A parse node stands directly below a source. All other nodes may stand anywhere. -/
def IsPlaced (g : Graph) (id : NodeId) : Prop :=
  (g.node? id).any Node.isParse = true → ((g.parent? id).bind g.node?).any Node.isSource = true

instance (g : Graph) (id : NodeId) : Decidable (g.IsPlaced id) :=
  inferInstanceAs (Decidable (_ → _))

structure ParentlessRoots (g : Graph) (roots : List NodeId) : Prop where
  nodup : roots.Nodup
  lt_size : ∀ root ∈ roots, root < g.size
  parentless : ∀ root ∈ roots, g.parent? root = none

inductive Faulty (g : Graph) (roots : List NodeId) : CompileError → Prop
  | root : root ∈ roots → (g.node? root).any Node.isSource = false →
      Faulty g roots (.invalidSpec (.rootIsNoSource root))
  | parse {id : NodeId} : root ∈ roots → id ∈ g.descendants root → ¬ g.IsPlaced id →
      Faulty g roots (.misplacedParse id)

variable {g : Graph} {roots : List NodeId} {root id : NodeId} {t u : Tree Vertex}
  {path : List Vertex} {cause : CompileError} {records : List Record}

theorem ParentlessRoots.leads (h : g.ParentlessRoots roots) (hg : g.WellFormed) (hr : root ∈ roots) :
    ∃ t ∈ g.treesAt roots, g.forest.Leads [t.label] t ∧ t.label.id = root := by
  obtain ⟨path, t, ht, rfl⟩ := hg.exists_leads (h.lt_size _ hr)
  have htree := hg.tree?_eq ht
  exact ⟨t, List.mem_filterMap.mpr ⟨_, hr, htree⟩,
    hg.leads_of_parentless htree (h.parentless _ hr), rfl⟩

theorem ParentlessRoots.of_mem_treesAt (h : g.ParentlessRoots roots) (hg : g.WellFormed)
    (ht : t ∈ g.treesAt roots) : t.label.id ∈ roots ∧ g.forest.Leads [t.label] t := by
  obtain ⟨root, hr, htree⟩ := List.mem_filterMap.mp ht
  obtain ⟨rfl, -⟩ := leads_of_tree? htree
  exact ⟨hr, hg.leads_of_parentless htree (h.parentless _ hr)⟩

theorem WellFormed.isPlaced_iff (hg : g.WellFormed) (ht : g.forest.Leads [t.label] t)
    (hu : t.below.Leads path u) :
    g.IsPlaced u.label.id ↔ ¬ Misplaced (nodeAbove t.label.node path) u.label.node := by
  have hpos := ht.append hu
  rw [IsPlaced, hg.node?_eq hpos, hg.node?_parent? hpos, List.singleton_append,
    dropLast_getLast?_cons _ hu.ne_nil, Option.any_some, Option.any_some, Misplaced]
  simp

theorem WellFormed.exists_misplaced_iff (hg : g.WellFormed) (ht : g.forest.Leads [t.label] t)
    (hs : t.label.node.isSource = true) :
    (∃ path u, t.below.Leads path u ∧ Misplaced (nodeAbove t.label.node path) u.label.node ∧
      cause = .misplacedParse u.label.id) ↔
    ∃ id ∈ g.descendants t.label.id, ¬ g.IsPlaced id ∧ cause = .misplacedParse id := by
  constructor
  · rintro ⟨path, u, hu, hm, rfl⟩
    refine ⟨_, mem_descendants.mpr ⟨t, hg.tree?_eq ht, .inr ⟨path, u, hu, rfl⟩⟩, ?_, rfl⟩
    rw [hg.isPlaced_iff ht hu]
    exact not_not_intro hm
  · rintro ⟨id, hid, hp, rfl⟩
    obtain ⟨t', ht', rfl | ⟨path, u, hu, rfl⟩⟩ := mem_descendants.mp hid
    · -- the source itself is no parse node
      refine absurd (fun hparse => ?_) hp
      obtain ⟨s, hs⟩ := exists_source hs
      simp [hg.node?_eq ht, hs, Node.isParse] at hparse
    · obtain rfl := Option.some.inj ((hg.tree?_eq ht).symm.trans ht')
      exact ⟨path, u, hu, not_not.mp ((hg.isPlaced_iff ht hu).not.mp hp), rfl⟩

theorem ParentlessRoots.faulty_of_failsIn (h : g.ParentlessRoots roots) (hg : g.WellFormed)
    (ht : t ∈ g.treesAt roots) (hf : FailsIn t.label.node t.below cause) : g.Faulty roots cause := by
  obtain ⟨hr, hl⟩ := h.of_mem_treesAt hg ht
  obtain ⟨path, u, hu, -, hm, rfl⟩ := hf
  have hid := mem_descendants.mpr ⟨t, hg.tree?_eq hl, .inr ⟨path, u, hu, rfl⟩⟩
  exact .parse hr hid ((hg.isPlaced_iff hl hu).not.mpr (not_not_intro hm))

/-- A root that is no source is found before anything below a facet is. -/
theorem ParentlessRoots.exists_error (h : g.ParentlessRoots roots) (hg : g.WellFormed)
    (hr : root ∈ roots) (hs : (g.node? root).any Node.isSource = false) :
    ∃ cause, (g.assemble roots).records = .error cause ∧ g.Faulty roots cause := by
  obtain ⟨t, ht, hl, rfl⟩ := h.leads hg hr
  have hstray : t.label.node.isSource = false := by rwa [hg.node?_eq hl, Option.any_some] at hs
  obtain ⟨cause, hfirst, u, hu, hcase⟩ := exists_first_cause ht hstray
  refine ⟨cause, records_eq_error.mpr hfirst, ?_⟩
  rcases hcase with ⟨hstray', rfl⟩ | hf
  · obtain ⟨hr', hl'⟩ := h.of_mem_treesAt hg hu
    refine .root hr' ?_
    rwa [hg.node?_eq hl', Option.any_some]
  · exact h.faulty_of_failsIn hg hu hf

theorem ParentlessRoots.faulty_of_error (h : g.ParentlessRoots roots) (hg : g.WellFormed)
    (he : (g.assemble roots).records = .error cause) : g.Faulty roots cause := by
  by_cases hall : ∀ root ∈ roots, (g.node? root).any Node.isSource = true
  · have hp := (⟨h.nodup, hall, h.parentless⟩ : g.SourceRoots roots).planted hg
    have hmem := List.mem_of_head? (records_eq_error.mp he)
    obtain ⟨t, ht, hmis⟩ := hp.mem_causes.mp hmem
    obtain ⟨hr, hl⟩ := h.of_mem_treesAt hg ht
    obtain ⟨id, hid, hplaced, rfl⟩ := (hg.exists_misplaced_iff hl (hp.sources t ht)).mp hmis
    exact .parse hr hid hplaced
  · push Not at hall
    obtain ⟨root, hr, hs⟩ := hall
    obtain ⟨cause', he', hf⟩ := h.exists_error hg hr (Bool.eq_false_iff.mpr hs)
    obtain rfl := Except.error.inj (he.symm.trans he')
    exact hf

theorem ParentlessRoots.not_faulty_of_ok (h : g.ParentlessRoots roots) (hg : g.WellFormed)
    (hok : (g.assemble roots).records = .ok records) : ¬ g.Faulty roots cause := by
  have hall (root : NodeId) (hr : root ∈ roots) : (g.node? root).any Node.isSource = true := by
    refine Bool.not_eq_false _ |>.mp fun hs => ?_
    obtain ⟨cause, he, -⟩ := h.exists_error hg hr hs
    cases hok.symm.trans he
  rintro (⟨hr, hs⟩ | ⟨hr, hid, hplaced⟩)
  · rw [hall _ hr] at hs
    cases hs
  · have hp := (⟨h.nodup, hall, h.parentless⟩ : g.SourceRoots roots).planted hg
    obtain ⟨t, ht, hl, rfl⟩ := h.leads hg hr
    have hmis := (hg.exists_misplaced_iff hl (hp.sources t ht)).mpr ⟨_, hid, hplaced, rfl⟩
    have hmem := hp.mem_causes.mpr ⟨t, ht, hmis⟩
    rw [Graph.assemble_eq] at hok
    rw [(records_eq_ok.mp hok).1] at hmem
    cases hmem

/-- Whatever was built: an assembly of different parentless nodes succeeds if and only if each of
them is a source and every parse node below them stands directly below a source. Otherwise the error
names one of the roots that is no source, or one of the parse nodes that stand wrong. -/
theorem assemble_ok_iff (hg : g.Reachable) (h : g.ParentlessRoots roots) :
    ((∃ records, (g.assemble roots).records = .ok records) ↔
      (∀ root ∈ roots, (g.node? root).any Node.isSource = true) ∧
        ∀ root ∈ roots, ∀ id ∈ g.descendants root, g.IsPlaced id) ∧
    ∀ cause, (g.assemble roots).records = .error cause → g.Faulty roots cause := by
  have hw := hg.wellFormed
  refine ⟨⟨fun ⟨records, hok⟩ => ⟨fun root hr => ?_, fun root hr id hid => ?_⟩, ?_⟩,
    fun cause he => h.faulty_of_error hw he⟩
  · refine Bool.not_eq_false _ |>.mp fun hs => h.not_faulty_of_ok hw hok (.root hr hs)
  · exact not_not.mp fun hplaced => h.not_faulty_of_ok hw hok (.parse hr hid hplaced)
  · rintro ⟨hsource, hplaced⟩
    cases hres : (g.assemble roots).records with
    | ok records => exact ⟨records, rfl⟩
    | error cause =>
      exfalso
      rcases h.faulty_of_error hw hres with ⟨hr, hs⟩ | ⟨hr, hid, hwrong⟩
      · rw [hsource _ hr] at hs
        cases hs
      · exact hwrong (hplaced _ hr _ hid)

/-- The sample with a facet below its facet, and coercions below that. -/
def strayCoercions : Graph := (sample.addChild 3 (.facet { column := some "a" })).addChild 5 (.parse [])

/-- The coercions are only met in the queue of facets, and are not passed over there. -/
theorem assemble_ok_iff_sample :
    (∃ records, (sample.assemble [0]).records = .ok records) ∧
    (¬ ∃ records, (strayCoercions.assemble [0]).records = .ok records) ∧
    strayCoercions.Faulty [0] (.misplacedParse 6) := by
  have hstray : strayCoercions.Reachable := .addChild _ _ (.addChild _ _ reachable_sample)
  have hroots : sample.ParentlessRoots [0] := ⟨by decide, by decide, by decide⟩
  have hroots' : strayCoercions.ParentlessRoots [0] := ⟨by decide, by decide, by decide⟩
  obtain ⟨hok, -⟩ := assemble_ok_iff reachable_sample hroots
  obtain ⟨hok', herror⟩ := assemble_ok_iff hstray hroots'
  refine ⟨hok.mpr (by decide), fun h => ?_, herror _ rfl⟩
  exact absurd ((hok'.mp h).2 0 (by decide) 6 (by decide)) (by decide)

end Graph

end ChartPipeline
