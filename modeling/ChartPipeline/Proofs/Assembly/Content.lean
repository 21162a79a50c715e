import ChartPipeline.Proofs.Assembly.Naming

/-!
# What records hold on their way down

The record in hand, unfolded along the records that are complete so far, stands for the data of the
root and the transforms of all nodes on the path. A node passed keeps that (`Passed.unfolds`,
`HandedOver.unfolds`), so a whole walk does (`Walked.offers`), and so do the facets that follow
(`Followed.reached`): every facet, and every checkpoint that has to be addressable, gets the name
of a record that stands for its path (`Planted.offers`).
-/

namespace ChartPipeline

def Node.data? : Node → Option Data
  | .source s => some s.data
  | _ => none

namespace Assembly

open Record (Unfolds Offers unfolds_ofSource)
open Forest (Leads parentOn)

/-- A node that the assembly gives the name of a record by which its data can be read. -/
def Addressed (above : Node) (n : Node) : Prop :=
  n.isFacet = true ∨ Graph.demands (some above) n = true

-- ---------------------------------------------------------------------------
-- One node
-- ---------------------------------------------------------------------------

variable {above : Node} {v : Vertex} {below row : Forest Vertex} {r p q : Record}
  {before new first second : List Step} {c : Content} {n : String}

theorem Completed.offers {before : List Record} (h : Completed r new n) (hr : Unfolds before r c) :
    Offers (before ++ recordsOf new) n c := by
  cases h with
  | refer hs =>
    subst hs
    simpa using unfolds_ofSource.mp hr
  | emit ha hn =>
    refine ⟨{ r with name := some n }, by simp, rfl, ?_⟩
    exact (hr.mono (List.subset_append_left _ _)).named _

theorem HandedOver.unfolds {before : List Record} (h : HandedOver r row new q)
    (hr : Unfolds before r c) : Unfolds (before ++ recordsOf new) q c := by
  cases h with
  | dropped => simpa using hr
  | leaf => exact hr.mono (List.subset_append_left _ _)
  | only => simpa using hr
  | fork h => exact unfolds_ofSource.mpr (h.offers hr)

theorem HandedOver.offers {before : List Record} (h : HandedOver r .nil new q)
    (hn : r.name = some n) (hr : Unfolds before r c) : Offers (before ++ recordsOf new) n c := by
  cases h with
  | dropped h =>
    obtain ⟨s, rfl⟩ := Record.isAlias_iff.mp h
    cases hn
  | leaf => exact ⟨r, by simp, hn, hr.mono (List.subset_append_left _ _)⟩

theorem Passed.unfolds {before : List Record} (h : Passed above v below r new (some p))
    (hr : Unfolds before r c) :
    Unfolds (before ++ recordsOf new) p (c.then v.node.transforms) := by
  cases h with
  | parse hv =>
    rw [hv, Node.transforms, Content.then_nil]
    exact hr.mono (List.subset_append_left _ _)
  | ignored hv =>
    rw [hv, Node.transforms, Content.then_nil]
    exact hr.mono (List.subset_append_left _ _)
  | last hv =>
    rw [hv, Node.transforms, Content.then_nil]
    exact (hr.mono (List.subset_append_left _ _)).named _
  | @sealed c n hv =>
    rw [hv, Node.transforms, Content.then_nil]
    refine unfolds_ofSource.mpr ⟨{ r with name := some n }, by simp, rfl, ?_⟩
    exact (hr.mono (List.subset_append_left _ _)).named _
  | row => exact (hr.append _).mono (List.subset_append_left _ _)

theorem Passed.offers_facet {before : List Record} (h : Passed above v below r new none)
    (hr : Unfolds before r c) : v.node.isFacet = true ∧ v.node.transforms = [] ∧
      ∃ n, .name v.id n ∈ new ∧ Offers (before ++ recordsOf new) n c := by
  cases h with
  | @facet f new n hv h =>
    refine ⟨by rw [hv]; rfl, by rw [hv]; rfl, n, by simp, ?_⟩
    simpa using h.offers hr

theorem Passed.offers_checkpoint {before : List Record} (h : Passed above v below r first (some p))
    (hh : HandedOver p below second q) (hd : Graph.demands (some above) v.node = true)
    (hr : Unfolds before r c) : v.node.transforms = [] ∧
      ∃ n, .name v.id n ∈ first ∧ Offers (before ++ recordsOf (first ++ second)) n c := by
  cases h with
  | parse hv => simp [hv, Graph.demands] at hd
  | row _ hn _ => cases hv : v.node <;> simp_all [Graph.demands, Node.isCheckpoint]
  | ignored hv hi =>
    obtain ⟨s, rfl⟩ := Record.isAlias_iff.mp (hi.resolve_left (by simp [hd]))
    refine ⟨by rw [hv]; rfl, s, by simp [Record.ofSource], ?_⟩
    exact (unfolds_ofSource.mp hr).mono (List.subset_append_left _ _)
  | last hv ha hb hn =>
    subst hb
    refine ⟨by rw [hv]; rfl, _, List.mem_singleton_self _, ?_⟩
    simpa using hh.offers rfl (hr.named _)
  | @sealed c n hv =>
    refine ⟨by rw [hv]; rfl, n, by simp, ?_⟩
    refine ⟨{ r with name := some n }, by simp, rfl, ?_⟩
    exact (hr.mono (List.subset_append_left _ _)).named _

-- ---------------------------------------------------------------------------
-- A row of trees
-- ---------------------------------------------------------------------------

def nodeAbove (above : Node) (path : List Vertex) : Node := parentOn above (path.map Vertex.node)

def transformsOf (path : List Vertex) : List Transform := path.flatMap (·.node.transforms)

theorem nodeAbove_cons (above : Node) (v : Vertex) {path : List Vertex} (h : path ≠ []) :
    nodeAbove above (v :: path) = nodeAbove v.node path :=
  Forest.parentOn_cons _ _ (by simpa using h)

@[simp] theorem transformsOf_cons (v : Vertex) (path : List Vertex) :
    transformsOf (v :: path) = v.node.transforms ++ transformsOf path := rfl

@[simp] theorem transformsOf_append (first last : List Vertex) :
    transformsOf (first ++ last) = transformsOf first ++ transformsOf last :=
  List.flatMap_append

theorem offers_later {before : List Record} (h : Offers (before ++ recordsOf first) n c)
    (more : List Step) : Offers (before ++ recordsOf (first ++ more)) n c :=
  h.mono (by simp [← List.append_assoc])

/-- Every facet that a walk comes to, and every checkpoint on the way that has to be addressable,
gets the name of a record that stands for its path. -/
theorem Walked.offers {before : List Record} {path : List Vertex} {t : Tree Vertex}
    (h : Walked above r row new) (hr : Unfolds before r c) (ht : Leads row path t)
    (hp : ∀ v ∈ path.dropLast, v.node.isFacet = false)
    (ha : Addressed (nodeAbove above path) t.label.node) :
    ∃ n, .name t.label.id n ∈ new ∧ Offers (before ++ recordsOf new) n (c.then (transformsOf path)) := by
  induction h generalizing before c path with
  | nil => cases ht
  | @stop above v below r first rest last h _ ih =>
    obtain ⟨hv, hts, hn⟩ := h.offers_facet hr
    cases ht with
    | here =>
      obtain ⟨n, hn, ho⟩ := hn
      refine ⟨n, List.mem_append_left _ hn, ?_⟩
      rw [transformsOf_cons, hts]
      simpa [transformsOf] using offers_later ho last
    | down ht =>
      rw [List.dropLast_cons_of_ne_nil ht.ne_nil] at hp
      simp [hp v (List.mem_cons_self ..)] at hv
    | along ht =>
      obtain ⟨n, hn, ho⟩ := ih (hr.mono (List.subset_append_left _ _)) ht hp ha
      exact ⟨n, List.mem_append_right _ hn, by simpa using ho⟩
  | @through above v below r first p second q third rest last h hh hw _ ihb ihr =>
    -- the records in hand below the node and beside it
    have hq := hh.unfolds (h.unfolds hr)
    have hr' : Unfolds (before ++ recordsOf (first ++ second ++ third)) r c :=
      hr.mono (List.subset_append_left _ _)
    cases ht with
    | here =>
      have hd : Graph.demands (some above) v.node = true :=
        ha.resolve_left (by simp [h.not_facet])
      obtain ⟨hts, n, hn, ho⟩ := h.offers_checkpoint hh hd hr
      refine ⟨n, by simp [hn], ?_⟩
      rw [transformsOf_cons, hts, List.append_assoc]
      simpa [transformsOf] using offers_later ho (third ++ last)
    | down ht =>
      rw [List.dropLast_cons_of_ne_nil ht.ne_nil] at hp
      rw [nodeAbove_cons _ _ ht.ne_nil] at ha
      obtain ⟨n, hn, ho⟩ := ihb hq ht (fun u hu => hp u (List.mem_cons_of_mem _ hu)) ha
      refine ⟨n, by simp [hn], ?_⟩
      refine offers_later ?_ last
      simpa using ho
    | along ht =>
      obtain ⟨n, hn, ho⟩ := ihr hr' ht hp ha
      exact ⟨n, List.mem_append_right _ hn, by simpa using ho⟩

-- ---------------------------------------------------------------------------
-- Roots
-- ---------------------------------------------------------------------------

def contentAlong (path : List Vertex) : Content :=
  let data := path.head?.bind (·.node.data?)
  { url := data.bind Data.url, values := data.bind Data.values, transforms := transformsOf path }

theorem contentAlong_append {first : List Vertex} (last : List Vertex) (h : first ≠ []) :
    contentAlong (first ++ last) = (contentAlong first).then (transformsOf last) := by
  cases first with
  | nil => exact absurd rfl h
  | cons v first => simp [contentAlong, Content.then]

theorem seedRecord_unfolds {s : Source} (hs : v.node = .source s) :
    Unfolds [] (seedRecord s n below) (contentAlong [v]) := by
  have hr : (seedRecord s n below).source = none ∧ (seedRecord s n below).url = s.data.url ∧
      (seedRecord s n below).values = s.data.values ∧ (seedRecord s n below).transform = [] := by
    unfold seedRecord Record.withCoercions
    split <;> exact ⟨rfl, rfl, rfl, rfl⟩
  obtain ⟨hsource, hurl, hvalues, htransform⟩ := hr
  have hc : contentAlong [v] = ⟨(seedRecord s n below).url, (seedRecord s n below).values,
      (seedRecord s n below).transform⟩ := by
    simp [contentAlong, hs, Node.data?, transformsOf, Node.transforms, hurl, hvalues, htransform]
  rw [hc]
  exact .origin hsource

/-- The walk below a tree is a part of the steps. The record that it starts with stands for the path
to the tree. -/
def Reached (f : Forest Vertex) (steps : List Step) (t : Tree Vertex) : Prop :=
  ∃ earlier part later r path, steps = earlier ++ part ++ later ∧ f.Leads path t ∧
    Unfolds (recordsOf earlier) r (contentAlong path) ∧ Walked t.label.node r t.below part

/-- The node at a position has been named after a record that stands for its path. -/
def Ready (f : Forest Vertex) (steps : List Step) (t : Tree Vertex) : Prop :=
  ∃ path n, f.Leads path t ∧ .name t.label.id n ∈ steps ∧
    Offers (recordsOf steps) n (contentAlong path)

section

variable {f : Forest Vertex} {t u : Tree Vertex} {path : List Vertex}

theorem Reached.later (h : Reached f before t) (more : List Step) : Reached f (before ++ more) t := by
  obtain ⟨earlier, part, later, r, path, rfl, h⟩ := h
  exact ⟨earlier, part, later ++ more, r, path, by simp only [List.append_assoc], h⟩

theorem Ready.later (h : Ready f before t) (more : List Step) : Ready f (before ++ more) t := by
  obtain ⟨path, n, ht, hn, ho⟩ := h
  exact ⟨path, n, ht, List.mem_append_left _ hn, ho.mono (by simp)⟩

theorem Reached.ready (h : Reached f before t) (hu : t.below.Leads path u)
    (hp : ∀ v ∈ path.dropLast, v.node.isFacet = false)
    (ha : Addressed (nodeAbove t.label.node path) u.label.node) : Ready f before u := by
  obtain ⟨earlier, part, later, r, first, rfl, ht, hr, hw⟩ := h
  obtain ⟨n, hn, ho⟩ := hw.offers hr hu hp ha
  rw [← contentAlong_append path ht.ne_nil] at ho
  refine ⟨first ++ path, n, ht.append hu, by simp [hn], ?_⟩
  rw [List.append_assoc, recordsOf, collect_append]
  exact offers_later ho later

theorem Started.reached (h : Started t new) (ht : t.label.node.isSource = true)
    (hl : f.Leads [t.label] t) (before : List Step) : Reached f (before ++ new) t := by
  cases h with
  | stray hs => simp [hs] at ht
  | @source s n first q last told hs hh hw =>
    refine ⟨before ++ (.name t.label.id n :: told.map .tell ++ first), last, [], q, _,
      by simp only [List.append_assoc, List.append_nil], hl, ?_, hw⟩
    exact (hh.unfolds (seedRecord_unfolds hs)).mono (by simp)

theorem reached_of_started {trees : List (Tree Vertex)} {parts : List (List Step)}
    (h : List.Forall₂ Started trees parts) (ht : t ∈ trees) (hs : t.label.node.isSource = true)
    (hl : f.Leads [t.label] t) (before : List Step) : Reached f (before ++ parts.flatten) t := by
  induction h generalizing before with
  | nil => cases ht
  | @cons t' part trees parts h _ ih =>
    rw [List.flatten_cons, ← List.append_assoc]
    rcases List.mem_cons.mp ht with rfl | ht
    · exact (h.reached hs hl before).later _
    · exact ih ht _

-- ---------------------------------------------------------------------------
-- Facets
-- ---------------------------------------------------------------------------

inductive Entered (f : Forest Vertex) (before : List Step) (t : Tree Vertex) : List Step → Prop
  | intro {s : FacetSplit} {path : List Vertex} {n : String} {last : List Step} :
      t.label.node = .facet s → f.Leads path t → .name t.label.id n ∈ before →
      Offers (recordsOf before) n (contentAlong path) →
      Walked t.label.node (.ofSource n) t.below last →
      Entered f before t (({ s with source := some n } : FacetSplit).records.map .index ++ last)

inductive Followed (f : Forest Vertex) : List Step → List (Tree Vertex) → List Step → Prop
  | nil {before : List Step} : Followed f before [] []
  | cons {before first last : List Step} {t : Tree Vertex} {rest : List (Tree Vertex)} :
      Entered f before t first → Followed f (before ++ first) rest last →
      Followed f before (t :: rest) (first ++ last)

theorem Opened.entered (h : Opened before t new) (hf : t.label.node.isFacet = true)
    (ht : Ready f before t) (hn : (namedBy before).Nodup) : Entered f before t new := by
  obtain ⟨path, n, hl, hm, ho⟩ := ht
  have hname := nameOf?_eq_some hn hm
  cases h with
  | skipped h => simp [hf, hname] at h
  | facet hs hn' hw =>
    obtain rfl := Option.some.inj (hname.symm.trans hn')
    exact .intro hs hl hm ho hw

theorem Entered.reached (h : Entered f before t new) : Reached f (before ++ new) t := by
  cases h with
  | @intro s path n last hs hl _ ho hw =>
    refine ⟨before ++ (({ s with source := some n } : FacetSplit).records.map .index), last, [],
      .ofSource n, path, by simp only [List.append_assoc, List.append_nil], hl, ?_, hw⟩
    exact unfolds_ofSource.mpr (ho.mono (by simp))

/-- The facets of the queue stand in order, those that are known so far have their names, and what is
below them has none. -/
structure Due (f : Forest Vertex) (before : List Step) (known queue : List (Tree Vertex)) : Prop where
  ordered : Forest.Ordered atFacet known queue
  ready : ∀ t ∈ known, t.label.node.isFacet = true ∧ Ready f before t
  fresh : (namedBy before ++ (queue.flatMap fun t => reach t.below).map Vertex.id).Nodup

section

variable {known queue : List (Tree Vertex)}

theorem Due.entered (h : Due f before known (t :: queue)) (ho : Opened before t first) :
    Entered f before t first := by
  obtain ⟨hf, hr⟩ := h.ready t h.ordered.1
  exact ho.entered hf hr (h.fresh.sublist (List.sublist_append_left _ _))

theorem Due.next (h : Due f before known (t :: queue)) (ho : Opened before t first) :
    Due f (before ++ first) (known ++ t.below.firsts atFacet) queue where
  ordered := h.ordered.2
  ready u hu := by
    rcases List.mem_append.mp hu with hu | hu
    · exact ⟨(h.ready u hu).1, (h.ready u hu).2.later first⟩
    · obtain ⟨huf, more, hl, hm⟩ := Forest.mem_firsts.mp hu
      exact ⟨huf, (h.entered ho).reached.ready hl hm (.inl huf)⟩
  fresh := by
    refine h.fresh.sublist ?_
    rw [namedBy_append, List.append_assoc, List.flatMap_cons, List.map_append]
    exact (List.Sublist.refl _).append (ho.named_sublist.append (.refl _))

theorem Continued.followed (h : Continued before queue new) (hd : Due f before known queue) :
    Followed f before queue new := by
  induction h generalizing known with
  | nil => exact .nil
  | cons ho _ ih => exact .cons (hd.entered ho) (ih (hd.next ho))

end

theorem Followed.reached {queue : List (Tree Vertex)} (h : Followed f before queue new)
    (ht : t ∈ queue) : Reached f (before ++ new) t := by
  induction h with
  | nil => cases ht
  | cons h _ ih =>
    rw [← List.append_assoc]
    rcases List.mem_cons.mp ht with rfl | ht
    · exact h.reached.later _
    · exact ih ht

end

-- ---------------------------------------------------------------------------
-- Whole assemblies
-- ---------------------------------------------------------------------------

theorem exists_last_facet {path : List Vertex} (h : path ≠ []) :
    (∀ v ∈ path.dropLast, v.node.isFacet = false) ∨
      ∃ first v last, path = first ++ v :: last ∧ last ≠ [] ∧ v.node.isFacet = true ∧
        ∀ w ∈ last.dropLast, w.node.isFacet = false := by
  induction path with
  | nil => exact absurd rfl h
  | cons v path ih =>
    by_cases hn : path = []
    · subst hn
      exact .inl (by simp)
    rcases ih hn with hp | ⟨first, w, last, rfl, hl, hw, hp⟩
    · by_cases hv : v.node.isFacet = true
      · exact .inr ⟨[], v, path, rfl, hn, hv, hp⟩
      · refine .inl ?_
        rw [List.dropLast_cons_of_ne_nil hn]
        exact List.forall_mem_cons.mpr ⟨by simpa using hv, hp⟩
    · exact .inr ⟨v :: first, w, last, rfl, hl, hw, hp⟩

def stepsOf (trees : List (Tree Vertex)) : List Step := ((run trees).run {}).2.steps

namespace Planted

variable {f : Forest Vertex} {trees : List (Tree Vertex)} {t u : Tree Vertex} {path : List Vertex}

theorem nodup_stepsOf (h : Planted f trees) : (namedBy (stepsOf trees)).Nodup := by
  obtain ⟨parts, last, hs, hp, hc⟩ := exists_of_run trees
  rw [stepsOf, hs, namedBy_append]
  exact (h.nodup_named hp).sublist ((List.Sublist.refl _).append hc.named_sublist)

theorem due (h : Planted f trees) {parts : List (List Step)} (hp : List.Forall₂ Started trees parts) :
    Due f parts.flatten (trees.flatMap fun t => t.below.firsts atFacet) (facets trees) where
  ordered := ordered_facets trees
  ready u hu := by
    obtain ⟨t, ht, hu⟩ := List.mem_flatMap.mp hu
    obtain ⟨huf, more, hl, hm⟩ := Forest.mem_firsts.mp hu
    have hroot := reached_of_started hp ht (h.sources t ht) (h.leads t ht) []
    exact ⟨huf, hroot.ready hl hm (.inl huf)⟩
  fresh := h.nodup_named hp

theorem exists_parts (h : Planted f trees) : ∃ parts last, stepsOf trees = parts.flatten ++ last ∧
    List.Forall₂ Started trees parts ∧ Followed f parts.flatten (facets trees) last := by
  obtain ⟨parts, last, hs, hp, hc⟩ := exists_of_run trees
  exact ⟨parts, last, hs, hp, hc.followed (h.due hp)⟩

theorem reached (h : Planted f trees) (ht : t ∈ trees ∨ t ∈ facets trees) :
    Reached f (stepsOf trees) t := by
  obtain ⟨parts, last, hs, hp, hc⟩ := h.exists_parts
  rw [hs]
  rcases ht with ht | ht
  · exact (reached_of_started hp ht (h.sources t ht) (h.leads t ht) []).later last
  · exact hc.reached ht

/-- The walk that comes to a node starts at the last facet above it, or else at the root. -/
theorem exists_reached (h : Planted f trees) (ht : t ∈ trees) (hu : t.below.Leads path u) :
    ∃ w rest, Reached f (stepsOf trees) w ∧ w.below.Leads rest u ∧
      (∀ v ∈ rest.dropLast, v.node.isFacet = false) ∧
      nodeAbove t.label.node path = nodeAbove w.label.node rest := by
  rcases exists_last_facet hu.ne_nil with hfree | ⟨first, v, rest, rfl, hrest, hv, hfree⟩
  · exact ⟨t, path, h.reached (.inl ht), hu, hfree, rfl⟩
  rw [← List.singleton_append, ← List.append_assoc] at hu
  obtain ⟨w, hw, hwu⟩ := hu.split (by simp) hrest
  obtain rfl : w.label = v := by simpa [eq_comm] using hw.getLast?
  refine ⟨w, rest, h.reached (.inr (mem_facets.mpr ⟨t, ht, hv, _, hw⟩)), hwu, hfree, ?_⟩
  rw [nodeAbove, List.map_append, List.map_cons, ← List.singleton_append, ← List.append_assoc,
    Forest.parentOn_append _ _ (by simpa using hrest)]
  simp [nodeAbove]

/-- Wherever a facet lies below a root, and wherever a checkpoint that has to be addressed, it gets
the name of a record that stands for its path. -/
theorem offers (h : Planted f trees) (ht : t ∈ trees) (hu : t.below.Leads path u)
    (ha : Addressed (nodeAbove t.label.node path) u.label.node) :
    ∃ n, .name u.label.id n ∈ stepsOf trees ∧
      Offers (recordsOf (stepsOf trees)) n (contentAlong (t.label :: path)) := by
  obtain ⟨w, rest, hw, hwu, hfree, he⟩ := h.exists_reached ht hu
  obtain ⟨path', n, hl, hn, ho⟩ := hw.ready hwu hfree (he ▸ ha)
  obtain ⟨rfl, -⟩ := hl.unique h.keyed ((h.leads t ht).append hu) rfl
  exact ⟨n, hn, ho⟩

end Planted

end Assembly

end ChartPipeline
