import ChartPipeline.Proofs.Assembly.Content

/-!
# No transform is lost

The records that an assembly completes take in the transforms of the nodes it comes to: each node
in one place of one record, in blocks that cover the whole record (`Planted.accounted`). Of these
records those without a source are the records of the roots (`Planted.origins`).
-/

namespace ChartPipeline

def FacetSplit.labels : List String := ["column_", "row_"]

namespace Assembly

open Forest (Leads)

variable {above : Node} {v : Vertex} {below row rest : Forest Vertex} {r p q : Record}
  {before new first second third last : List Step} {n : String} {t : Tree Vertex}
  {pending : List Vertex}

-- ---------------------------------------------------------------------------
-- Blocks
-- ---------------------------------------------------------------------------

abbrev Blocks (records : List Record) (blocks : List (List Vertex)) : Prop :=
  List.Forall₂ (fun r block => r.transform = transformsOf block) records blocks

/-- The nodes come in the blocks of the records that steps complete, or else have no transforms. -/
def Accounted (nodes : List Vertex) (steps : List Step) : Prop :=
  ∃ blocks idle, Blocks (emittedOf steps) blocks ∧ transformsOf idle = [] ∧
    (blocks.flatten ++ idle).Perm nodes

theorem accounted_idle (nodes : List Vertex) (h : transformsOf nodes = [])
    (hn : emittedOf new = []) : Accounted nodes new :=
  ⟨[], nodes, by rw [hn]; exact .nil, h, .refl _⟩

theorem Accounted.append {nodes more : List Vertex} (h : Accounted nodes first)
    (h' : Accounted more second) : Accounted (nodes ++ more) (first ++ second) := by
  obtain ⟨blocks, idle, hb, hi, hp⟩ := h
  obtain ⟨blocks', idle', hb', hi', hp'⟩ := h'
  refine ⟨blocks ++ blocks', idle ++ idle', ?_, by rw [transformsOf_append, hi, hi']; rfl, ?_⟩
  · rw [emittedOf, collect_append]
    exact List.rel_append hb hb'
  · rw [List.flatten_append]
    exact (Forest.perm_append_swap _ _ _ _).trans (hp.append hp')

theorem Accounted.perm {nodes more : List Vertex} (h : Accounted nodes new)
    (hp : nodes.Perm more) : Accounted more new := by
  obtain ⟨blocks, idle, hb, hi, hn⟩ := h
  exact ⟨blocks, idle, hb, hi, hn.trans hp⟩

theorem accounted_emit (h : r.transform = transformsOf pending) : Accounted pending [.emit r] :=
  ⟨[pending], [], .cons h .nil, rfl, by simp⟩

theorem Completed.accounted (h : Completed r new n) (hr : r.transform = transformsOf pending) :
    Accounted pending new := by
  cases h with
  | refer hs =>
    subst hs
    exact accounted_idle _ hr.symm rfl
  | emit => exact accounted_emit hr

theorem Passed.accounted_facet (h : Passed above v below r new none)
    (hr : r.transform = transformsOf pending) : Accounted (pending ++ [v]) new := by
  cases h with
  | @facet f new n hv h =>
    refine (h.accounted hr).append (accounted_idle [v] ?_ rfl)
    rw [transformsOf_cons, hv]
    rfl

theorem Passed.accounted (h : Passed above v below r new (some p))
    (hr : r.transform = transformsOf pending) : ∃ done later, p.transform = transformsOf later ∧
      Accounted done new ∧ (done ++ later).Perm (pending ++ [v]) := by
  have hstay (hv : v.node.transforms = []) (hp : p.transform = r.transform)
      (hn : emittedOf new = []) : ∃ done later, p.transform = transformsOf later ∧
        Accounted done new ∧ (done ++ later).Perm (pending ++ [v]) := by
    refine ⟨[], pending ++ [v], ?_, accounted_idle [] rfl hn, .refl _⟩
    rw [hp, hr, transformsOf_append, transformsOf_cons, hv]
    simp [transformsOf]
  cases h with
  | parse hv => exact hstay (by rw [hv]; rfl) rfl (by split <;> simp)
  | ignored hv =>
    refine hstay (by rw [hv]; rfl) rfl ?_
    cases r.name <|> r.source <;> simp
  | last hv => exact hstay (by rw [hv]; rfl) rfl (by simp)
  | @sealed c n hv ha hn =>
    refine ⟨pending ++ [v], [], rfl, ⟨[pending ++ [v]], [], ?_, rfl, by simp⟩, by simp⟩
    simp [hv, hr, Node.transforms, transformsOf]
  | row =>
    refine ⟨[], pending ++ [v], ?_, accounted_idle [] rfl (by simp [Function.comp_def]), .refl _⟩
    rw [hr, transformsOf_append, transformsOf_cons]
    simp [transformsOf]

theorem HandedOver.accounted (h : HandedOver r row new q) (hr : r.transform = transformsOf pending) :
    ∃ done later, q.transform = transformsOf later ∧ Accounted done new ∧
      (done ++ row.roots.flatMap fun _ => later).Perm pending := by
  cases h with
  | dropped ha =>
    obtain ⟨s, rfl⟩ := Record.isAlias_iff.mp ha
    exact ⟨pending, [], rfl, accounted_idle _ hr.symm rfl, by simp [Forest.roots]⟩
  | leaf => exact ⟨pending, pending, hr, accounted_emit hr, by simp [Forest.roots]⟩
  | only => exact ⟨[], pending, hr, accounted_idle [] rfl rfl, by simp [Forest.roots]⟩
  | fork h => exact ⟨pending, [], rfl, h.accounted hr, by simp [List.flatMap_eq_nil_iff.mpr]⟩

/-- A walk accounts for what is in hand above each tree of the row, and for all nodes it comes to. -/
theorem Walked.accounted (h : Walked above r row new) (hr : r.transform = transformsOf pending) :
    Accounted ((row.roots.flatMap fun _ => pending) ++ reach row) new := by
  induction h generalizing pending with
  | nil => exact accounted_idle [] rfl rfl
  | @stop above v below r first rest last h _ ih =>
    have hv : atFacet v = true := by
      cases h with
      | facet hv => rw [atFacet, hv]; rfl
    refine ((h.accounted_facet hr).append (ih hr)).perm ?_
    rw [reach_cons, hv, if_pos rfl, List.nil_append, Forest.roots, List.flatMap_cons]
    exact Forest.perm_append_swap pending [v] _ _
  | @through above v below r first p second q third rest last h hh _ _ ihb ihr =>
    have hv : atFacet v = false := h.not_facet
    obtain ⟨done, held, hheld, hdone, hp⟩ := h.accounted hr
    obtain ⟨done', held', hheld', hdone', hp'⟩ := hh.accounted hheld
    have hdown : (done ++ done' ++ ((below.roots.flatMap fun _ => held') ++ reach below)).Perm
        (pending ++ v :: reach below) := by
      rw [List.append_assoc, ← List.append_assoc done', ← List.append_assoc]
      refine ((hp'.append_left done).append_right _).trans ((hp.append_right _).trans ?_)
      rw [List.append_assoc, List.singleton_append]
    refine (((hdone.append hdone').append (ihb hheld')).append (ihr hr)).perm ?_
    rw [reach_cons, hv, if_neg (by simp), Forest.roots, List.flatMap_cons,
      ← List.cons_append]
    exact (hdown.append_right _).trans (Forest.perm_append_swap pending _ _ _)

theorem Started.accounted (h : Started t new) (ht : t.label.node.isSource = true) :
    Accounted (t.label :: reach t.below) new := by
  cases h with
  | stray hs => simp [hs] at ht
  | @source s n first q last told hs hh hw =>
    have hseed : (seedRecord s n t.below).transform = transformsOf [t.label] := by
      rw [transformsOf_cons, hs]
      unfold seedRecord Record.withCoercions
      split <;> rfl
    obtain ⟨done, held, hheld, hdone, hp⟩ := hh.accounted hseed
    have hnone : emittedOf (.name t.label.id n :: told.map .tell) = [] := by
      simp [Function.comp_def]
    refine (((accounted_idle [] rfl hnone).append hdone).append (hw.accounted hheld)).perm ?_
    rw [List.nil_append, ← List.append_assoc]
    exact hp.append_right _

theorem Entered.accounted {f : Forest Vertex} (h : Entered f before t new) :
    Accounted (reach t.below) new := by
  cases h with
  | @intro s path n last _ _ _ _ hw =>
    have hnone : emittedOf (({ s with source := some n } : FacetSplit).records.map .index) = [] := by
      simp [Function.comp_def]
    have hwalk : Accounted _ last := hw.accounted (show _ = transformsOf [] from rfl)
    refine ((accounted_idle [] rfl hnone).append hwalk).perm ?_
    simp [List.flatMap_eq_nil_iff.mpr]

theorem accounted_of_started {trees : List (Tree Vertex)} {parts : List (List Step)}
    (h : List.Forall₂ Started trees parts) (hs : ∀ t ∈ trees, t.label.node.isSource = true) :
    Accounted (trees.flatMap fun t => t.label :: reach t.below) parts.flatten := by
  induction h with
  | nil => exact accounted_idle [] rfl rfl
  | cons h _ ih =>
    obtain ⟨ht, hs⟩ := List.forall_mem_cons.mp hs
    exact (h.accounted ht).append (ih hs)

theorem Followed.accounted {f : Forest Vertex} {queue : List (Tree Vertex)}
    (h : Followed f before queue new) : Accounted (queue.flatMap fun t => reach t.below) new := by
  induction h with
  | nil => exact accounted_idle [] rfl rfl
  | cons h _ ih => exact h.accounted.append ih

/-- Every node of the trees is in its place, and no node is in two. -/
theorem Planted.accounted {f : Forest Vertex} {trees : List (Tree Vertex)} (h : Planted f trees) :
    Accounted (trees.flatMap Tree.toList) (stepsOf trees) := by
  obtain ⟨parts, last, hs, hp, hf⟩ := h.exists_parts
  rw [hs]
  exact ((accounted_of_started hp h.sources).append hf.accounted).perm (perm_parts trees)

theorem Accounted.exists_blocks {nodes : List Vertex} (h : Accounted nodes new)
    (hn : emittedOf new = [] → nodes = []) :
    ∃ blocks, Blocks (emittedOf new) blocks ∧ blocks.flatten.Perm nodes := by
  obtain ⟨blocks, idle, hb, hi, hp⟩ := h
  generalize emittedOf new = records at hb hn
  cases hb with
  | nil => exact ⟨[], .nil, by rw [hn rfl]; exact .nil⟩
  | @cons r block records blocks hr hb =>
    refine ⟨(idle ++ block) :: blocks, .cons ?_ hb, ?_⟩
    · rw [transformsOf_append, hi]
      exact hr
    · rw [List.flatten_cons, List.append_assoc]
      exact List.perm_append_comm.trans hp

-- ---------------------------------------------------------------------------
-- Records without a source
-- ---------------------------------------------------------------------------

def origin (r : Record) : List Record :=
  if r.source.isNone then [{ r with name := none, transform := [] }] else []

abbrev originsOf (steps : List Step) : List Record := (emittedOf steps).flatMap origin

/-- The record that a tree starts with, without its name. -/
def seedOf (t : Tree Vertex) : Option Record :=
  match t.label.node with
  | .source s => some { seedRecord s "" t.below with name := none }
  | _ => none

@[simp] theorem originsOf_append (steps more : List Step) :
    originsOf (steps ++ more) = originsOf steps ++ originsOf more := by
  simp [originsOf]

theorem origin_seedRecord {s : Source} (hs : t.label.node = .source s) :
    (origin (seedRecord s n t.below)).map some = [seedOf t] := by
  rw [seedOf, hs]
  unfold seedRecord Record.withCoercions
  split <;> rfl

theorem Completed.origins (h : Completed r new n) : originsOf new = origin r := by
  cases h with
  | refer hs =>
    subst hs
    rfl
  | emit => simp [originsOf, origin]

theorem Passed.origins_facet (h : Passed above v below r new none) : originsOf new = origin r := by
  cases h with
  | facet _ h => rw [originsOf_append, h.origins]; exact List.append_nil _

theorem Passed.origins (h : Passed above v below r new (some p)) :
    originsOf new ++ origin p = origin r := by
  cases h with
  | parse => split <;> simp
  | ignored => cases r.name <|> r.source <;> simp
  | last => rfl
  | «sealed» => simp [originsOf, origin, Record.ofSource]
  | row => simp [originsOf, Function.comp_def, origin]

theorem HandedOver.origins (h : HandedOver r row new q) :
    originsOf new ++ (row.roots.flatMap fun _ => origin q) = origin r := by
  cases h with
  | dropped ha =>
    obtain ⟨s, rfl⟩ := Record.isAlias_iff.mp ha
    rfl
  | leaf => simp [originsOf, Forest.roots]
  | only => simp [Forest.roots]
  | @fork _ n _ _ _ _ _ h =>
    rw [h.origins, show origin (.ofSource n) = [] from rfl]
    simp [List.flatMap_eq_nil_iff.mpr]

theorem Walked.origins (h : Walked above r row new) :
    originsOf new = row.roots.flatMap fun _ => origin r := by
  induction h with
  | nil => rfl
  | stop h _ ih => rw [originsOf_append, h.origins_facet, ih]; rfl
  | through h hh _ _ ihb ihr =>
    rw [originsOf_append, originsOf_append, originsOf_append, ihb, ihr, List.append_assoc (originsOf _),
      hh.origins, h.origins]
    rfl

theorem Started.origins (h : Started t new) (ht : t.label.node.isSource = true) :
    (originsOf new).map some = [seedOf t] := by
  cases h with
  | stray hs => simp [hs] at ht
  | @source s n first q last told hs hh hw =>
    rw [originsOf_append, originsOf_append, hw.origins, List.append_assoc, hh.origins, List.map_append,
      origin_seedRecord hs]
    simp [Function.comp_def]

theorem Entered.origins {f : Forest Vertex} (h : Entered f before t new) : originsOf new = [] := by
  cases h with
  | @intro s path n last _ _ _ _ hw =>
    rw [originsOf_append, hw.origins, show origin (.ofSource n) = [] from rfl]
    simp [Function.comp_def, List.flatMap_eq_nil_iff.mpr]

theorem origins_of_started {trees : List (Tree Vertex)} {parts : List (List Step)}
    (h : List.Forall₂ Started trees parts) (hs : ∀ t ∈ trees, t.label.node.isSource = true) :
    (originsOf parts.flatten).map some = trees.map seedOf := by
  induction h with
  | nil => rfl
  | cons h _ ih =>
    obtain ⟨ht, hs⟩ := List.forall_mem_cons.mp hs
    rw [List.flatten_cons, originsOf_append, List.map_append, h.origins ht, ih hs]
    rfl

theorem Followed.origins {f : Forest Vertex} {queue : List (Tree Vertex)}
    (h : Followed f before queue new) : originsOf new = [] := by
  induction h with
  | nil => rfl
  | cons h _ ih => rw [originsOf_append, h.origins, ih]; rfl

/-- One record for each root has no source. It is the one that the root starts with, and what it has
taken in. -/
theorem Planted.origins {f : Forest Vertex} {trees : List (Tree Vertex)} (h : Planted f trees) :
    (originsOf (stepsOf trees)).map some = trees.map seedOf := by
  obtain ⟨parts, last, hs, hp, hf⟩ := h.exists_parts
  rw [hs, originsOf_append, hf.origins, List.append_nil, origins_of_started hp h.sources]

theorem Planted.exists_blocks {f : Forest Vertex} {trees : List (Tree Vertex)}
    (h : Planted f trees) : ∃ blocks, Blocks (emittedOf (stepsOf trees)) blocks ∧
      blocks.flatten.Perm (trees.flatMap Tree.toList) := by
  refine h.accounted.exists_blocks fun hn => ?_
  have ho := h.origins
  rw [originsOf, hn] at ho
  rw [List.map_eq_nil_iff.mp ho.symm]
  rfl

-- ---------------------------------------------------------------------------
-- Index records
-- ---------------------------------------------------------------------------

def indexRecords : Option Node → List Record
  | some (.facet f) => f.records
  | _ => []

theorem Completed.indexedOf (h : Completed r new n) : indexedOf new = [] := by
  cases h <;> rfl

theorem Passed.indexedOf (h : Passed above v below r new next) : indexedOf new = [] := by
  cases h with
  | parse => split <;> rfl
  | ignored => cases r.name <|> r.source <;> rfl
  | facet _ h => simp [h.indexedOf]
  | row => simp [Function.comp_def]
  | _ => rfl

theorem HandedOver.indexedOf (h : HandedOver r row new q) : indexedOf new = [] := by
  cases h with
  | fork h => exact h.indexedOf
  | _ => rfl

theorem Walked.indexedOf (h : Walked above r row new) : indexedOf new = [] := by
  induction h with
  | nil => rfl
  | stop h _ ih => simp [h.indexedOf, ih]
  | through h hh _ _ ihb ihr => simp [h.indexedOf, hh.indexedOf, ihb, ihr]

theorem indexedOf_of_started {trees : List (Tree Vertex)} {parts : List (List Step)}
    (h : List.Forall₂ Started trees parts) : indexedOf parts.flatten = [] := by
  induction h with
  | nil => rfl
  | cons h _ ih =>
    cases h with
    | source _ hh hw => simp [hh.indexedOf, hw.indexedOf, Function.comp_def, ih]
    | stray => simp [ih]

theorem Followed.indexedOf {f : Forest Vertex} {queue : List (Tree Vertex)}
    (h : Followed f before queue new) {final : NodeId → Option Node}
    (hf : ∀ t ∈ queue, ∀ n, .name t.label.id n ∈ before ++ new →
      final t.label.id = some (t.label.node.named n)) :
    indexedOf new = queue.flatMap fun t => indexRecords (final t.label.id) := by
  induction h with
  | nil => rfl
  | @cons before first last t rest h _ ih =>
    have hrest := ih fun t ht n hn => hf t (List.mem_cons_of_mem _ ht) n (by simpa using hn)
    cases h with
    | @intro s path n last hs _ hn _ hw =>
      have ht := hf t (List.mem_cons_self ..) n (List.mem_append_left _ hn)
      rw [List.flatMap_cons, ← hrest, ht, hs]
      simp [hw.indexedOf, Function.comp_def, indexRecords, Node.named]

theorem Planted.indexedOf {f : Forest Vertex} {trees : List (Tree Vertex)} (h : Planted f trees)
    {final : NodeId → Option Node} (hf : ∀ t ∈ facets trees, ∀ n, .name t.label.id n ∈ stepsOf trees →
      final t.label.id = some (t.label.node.named n)) :
    indexedOf (stepsOf trees) = (facets trees).flatMap fun t => indexRecords (final t.label.id) := by
  obtain ⟨parts, last, hs, hp, hfollow⟩ := h.exists_parts
  rw [hs] at hf ⊢
  rw [← hfollow.indexedOf hf]
  simp [indexedOf_of_started hp]

theorem exists_of_mem_indexRecords {node : Option Node} (h : r ∈ indexRecords node) :
    ∃ label ∈ FacetSplit.labels, ∃ field source, r = FacetSplit.indexRecord label field source := by
  unfold indexRecords at h
  split at h
  · rename_i f
    unfold FacetSplit.records at h
    split at h
    · cases h
    · rename_i source _
      simp only [List.mem_append, Option.mem_toList, Option.map_eq_some_iff] at h
      obtain ⟨field, -, rfl⟩ | ⟨field, -, rfl⟩ := h
      · exact ⟨"column_", List.mem_cons_self, field, source, rfl⟩
      · exact ⟨"row_", List.mem_cons_of_mem _ List.mem_cons_self, field, source, rfl⟩
  · cases h

theorem origin_of_mem_indexRecords {node : Option Node} (h : r ∈ indexRecords node) :
    origin r = [] := by
  obtain ⟨label, -, field, source, rfl⟩ := exists_of_mem_indexRecords h
  rfl

theorem perm_recordsOf (steps : List Step) :
    (recordsOf steps).Perm (emittedOf steps ++ indexedOf steps) := by
  induction steps with
  | nil => exact .nil
  | cons step steps ih =>
    cases step with
    | emit r => simpa using ih
    | index r => simpa using (ih.cons r).trans List.perm_middle.symm
    | _ => simpa using ih

theorem flatMap_origin (h : ∀ r ∈ indexedOf steps, origin r = []) :
    (recordsOf steps).flatMap origin = originsOf steps := by
  induction steps with
  | nil => rfl
  | cons step steps ih =>
    have hlater := ih fun r hr => h r (by simp [hr])
    cases step with
    | index r =>
      have hr := h r (by simp)
      simpa [originsOf, hr] using hlater
    | _ => simpa [originsOf] using hlater

end Assembly

end ChartPipeline
