import ChartPipeline.Proofs.Assembly.Queue
import ChartPipeline.Proofs.Assembly.Walk

/-!
# Who is named

An assembly names a node only as it comes to it, so no node is named twice (`Planted.nodup_named`).
What a node stands for afterwards is then the one name that it got. Sources are only named as roots
(`Started.exists_named`).
-/

namespace ChartPipeline.Assembly

variable {above : Node} {v : Vertex} {below row : Forest Vertex} {r q : Record} {p : Option Record}
  {before new steps : List Step} {n : String} {id : NodeId} {t : Tree Vertex}

abbrev namedBy (steps : List Step) : List NodeId := (namesOf steps).map Prod.fst

@[simp] theorem namedBy_append (steps more : List Step) :
    namedBy (steps ++ more) = namedBy steps ++ namedBy more := by
  simp [namedBy]

theorem Completed.namesOf (h : Completed r new n) : namesOf new = [] := by
  cases h <;> simp

theorem HandedOver.namesOf (h : HandedOver r row new q) : namesOf new = [] := by
  cases h with
  | fork h => exact h.namesOf
  | _ => simp

theorem Passed.named_sublist (h : Passed above v below r new p) :
    (namedBy new).Sublist [v.id] := by
  cases h with
  | parse => split <;> simp [namedBy]
  | ignored => cases r.name <|> r.source <;> simp [namedBy]
  | last => simp [namedBy]
  | «sealed» => simp [namedBy]
  | facet _ h => simp [namedBy, h.namesOf]
  | row => simp [namedBy, Function.comp_def]

theorem Walked.named_sublist (h : Walked above r row new) :
    (namedBy new).Sublist ((reach row).map Vertex.id) := by
  induction h with
  | nil => exact .slnil
  | @stop above v below r first rest last h _ ih =>
    rw [namedBy_append]
    exact h.named_sublist.append (ih.trans ((List.sublist_append_right _ _).map _))
  | @through above v below r first p second q third rest last h hh _ _ ihb ihr =>
    have hf : atFacet v = false := h.not_facet
    have hs : namedBy second = [] := by rw [namedBy, hh.namesOf]; rfl
    rw [namedBy_append, namedBy_append, namedBy_append, hs, List.append_nil, List.append_assoc]
    rw [reach_cons, hf, List.map_cons]
    exact h.named_sublist.append (by simpa using ihb.append ihr)

theorem Started.named_sublist (h : Started t new) :
    (namedBy new).Sublist ((t.label :: reach t.below).map Vertex.id) := by
  cases h with
  | source _ hh hw =>
    simp only [namedBy, collect_append, collect_cons, hh.namesOf, List.append_nil, collect_map]
    simpa [Function.comp_def] using hw.named_sublist
  | stray => simp [namedBy]

theorem Opened.named_sublist (h : Opened before t new) :
    (namedBy new).Sublist ((reach t.below).map Vertex.id) := by
  cases h with
  | facet _ _ hw => simpa [namedBy, Function.comp_def] using hw.named_sublist
  | skipped => simp [namedBy]

theorem Continued.named_sublist {queue : List (Tree Vertex)} (h : Continued before queue new) :
    (namedBy new).Sublist ((queue.flatMap fun t => reach t.below).map Vertex.id) := by
  induction h with
  | nil => exact .slnil
  | cons h _ ih =>
    rw [namedBy_append, List.flatMap_cons, List.map_append]
    exact h.named_sublist.append ih

theorem named_sublist_of_started {trees : List (Tree Vertex)} {parts : List (List Step)}
    (h : List.Forall₂ Started trees parts) : (namedBy parts.flatten).Sublist
      ((trees.flatMap fun t => t.label :: reach t.below).map Vertex.id) := by
  induction h with
  | nil => exact .slnil
  | cons h _ ih =>
    rw [List.flatten_cons, namedBy_append, List.flatMap_cons, List.map_append]
    exact h.named_sublist.append ih

/-- Nothing that has a name after the roots gets another one below the facets, and no node gets two
names at any time. -/
theorem Planted.nodup_named {f : Forest Vertex} {trees : List (Tree Vertex)} (h : Planted f trees)
    {parts : List (List Step)} (hp : List.Forall₂ Started trees parts) :
    (namedBy parts.flatten ++
      ((facets trees).flatMap fun t => reach t.below).map Vertex.id).Nodup := by
  refine List.Nodup.sublist ((named_sublist_of_started hp).append (.refl _)) ?_
  rw [← List.map_append]
  exact ((perm_parts trees).map Vertex.id).nodup_iff.mpr h.nodup_ids

-- ---------------------------------------------------------------------------
-- The name of a node
-- ---------------------------------------------------------------------------

theorem mem_namesOf : (id, n) ∈ namesOf steps ↔ .name id n ∈ steps := by
  rw [mem_collect]
  constructor
  · rintro ⟨step, hs, h⟩
    cases step <;> simp_all
  · exact fun h => ⟨_, h, rfl⟩

theorem name_unique (hn : (namedBy steps).Nodup) (h : .name id n ∈ steps) (h' : .name id m ∈ steps) :
    n = m := by
  have := List.inj_on_of_nodup_map hn (mem_namesOf.mpr h) (mem_namesOf.mpr h') rfl
  exact congrArg Prod.snd this

theorem mem_of_nameOf? (h : Trail.nameOf? { steps } id = some n) : .name id n ∈ steps := by
  obtain ⟨step, hs, hn⟩ := List.exists_of_findSome?_eq_some h
  have hs := List.mem_reverse.mp hs
  cases step with
  | name other m =>
    obtain ⟨rfl, rfl⟩ : other = id ∧ m = n := by simpa using hn
    exact hs
  | _ => simp at hn

theorem nameOf?_eq_some (hn : (namedBy steps).Nodup) (h : .name id n ∈ steps) :
    Trail.nameOf? { steps } id = some n := by
  unfold Trail.nameOf?
  cases he : steps.reverse.findSome? _ with
  | none =>
    rw [List.findSome?_eq_none_iff] at he
    simpa using he _ (List.mem_reverse.mpr h)
  | some m =>
    obtain ⟨step, hs, hm⟩ := List.exists_of_findSome?_eq_some he
    have hs := List.mem_reverse.mp hs
    cases step with
    | name other m' =>
      obtain ⟨rfl, rfl⟩ : other = id ∧ m' = m := by simpa using hm
      rw [name_unique hn h hs]
    | _ => simp at hm

-- ---------------------------------------------------------------------------
-- The names of sources
-- ---------------------------------------------------------------------------

theorem Passed.not_source (h : Passed above v below r new p) (hn : .name id n ∈ new) :
    v.id = id ∧ v.node.isSource = false := by
  have hid := h.named_sublist.subset (List.mem_map_of_mem (mem_namesOf.mpr hn))
  refine ⟨(List.mem_singleton.mp hid).symm, ?_⟩
  cases h with
  | row => simp at hn
  | _ hv => rw [hv]; rfl

theorem HandedOver.notMem (h : HandedOver r row new q) : .name id n ∉ new := fun hn => by
  have hmem := mem_namesOf.mpr hn
  rw [h.namesOf] at hmem
  cases hmem

theorem Walked.exists_named (h : Walked above r row new) (hn : .name id n ∈ new) :
    ∃ v ∈ row.toList, v.id = id ∧ v.node.isSource = false := by
  induction h with
  | nil => cases hn
  | stop h _ ih =>
    rcases List.mem_append.mp hn with hn | hn
    · exact ⟨_, List.mem_cons_self .., h.not_source hn⟩
    · obtain ⟨v, hv, hnot⟩ := ih hn
      exact ⟨v, List.mem_cons_of_mem _ (List.mem_append_right _ hv), hnot⟩
  | through h hh _ _ ihb ihr =>
    rcases List.mem_append.mp hn with hn | hn
    · rcases List.mem_append.mp hn with hn | hn
      · rcases List.mem_append.mp hn with hn | hn
        · exact ⟨_, List.mem_cons_self .., h.not_source hn⟩
        · exact absurd hn hh.notMem
      · obtain ⟨v, hv, hnot⟩ := ihb hn
        exact ⟨v, List.mem_cons_of_mem _ (List.mem_append_left _ hv), hnot⟩
    · obtain ⟨v, hv, hnot⟩ := ihr hn
      exact ⟨v, List.mem_cons_of_mem _ (List.mem_append_right _ hv), hnot⟩

theorem Started.exists_named (h : Started t new) (hn : .name id n ∈ new) :
    id = t.label.id ∨ ∃ v ∈ t.below.toList, v.id = id ∧ v.node.isSource = false := by
  cases h with
  | source _ hh hw =>
    rw [List.cons_append, List.cons_append, List.mem_cons] at hn
    rcases hn with he | hn
    · cases he
      exact .inl rfl
    · rcases List.mem_append.mp hn with hn | hn
      · rcases List.mem_append.mp hn with hn | hn
        · simp at hn
        · exact absurd hn hh.notMem
      · exact .inr (hw.exists_named hn)
  | stray => simp at hn

end ChartPipeline.Assembly
