import ChartPipeline.Proofs.Assembly.Content

/-!
# What goes wrong

Below sources an assembly fails only at parse nodes that are not directly below a source, and it
finds each of them (`Planted.mem_causes`).
-/

namespace ChartPipeline.Assembly

open Forest (Leads)

def Misplaced (above n : Node) : Prop := n.isParse = true ∧ above.isSource = false

/-- A walk down the row comes to a misplaced node, which is the cause. -/
def FailsIn (above : Node) (row : Forest Vertex) (cause : CompileError) : Prop :=
  ∃ path t, row.Leads path t ∧ (∀ v ∈ path.dropLast, v.node.isFacet = false) ∧
    Misplaced (nodeAbove above path) t.label.node ∧ cause = .misplacedParse t.label.id

variable {above : Node} {v : Vertex} {below row rest : Forest Vertex} {r q : Record}
  {p : Option Record} {before new : List Step} {n : String} {cause : CompileError}

theorem failsIn_nil : ¬ FailsIn above .nil cause := by
  rintro ⟨path, t, h, -⟩
  cases h

theorem failsIn_cons : FailsIn above (.cons v below rest) cause ↔
    (Misplaced above v.node ∧ cause = .misplacedParse v.id) ∨
      (v.node.isFacet = false ∧ FailsIn v.node below cause) ∨ FailsIn above rest cause := by
  constructor
  · rintro ⟨path, t, h, hp, hm, hc⟩
    cases h with
    | here => exact .inl ⟨hm, hc⟩
    | down h =>
      rw [List.dropLast_cons_of_ne_nil h.ne_nil] at hp
      rw [nodeAbove_cons _ _ h.ne_nil] at hm
      obtain ⟨hv, hp⟩ := List.forall_mem_cons.mp hp
      exact .inr (.inl ⟨hv, _, t, h, hp, hm, hc⟩)
    | along h => exact .inr (.inr ⟨_, t, h, hp, hm, hc⟩)
  · rintro (⟨hm, hc⟩ | ⟨hv, path, t, h, hp, hm, hc⟩ | ⟨path, t, h, hp, hm, hc⟩)
    · exact ⟨_, _, .here, by simp, hm, hc⟩
    · refine ⟨_, t, h.down, ?_, ?_, hc⟩
      · rw [List.dropLast_cons_of_ne_nil h.ne_nil]
        exact List.forall_mem_cons.mpr ⟨hv, hp⟩
      · rwa [nodeAbove_cons _ _ h.ne_nil]
    · exact ⟨_, t, h.along, hp, hm, hc⟩

-- ---------------------------------------------------------------------------
-- Records on their way down
-- ---------------------------------------------------------------------------

theorem mem_causesOf_append {steps more : List Step} :
    cause ∈ causesOf (steps ++ more) ↔ cause ∈ causesOf steps ∨ cause ∈ causesOf more := by
  simp

theorem Completed.causesOf (h : Completed r new n) : causesOf new = [] := by
  cases h <;> simp

theorem HandedOver.causesOf (h : HandedOver r row new q) : causesOf new = [] := by
  cases h with
  | fork h => exact h.causesOf
  | _ => simp

theorem Passed.mem_causes (h : Passed above v below r new p) :
    cause ∈ causesOf new ↔ Misplaced above v.node ∧ cause = .misplacedParse v.id := by
  cases h with
  | parse hv =>
    rw [hv]
    cases ha : above.isSource <;> simp [Misplaced, Node.isParse, ha]
  | ignored hv =>
    rw [hv]
    cases r.name <|> r.source <;> simp [Misplaced, Node.isParse]
  | last hv => simp [hv, Misplaced, Node.isParse]
  | «sealed» hv => simp [hv, Misplaced, Node.isParse]
  | facet hv h => simp [hv, Misplaced, Node.isParse, h.causesOf]
  | row hv => simp [Misplaced, hv]

theorem Walked.mem_causes (h : Walked above r row new) :
    cause ∈ causesOf new ↔ FailsIn above row cause := by
  induction h with
  | nil => simp [failsIn_nil]
  | stop h _ ih =>
    obtain ⟨f, hv⟩ : ∃ f, _ = Node.facet f := by
      cases h with
      | facet hv => exact ⟨_, hv⟩
    rw [failsIn_cons, mem_causesOf_append, h.mem_causes, ih]
    simp [hv, Node.isFacet]
  | through h hh _ _ ihb ihr =>
    rw [failsIn_cons, mem_causesOf_append, mem_causesOf_append, mem_causesOf_append, hh.causesOf,
      h.mem_causes, ihb, ihr]
    simp [h.not_facet, or_assoc]

-- ---------------------------------------------------------------------------
-- Whole assemblies
-- ---------------------------------------------------------------------------

theorem Started.mem_causes {t : Tree Vertex} (h : Started t new)
    (ht : t.label.node.isSource = true) :
    cause ∈ causesOf new ↔ FailsIn t.label.node t.below cause := by
  cases h with
  | stray hs => simp [hs] at ht
  | source _ hh hw =>
    rw [mem_causesOf_append, mem_causesOf_append, hh.causesOf, hw.mem_causes]
    simp [Function.comp_def]

theorem Opened.failsIn_of_mem {t : Tree Vertex} (h : Opened before t new)
    (hc : cause ∈ causesOf new) : FailsIn t.label.node t.below cause := by
  cases h with
  | facet _ _ hw => exact hw.mem_causes.mp (by simpa [Function.comp_def] using hc)
  | skipped => simp at hc

theorem Continued.failsIn_of_mem {queue : List (Tree Vertex)} (h : Continued before queue new)
    (hc : cause ∈ causesOf new) : ∃ t ∈ queue, FailsIn t.label.node t.below cause := by
  induction h with
  | nil => simp at hc
  | @cons before t first rest last h _ ih =>
    rw [mem_causesOf_append] at hc
    rcases hc with hc | hc
    · exact ⟨t, List.mem_cons_self .., h.failsIn_of_mem hc⟩
    · obtain ⟨u, hu, h⟩ := ih hc
      exact ⟨u, List.mem_cons_of_mem _ hu, h⟩

theorem failsIn_of_started {trees : List (Tree Vertex)} {parts : List (List Step)}
    (h : List.Forall₂ Started trees parts) (hs : ∀ t ∈ trees, t.label.node.isSource = true)
    (hc : cause ∈ causesOf parts.flatten) : ∃ t ∈ trees, FailsIn t.label.node t.below cause := by
  induction h with
  | nil => simp at hc
  | @cons t part trees parts h _ ih =>
    obtain ⟨ht, hs⟩ := List.forall_mem_cons.mp hs
    rw [List.flatten_cons, mem_causesOf_append] at hc
    rcases hc with hc | hc
    · exact ⟨t, List.mem_cons_self .., (h.mem_causes ht).mp hc⟩
    · obtain ⟨u, hu, h⟩ := ih hs hc
      exact ⟨u, List.mem_cons_of_mem _ hu, h⟩

theorem nodeAbove_append (above : Node) {first last : List Vertex} {t : Tree Vertex}
    (h : row.Leads first t) (hl : last ≠ []) :
    nodeAbove above (first ++ last) = nodeAbove t.label.node last := by
  rw [nodeAbove, List.map_append, Forest.parentOn_append _ _ (by simpa using hl), List.getLast?_map,
    h.getLast?]
  rfl

theorem Planted.mem_causes {f : Forest Vertex} {trees : List (Tree Vertex)} (h : Planted f trees) :
    cause ∈ causesOf (stepsOf trees) ↔ ∃ t ∈ trees, ∃ path u, t.below.Leads path u ∧
      Misplaced (nodeAbove t.label.node path) u.label.node ∧ cause = .misplacedParse u.label.id := by
  constructor
  · intro hc
    obtain ⟨parts, last, hs, hp, hf⟩ := exists_of_run trees
    rw [stepsOf, hs, mem_causesOf_append] at hc
    rcases hc with hc | hc
    · obtain ⟨t, ht, path, u, hu, -, hm, hc⟩ := failsIn_of_started hp h.sources hc
      exact ⟨t, ht, path, u, hu, hm, hc⟩
    · obtain ⟨t, ht, path, u, hu, -, hm, hc⟩ := hf.failsIn_of_mem hc
      obtain ⟨root, hroot, -, first, hl⟩ := mem_facets.mp ht
      refine ⟨root, hroot, first ++ path, u, hl.append hu, ?_, hc⟩
      rwa [nodeAbove_append _ hl hu.ne_nil]
  · rintro ⟨t, ht, path, u, hu, hm, rfl⟩
    obtain ⟨w, rest, ⟨earlier, part, later, r, _, hs, -, -, hw⟩, hwu, hfree, he⟩ :=
      h.exists_reached ht hu
    have hc := hw.mem_causes.mpr ⟨rest, u, hwu, hfree, he ▸ hm, rfl⟩
    rw [hs]
    simp [hc]

end ChartPipeline.Assembly
