import ChartPipeline.Proofs.Record.Unfolding
import ChartPipeline.Assembly

/-!
# What an assembly notes

Every part of an assembly only adds steps to the trail. Which steps these are is said here once and
for all: `Completed`, `Passed`, `HandedOver` and `Walked` for records on their way down, `Started`
for a source, and `Opened` and `Continued` for the facets that follow. Names that are made up are
not told apart by their numbers.
-/

namespace ChartPipeline.Assembly

-- ---------------------------------------------------------------------------
-- Adding steps
-- ---------------------------------------------------------------------------

/-- From a trail on, the computation adds steps that satisfy a condition together with its
result. -/
def Adds (m : Walk α) (t : Trail) (Q : α → List Step → Prop) : Prop :=
  ∃ new, (m.run t).2.steps = t.steps ++ new ∧ Q (m.run t).1 new

namespace Adds

variable {m : Walk α} {t : Trail} {Q R : α → List Step → Prop}

theorem pure {a : α} (h : Q a []) : Adds (pure a) t Q := ⟨[], (List.append_nil _).symm, h⟩

theorem mono (h : Adds m t Q) (hr : ∀ a new, Q a new → R a new) : Adds m t R := by
  obtain ⟨new, hnew, hq⟩ := h
  exact ⟨new, hnew, hr _ _ hq⟩

theorem bind {f : α → Walk β} {R : β → List Step → Prop} (h : Adds m t Q)
    (hf : ∀ a new t', t'.steps = t.steps ++ new → Q a new →
      Adds (f a) t' fun b more => R b (new ++ more)) : Adds (m >>= f) t R := by
  obtain ⟨new, hnew, hq⟩ := h
  obtain ⟨more, hmore, hr⟩ := hf _ new (m.run t).2 hnew hq
  refine ⟨new ++ more, ?_, hr⟩
  calc ((m >>= f).run t).2.steps
      = (m.run t).2.steps ++ more := hmore
    _ = t.steps ++ (new ++ more) := by rw [hnew, List.append_assoc]

theorem noteAll_bind {steps : List Step} {f : Unit → Walk β} {R : β → List Step → Prop}
    (h : ∀ t', Adds (f ()) t' fun b more => R b (steps ++ more)) :
    Adds (noteAll steps >>= f) t R :=
  bind (Q := fun _ new => new = steps) ⟨steps, rfl, rfl⟩ fun _ _ t' _ hn => hn ▸ h t'

theorem note_bind {step : Step} {f : Unit → Walk β} {R : β → List Step → Prop}
    (h : ∀ t', Adds (f ()) t' fun b more => R b (step :: more)) : Adds (note step >>= f) t R :=
  bind (Q := fun _ new => new = [step]) ⟨[step], rfl, rfl⟩ fun _ _ t' _ hn => hn ▸ h t'

theorem recordName_bind {f : String → Walk β} {R : β → List Step → Prop}
    (h : ∀ k t', Adds (f ("data_" ++ Nat.repr k)) t' R) : Adds (recordName >>= f) t R :=
  h t.nextRecord { t with nextRecord := t.nextRecord + 1 }

theorem sourceName_bind {f : String → Walk β} {R : β → List Step → Prop}
    (h : ∀ k t', Adds (f ("source_" ++ Nat.repr k)) t' R) : Adds (sourceName >>= f) t R :=
  h t.nextSource { t with nextSource := t.nextSource + 1 }

end Adds

-- ---------------------------------------------------------------------------
-- What steps tell
-- ---------------------------------------------------------------------------

namespace Step

@[simp] def naming? : Step → Option (NodeId × String)
  | .name node record => some (node, record)
  | _ => none

@[simp] def emitted? : Step → Option Record
  | .emit r => some r
  | _ => none

@[simp] def indexed? : Step → Option Record
  | .index r => some r
  | _ => none

attribute [simp] record? cause?

end Step

def collect (f : Step → Option β) (steps : List Step) : List β := steps.filterMap f

section

variable (f : Step → Option β) (steps more : List Step)

@[simp] theorem collect_nil : collect f [] = [] := rfl

@[simp] theorem collect_cons (step : Step) :
    collect f (step :: steps) = (f step).toList ++ collect f steps := by
  cases h : f step <;> simp [collect, h]

@[simp] theorem collect_append : collect f (steps ++ more) = collect f steps ++ collect f more :=
  List.filterMap_append

@[simp] theorem collect_map {γ : Type} (g : γ → Step) (xs : List γ) :
    collect f (xs.map g) = xs.filterMap (f ∘ g) := by
  simp [collect]

theorem mem_collect {b : β} : b ∈ collect f steps ↔ ∃ step ∈ steps, f step = some b :=
  List.mem_filterMap

end

abbrev recordsOf : List Step → List Record := collect Step.record?

abbrev emittedOf : List Step → List Record := collect Step.emitted?

abbrev indexedOf : List Step → List Record := collect Step.indexed?

abbrev namesOf : List Step → List (NodeId × String) := collect Step.naming?

abbrev causesOf : List Step → List CompileError := collect Step.cause?

-- ---------------------------------------------------------------------------
-- Records on their way down
-- ---------------------------------------------------------------------------

/-- A record is complete under a name: its own, or one that is made up. Of an alias nothing is
left but the name that it refers to. -/
inductive Completed (r : Record) : List Step → String → Prop
  | refer : r = .ofSource s → Completed r [] s
  | emit : r.isAlias = false → (∀ own, r.name = some own → own = n) →
      Completed r [.emit { r with name := some n }] n

inductive Passed (above : Node) (v : Vertex) (below : Forest Vertex) (r : Record) :
    List Step → Option Record → Prop
  | parse : v.node = .parse c →
      Passed above v below r (if above.isSource then [] else [.fail (.misplacedParse v.id)]) (some r)
  /-- Nothing has to be addressable here, or what is addressable is complete already. -/
  | ignored : v.node = .checkpoint c → Graph.demands (some above) v.node = false ∨ r.isAlias = true →
      Passed above v below r ((r.name <|> r.source).toList.map (.name v.id)) (some r)
  /-- At the end of a path the record only gets its name. -/
  | last : v.node = .checkpoint c → r.isAlias = false → below = .nil → n = r.name.getD c.name →
      Passed above v below r [.name v.id n] (some { r with name := some n })
  | sealed : v.node = .checkpoint c → r.isAlias = false → n = r.name.getD c.name →
      Passed above v below r
        [.emit { r with name := some n }, .tell (.sealed c.name n), .name v.id n]
        (some (.ofSource n))
  | facet : v.node = .facet f → Completed r new n →
      Passed above v below r (new ++ [.name v.id n]) none
  | row : v.node.isParse = false → v.node.isCheckpoint = false → v.node.isFacet = false →
      Passed above v below r (v.node.notices.map .tell)
        (some { r with transform := r.transform ++ v.node.transforms })

inductive HandedOver (r : Record) : Forest Vertex → List Step → Record → Prop
  | dropped : r.isAlias = true → HandedOver r .nil [] r
  | leaf : r.isAlias = false → HandedOver r .nil [.emit r] r
  | only : HandedOver r (.cons v below .nil) [] r
  | fork : Completed r new n →
      HandedOver r (.cons v below (.cons w under rest)) new (.ofSource n)

inductive Walked : Node → Record → Forest Vertex → List Step → Prop
  | nil : Walked above r .nil []
  | stop : Passed above v below r first none → Walked above r rest last →
      Walked above r (.cons v below rest) (first ++ last)
  | through : Passed above v below r first (some p) → HandedOver p below second q →
      Walked v.node q below third → Walked above r rest last →
      Walked above r (.cons v below rest) (first ++ second ++ third ++ last)

theorem Passed.not_facet (h : Passed above v below r new (some p)) : v.node.isFacet = false := by
  cases h with
  | row _ _ hf => exact hf
  | _ hv => rw [hv]; rfl

theorem complete_adds (r : Record) (t : Trail) :
    Adds (complete r) t fun n new => Completed r new n := by
  unfold complete Record.aliased?
  by_cases ha : r.isAlias = true
  · obtain ⟨s, rfl⟩ := Record.isAlias_iff.mp ha
    exact .pure (.refer rfl)
  · have ha : r.isAlias = false := by simpa using ha
    simp only [ha, Bool.false_eq_true, ↓reduceIte]
    cases hn : r.name with
    | some name =>
      simp only [pure_bind]
      exact .note_bind fun t' => .pure (.emit ha (by simp [hn]))
    | none =>
      exact .recordName_bind fun k t' => .note_bind fun t' => .pure (.emit ha (by simp [hn]))

theorem atCheckpoint_adds {v : Vertex} {c : Checkpoint} (hv : v.node = .checkpoint c) (above : Node)
    (below : Forest Vertex) (r : Record) (t : Trail) :
    Adds (atCheckpoint above v.id c below r) t fun p new => Passed above v below r new (some p) := by
  unfold atCheckpoint
  split
  · rename_i h
    simp only [Bool.or_eq_true, Bool.not_eq_eq_eq_not, Bool.not_true] at h
    refine .noteAll_bind fun t' => .pure ?_
    rw [List.append_nil]
    exact .ignored hv (by rwa [hv])
  · rename_i h
    have ha : r.isAlias = false := by simp only [Bool.or_eq_true, not_or] at h; simpa using h.2
    cases below with
    | nil => exact .note_bind fun t' => .pure (.last hv ha rfl rfl)
    | cons => exact .noteAll_bind fun t' => .pure (.sealed hv ha rfl)

theorem pass_adds (above : Node) (v : Vertex) (below : Forest Vertex) (r : Record) (t : Trail) :
    Adds (pass above v below r) t fun next new => Passed above v below r new next := by
  unfold pass
  split
  · rename_i c hv
    have hp : Passed above v below r _ (some r) := .parse hv
    split at hp
    · rename_i hs
      simpa [hs] using Adds.pure hp
    · rename_i hs
      simp only [hs]
      exact .note_bind fun t' => .pure hp
  · rename_i c hv
    refine .bind (atCheckpoint_adds hv above below r t) fun p new t' _ h => .pure ?_
    rwa [List.append_nil]
  · rename_i f hv
    refine .bind (complete_adds r t) fun n new t' _ h => ?_
    exact .note_bind fun t' => .pure (.facet hv h)
  · rename_i hparse hcheckpoint hfacet
    refine .noteAll_bind fun t' => .pure ?_
    rw [List.append_nil]
    refine .row ?_ ?_ ?_ <;> cases hv : v.node <;> simp_all [Node.isParse, Node.isCheckpoint, Node.isFacet]

theorem handOver_adds (row : Forest Vertex) (r : Record) (t : Trail) :
    Adds (handOver row r) t fun q new => HandedOver r row new q := by
  unfold handOver
  split
  · by_cases ha : r.isAlias = true
    · simpa [ha] using Adds.pure (HandedOver.dropped ha)
    · have ha : r.isAlias = false := by simpa using ha
      simp only [ha]
      exact .note_bind fun t' => .pure (.leaf ha)
  · exact .pure .only
  · rename_i v below rest hrest
    cases rest with
    | nil => exact absurd rfl hrest
    | cons w inner rest =>
      refine .bind (complete_adds r t) fun n new t' _ h => .pure ?_
      rw [List.append_nil]
      exact .fork h

theorem walk_adds (above : Node) (r : Record) (row : Forest Vertex) (t : Trail) :
    Adds (walk above r row) t fun _ new => Walked above r row new := by
  induction row generalizing above r t with
  | nil => exact .pure .nil
  | cons v below rest ihb ihr =>
    unfold walk
    refine .bind (pass_adds above v below r t) fun next first t1 _ hp => ?_
    cases next with
    | none => exact .mono (ihr above r t1) fun _ last hl => .stop hp hl
    | some p =>
      refine .bind (handOver_adds below p t1) fun q second t2 _ hh => ?_
      refine .bind (ihb v.node q t2) fun _ third t3 _ hw => ?_
      refine .mono (ihr above r t3) fun _ last hl => ?_
      simpa only [List.append_assoc] using Walked.through hp hh hw hl

-- ---------------------------------------------------------------------------
-- Sources and facets
-- ---------------------------------------------------------------------------

def seedRecord (s : Source) (name : String) (below : Forest Vertex) : Record :=
  ({ s with name := some name } : Source).record.withCoercions
    (.mergeAll (below.roots.filterMap (·.node.coercions?)))

inductive Started (t : Tree Vertex) : List Step → Prop
  | source {told : List Event} : t.label.node = .source s →
      HandedOver (seedRecord s n t.below) t.below first q → Walked t.label.node q t.below last →
      Started t (.name t.label.id n :: told.map .tell ++ first ++ last)
  | stray : t.label.node.isSource = false →
      Started t [.fail (.invalidSpec (.rootIsNoSource t.label.id))]

inductive Opened (before : List Step) (t : Tree Vertex) : List Step → Prop
  | facet : t.label.node = .facet f →
      Trail.nameOf? { steps := before } t.label.id = some n →
      Walked t.label.node (.ofSource n) t.below last →
      Opened before t (({ f with source := some n } : FacetSplit).records.map .index ++ last)
  | skipped : t.label.node.isFacet = false ∨ Trail.nameOf? { steps := before } t.label.id = none →
      Opened before t []

inductive Continued : List Step → List (Tree Vertex) → List Step → Prop
  | nil : Continued before [] []
  | cons : Opened before t first → Continued (before ++ first) rest last →
      Continued before (t :: rest) (first ++ last)

theorem seed_adds (id : NodeId) (s : Source) (below : Forest Vertex) (t : Trail) :
    Adds (seed id s below) t fun r new => ∃ n, ∃ told : List Event, r = seedRecord s n below ∧
      new = .name id n :: told.map .tell := by
  -- whichever way the name is found, the rest of the computation is the same
  have hrest (n : String) (t' : Trail) :
      Adds (do
        note (.name id n)
        let coercions := below.roots.filterMap (·.node.coercions?)
        noteAll ((Coercions.conflictsFrom [] coercions).map fun c => .tell (.coercionReplaced c))
        return ({ s with name := some n } : Source).record.withCoercions (.mergeAll coercions)) t'
        fun r new => ∃ n, ∃ told : List Event, r = seedRecord s n below ∧
          new = .name id n :: told.map .tell := by
    refine .note_bind fun t' => .noteAll_bind fun t' => .pure ⟨n, List.map Event.coercionReplaced
      (Coercions.conflictsFrom [] (below.roots.filterMap (·.node.coercions?))), rfl, ?_⟩
    rw [List.append_nil, List.map_map]
    rfl
  unfold seed
  refine .bind (Q := fun t' new => new = []) ⟨[], (List.append_nil _).symm, rfl⟩ ?_
  rintro t' _ t1 - rfl
  simp only [List.nil_append]
  split
  · simp only [pure_bind]
    exact hrest _ t1
  · exact .sourceName_bind fun k t' => hrest _ t'

theorem fromRoot_adds (tree : Tree Vertex) (t : Trail) :
    Adds (fromRoot tree) t fun _ new => Started tree new := by
  unfold fromRoot
  split
  · rename_i s hs
    refine .bind (seed_adds _ s tree.below t) ?_
    rintro _ _ t1 - ⟨n, told, rfl, rfl⟩
    refine .bind (handOver_adds tree.below _ t1) fun q first t2 _ hh => ?_
    refine .mono (walk_adds _ q tree.below t2) fun _ last hw => ?_
    have h : Started tree (.name tree.label.id n :: told.map .tell ++ first ++ last) :=
      .source hs hh hw
    simpa only [List.append_assoc, List.cons_append] using h
  · rename_i hs
    refine ⟨_, rfl, .stray ?_⟩
    cases hv : tree.label.node <;> simp_all [Node.isSource]

theorem fromFacet_adds (tree : Tree Vertex) (t : Trail) :
    Adds (fromFacet tree) t fun _ new => Opened t.steps tree new := by
  unfold fromFacet
  refine .bind (Q := fun t' new => t' = t ∧ new = []) ⟨[], (List.append_nil _).symm, rfl, rfl⟩ ?_
  rintro _ _ t1 - ⟨rfl, rfl⟩
  simp only [List.nil_append]
  split
  · rename_i f n hf hn
    refine .noteAll_bind fun t' => .mono (walk_adds _ _ tree.below t') fun _ last hw => ?_
    exact .facet hf hn hw
  · rename_i hnot
    refine .pure (.skipped ?_)
    cases hv : tree.label.node with
    | facet f =>
      refine .inr (Option.eq_none_iff_forall_ne_some.mpr fun n hn => ?_)
      exact hnot f n hv hn
    | _ => exact .inl rfl

theorem forM_fromRoot_adds (trees : List (Tree Vertex)) (t : Trail) :
    Adds (trees.forM fromRoot) t fun _ new =>
      ∃ parts, List.Forall₂ Started trees parts ∧ new = parts.flatten := by
  induction trees generalizing t with
  | nil => exact .pure ⟨[], .nil, rfl⟩
  | cons tree trees ih =>
    refine .bind (fromRoot_adds tree t) fun _ first t1 _ hs => .mono (ih t1) ?_
    rintro _ _ ⟨parts, hp, rfl⟩
    exact ⟨first :: parts, .cons hs hp, rfl⟩

theorem forM_fromFacet_adds (trees : List (Tree Vertex)) (t : Trail) :
    Adds (trees.forM fromFacet) t fun _ new => Continued t.steps trees new := by
  induction trees generalizing t with
  | nil => exact .pure .nil
  | cons tree trees ih =>
    refine .bind (fromFacet_adds tree t) fun _ first t1 ht ho => .mono (ih t1) fun _ last hl => ?_
    exact .cons ho (ht ▸ hl)

theorem exists_of_run (trees : List (Tree Vertex)) : ∃ parts last,
    ((run trees).run {}).2.steps = parts.flatten ++ last ∧ List.Forall₂ Started trees parts ∧
      Continued parts.flatten (facets trees) last := by
  have h : Adds (run trees) {} fun _ new => ∃ parts last, new = parts.flatten ++ last ∧
      List.Forall₂ Started trees parts ∧ Continued parts.flatten (facets trees) last := by
    unfold run
    refine .bind (forM_fromRoot_adds trees {}) ?_
    rintro _ _ t1 ht ⟨parts, hp, rfl⟩
    refine .mono (forM_fromFacet_adds (facets trees) t1) fun _ last hc => ?_
    exact ⟨parts, last, rfl, hp, (show t1.steps = parts.flatten from ht) ▸ hc⟩
  obtain ⟨new, hnew, h⟩ := h
  rw [hnew]
  exact h

end ChartPipeline.Assembly
