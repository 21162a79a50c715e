import ChartPipeline.Proofs.Assembly.Numbering
import ChartPipeline.Proofs.Assembly.Renaming

/-!
# Assembling again

A source that has got a name keeps it, whatever the roots are (`Steady`), and no other name that is
given is read again. So an assembly of what an assembly leaves takes the same steps and changes
nothing (`Graph.assemble_repeats`).
-/

namespace ChartPipeline

namespace Assembly

variable {above : Node} {v : Vertex} {below row f : Forest Vertex} {r : Record} {p : Option Record}
  {tree : Tree Vertex} {trees : List (Tree Vertex)} {steps new before : List Step} {t : Trail}
  {s : Source} {id : NodeId} {name : String} {ρ : Vertex → Vertex}

-- ---------------------------------------------------------------------------
-- One name for a source
-- ---------------------------------------------------------------------------

/-- All names that the steps give a source are one, which is its own if it has one. -/
def Steady (f : Forest Vertex) (steps : List Step) : Prop :=
  ∀ v ∈ f.toList, ∀ s, v.node = .source s → ∃ name, (∀ own, s.name = some own → own = name) ∧
    ∀ other, .name v.id other ∈ steps → other = name

theorem Steady.append (h : Steady f steps)
    (hn : ∀ v ∈ f.toList, v.node.isSource = true → ∀ name, .name v.id name ∉ new) :
    Steady f (steps ++ new) := by
  intro v hv s hs
  obtain ⟨name, hown, hall⟩ := h v hv s hs
  refine ⟨name, hown, fun other ho => ?_⟩
  rcases List.mem_append.mp ho with ho | ho
  · exact hall other ho
  · exact absurd ho (hn v hv (by rw [hs]; rfl) other)

theorem Steady.walked (h : Steady f steps) (hf : f.Keyed Vertex.id) (hrow : row.toList ⊆ f.toList)
    (hw : Walked above r row new) : Steady f (steps ++ new) := by
  refine h.append fun v hv hs name hn => ?_
  obtain ⟨w, hmem, hid, hnot⟩ := hw.exists_named hn
  obtain rfl : w = v := List.inj_on_of_nodup_map hf (hrow hmem) hv hid
  rw [hs] at hnot
  cases hnot

-- ---------------------------------------------------------------------------
-- The name at the start
-- ---------------------------------------------------------------------------

def carryDown (above : Node) (r : Record) (below : Forest Vertex) : Walk Unit := do
  walk above (← handOver below r) below

theorem carryDown_adds (above : Node) (r : Record) (below : Forest Vertex) (t : Trail) :
    Adds (carryDown above r below) t fun _ new =>
      ∃ q first last, HandedOver r below first q ∧ Walked above q below last ∧ new = first ++ last :=
  .bind (handOver_adds below r t) fun q first t1 _ hh =>
    .mono (walk_adds above q below t1) fun _ last hw => ⟨q, first, last, hh, hw, rfl⟩

theorem blind_carryDown (above : Node) (r : Record) (below : Forest Vertex) :
    Blind (carryDown above r below) :=
  (Blind.handOver below r).bind fun q => Blind.walk above q below

def replaced (below : Forest Vertex) : List Step :=
  (Coercions.conflictsFrom [] (below.roots.filterMap (·.node.coercions?))).map fun c =>
    .tell (.coercionReplaced c)

def started (t : Trail) (id : NodeId) (name : String) (below : Forest Vertex) (next : Nat) : Trail :=
  { t with steps := t.steps ++ [.name id name] ++ replaced below, nextSource := next }

theorem seed_run (h : (s.name <|> t.nameOf? id) = some name) : (seed id s below).run t =
    (seedRecord s name below, started t id name below t.nextSource) := by
  have hget : (get : Walk Trail).run t = (t, t) := rfl
  unfold seed
  simp only [run_bind, hget, h]
  rfl

theorem exists_seed_run (id : NodeId) (s : Source) (below : Forest Vertex) (t : Trail) :
    ∃ name next, (∀ known, (s.name <|> t.nameOf? id) = some known → known = name) ∧
      (seed id s below).run t = (seedRecord s name below, started t id name below next) := by
  cases h : s.name <|> t.nameOf? id with
  | some name => exact ⟨name, _, fun known hk => (Option.some.inj hk).symm, seed_run h⟩
  | none =>
    have hget : (get : Walk Trail).run t = (t, t) := rfl
    refine ⟨"source_" ++ Nat.repr t.nextSource, t.nextSource + 1, by simp, ?_⟩
    unfold seed
    simp only [run_bind, hget, h]
    rfl

theorem exists_fromRoot_run (hs : tree.label.node = .source s) (t : Trail) :
    ∃ name next,
      (∀ known, (s.name <|> t.nameOf? tree.label.id) = some known → known = name) ∧
      (fromRoot tree).run t =
        (carryDown (.source s) (seedRecord s name tree.below) tree.below).run
          (started t tree.label.id name tree.below next) := by
  obtain ⟨name, next, hknown, hseed⟩ := exists_seed_run tree.label.id s tree.below t
  refine ⟨name, next, hknown, ?_⟩
  unfold fromRoot
  simp only [hs, run_bind, hseed]
  rfl

theorem exists_nameOf? (h : .name id name ∈ steps) : ∃ n, Trail.nameOf? { steps } id = some n := by
  refine Option.ne_none_iff_exists'.mp fun hnone => ?_
  rw [Trail.nameOf?, List.findSome?_eq_none_iff] at hnone
  simpa using hnone _ (List.mem_reverse.mpr h)

theorem Steady.named (h : Steady f t.steps) (hf : f.Keyed Vertex.id) (hv : v ∈ f.toList)
    (hs : v.node = .source s)
    (hk : ∀ known, (s.name <|> t.nameOf? v.id) = some known → known = name) :
    Steady f (t.steps ++ [.name v.id name]) := by
  intro w hw s' hs'
  obtain ⟨n, hown, hall⟩ := h w hw s' hs'
  by_cases hid : w.id = v.id
  · obtain rfl := List.inj_on_of_nodup_map hf hw hv hid
    obtain rfl : s' = s := Node.source.inj (hs'.symm.trans hs)
    refine ⟨name, fun own ho => hk own (by rw [ho]; rfl), fun other ho => ?_⟩
    rcases List.mem_append.mp ho with ho | ho
    · -- the name that is known is the one given before
      obtain ⟨m, hm⟩ := exists_nameOf? ho
      have hmn : m = n := hall m (mem_of_nameOf? hm)
      cases hname : s'.name with
      | some own => rw [hall other ho, ← hown own hname, hk own (by rw [hname]; rfl)]
      | none => rw [hall other ho, ← hmn, hk m (by rw [hname]; exact hm)]
    · simpa using ho
  · refine ⟨n, hown, fun other ho => ?_⟩
    rcases List.mem_append.mp ho with ho | ho
    · exact hall other ho
    · simp [hid] at ho

theorem Steady.fromRoot (h : Steady f t.steps) (hf : f.Keyed Vertex.id)
    (ht : tree.toList ⊆ f.toList) : Steady f ((fromRoot tree).run t).2.steps := by
  cases hsource : tree.label.node.isSource with
  | true =>
    obtain ⟨s, hs⟩ := exists_source hsource
    obtain ⟨name, next, hknown, hrun⟩ := exists_fromRoot_run hs t
    obtain ⟨hroot, hbelow⟩ := List.cons_subset.mp ht
    obtain ⟨new, hnew, q, first, last, hhand, hwalk, rfl⟩ := carryDown_adds (.source s)
      (seedRecord s name tree.below) tree.below (started t tree.label.id name tree.below next)
    have hnamed := h.named hf hroot hs hknown
    have hreplaced : Steady f (t.steps ++ [.name tree.label.id name] ++ replaced tree.below) :=
      hnamed.append (by simp [replaced])
    rw [hrun, hnew, ← List.append_assoc]
    exact (hreplaced.append fun _ _ _ _ => hhand.notMem).walked hf hbelow hwalk
  | false =>
    obtain ⟨new, hnew, hstarted⟩ := fromRoot_adds tree t
    cases hstarted with
    | source hs => simp [hs, Node.isSource] at hsource
    | stray => exact hnew ▸ h.append (by simp)

theorem Steady.fromFacet (h : Steady f t.steps) (hf : f.Keyed Vertex.id)
    (ht : tree.toList ⊆ f.toList) : Steady f ((fromFacet tree).run t).2.steps := by
  obtain ⟨new, hnew, hopened⟩ := fromFacet_adds tree t
  rw [hnew]
  cases hopened with
  | facet _ _ hw =>
    rw [← List.append_assoc]
    exact (h.append (by simp)).walked hf (List.cons_subset.mp ht).2 hw
  | skipped => rwa [List.append_nil]

theorem Steady.forM {m : Tree Vertex → Walk Unit}
    (hm : ∀ tree ∈ trees, ∀ t, Steady f t.steps → Steady f ((m tree).run t).2.steps)
    (h : Steady f t.steps) : Steady f ((trees.forM m).run t).2.steps := by
  induction trees generalizing t with
  | nil => exact h
  | cons tree trees ih =>
    obtain ⟨hfirst, hrest⟩ := List.forall_mem_cons.mp hm
    exact ih hrest (hfirst t h)

/-- However often the roots repeat, and wherever they stand, a source gets one name. -/
theorem steady_stepsOf (hf : f.Keyed Vertex.id) (ht : ∀ t ∈ trees, t.toList ⊆ f.toList) :
    Steady f (stepsOf trees) := by
  have hnone : Steady f ({} : Trail).steps := by
    intro v _ s _
    cases hn : s.name with
    | some own => exact ⟨own, fun _ ho => (Option.some.inj ho).symm, by simp⟩
    | none => exact ⟨"", by simp, by simp⟩
  have hroots := hnone.forM fun t hmem _ h => h.fromRoot hf (ht t hmem)
  refine hroots.forM fun u hmem _ h => h.fromFacet hf ?_
  obtain ⟨root, hroot, -, path, hu⟩ := mem_facets.mp hmem
  exact fun v hv => ht root hroot (List.mem_cons_of_mem _ (hu.sublist.subset hv))

-- ---------------------------------------------------------------------------
-- The same steps again
-- ---------------------------------------------------------------------------

theorem seed_again (hρ : Renames ρ) (v : Vertex) (s : Source) (name : String)
    (below : Forest Vertex) (t : Trail) :
    (seed (ρ v).id { s with name := some name } (below.map ρ)).run t =
      (seedRecord s name below, started t v.id name below t.nextSource) := by
  have hcoercions : (below.map ρ).roots.filterMap (·.node.coercions?) =
      below.roots.filterMap (·.node.coercions?) := by
    rw [Forest.roots_map, List.filterMap_map]
    exact List.filterMap_congr fun v _ => hρ.coercions?_eq v
  rw [seed_run rfl, hρ.id_eq, seedRecord, hcoercions, started, replaced, hcoercions]
  rfl

theorem carryDown_map (hρ : Renames ρ) (v : Vertex) (r : Record) (below : Forest Vertex) :
    carryDown (ρ v).node r (below.map ρ) = carryDown v.node r below := by
  unfold carryDown
  simp only [handOver_map, walk_map hρ]

theorem fromRoot_again (hρ : Renames ρ) (hs : tree.label.node = .source s)
    (hn : ∀ name, .name tree.label.id name ∈ ((fromRoot tree).run t).2.steps →
      (ρ tree.label).node = .source { s with name := some name }) (k : Nat) :
    (fromRoot (tree.map ρ)).run { t with nextSource := k } =
      ((), { ((fromRoot tree).run t).2 with nextSource := k }) := by
  obtain ⟨name, next, -, hrun⟩ := exists_fromRoot_run hs t
  obtain ⟨new, hnew, -⟩ := carryDown_adds (.source s) (seedRecord s name tree.below) tree.below
    (started t tree.label.id name tree.below next)
  have hnode : (ρ tree.label).node = .source { s with name := some name } :=
    hn name (by rw [hrun, hnew]; simp [started])
  have hcarry : carryDown (.source { s with name := some name }) (seedRecord s name tree.below)
      (tree.below.map ρ) = carryDown (.source s) (seedRecord s name tree.below) tree.below := by
    rw [← hnode, ← hs]
    exact carryDown_map hρ tree.label _ tree.below
  have hagain : (fromRoot (tree.map ρ)).run { t with nextSource := k } =
      (carryDown (.source s) (seedRecord s name tree.below) tree.below).run
        (started t tree.label.id name tree.below k) := by
    rw [← hcarry]
    unfold fromRoot Tree.map
    simp only [hnode, run_bind, seed_again hρ]
    rfl
  rw [hagain, hrun]
  exact blind_carryDown _ _ _ (started t tree.label.id name tree.below next) k

theorem forM_fromRoot_again (hρ : Renames ρ)
    (hn : ∀ tree ∈ trees, ∃ s, tree.label.node = .source s ∧
      ∀ name, .name tree.label.id name ∈ ((trees.forM fromRoot).run t).2.steps →
        (ρ tree.label).node = .source { s with name := some name }) (k : Nat) :
    ((trees.map (Tree.map ρ)).forM fromRoot).run { t with nextSource := k } =
      ((), { ((trees.forM fromRoot).run t).2 with nextSource := k }) := by
  induction trees generalizing t with
  | nil => rfl
  | cons tree trees ih =>
    obtain ⟨⟨s, hs, hfirst⟩, hrest⟩ := List.forall_mem_cons.mp hn
    obtain ⟨more, hmore, -⟩ := forM_fromRoot_adds trees ((fromRoot tree).run t).2
    have hkept : ((fromRoot tree).run t).2.steps ⊆
        (((tree :: trees).forM fromRoot).run t).2.steps :=
      fun step hstep => hmore ▸ List.mem_append_left _ hstep
    have hone := fromRoot_again hρ hs (fun name hmem => hfirst name (hkept hmem)) k
    calc (((tree :: trees).map (Tree.map ρ)).forM fromRoot).run { t with nextSource := k }
        = ((trees.map (Tree.map ρ)).forM fromRoot).run
            ((fromRoot (tree.map ρ)).run { t with nextSource := k }).2 := rfl
      _ = ((trees.map (Tree.map ρ)).forM fromRoot).run
            { ((fromRoot tree).run t).2 with nextSource := k } := by rw [hone]
      _ = _ := ih hrest

theorem Blind.fromFacet (tree : Tree Vertex) : Blind (fromFacet tree) := by
  intro t k
  have hget (t : Trail) : (get : Walk Trail).run t = (t, t) := rfl
  have hname : ({ t with nextSource := k } : Trail).nameOf? tree.label.id =
      t.nameOf? tree.label.id := rfl
  unfold Assembly.fromFacet
  simp only [run_bind, hget, hname]
  split
  · exact (Blind.noteAll _).bind (fun _ => Blind.walk _ _ _) t k
  · rfl

theorem Blind.forM {m : Tree Vertex → Walk Unit} (trees : List (Tree Vertex))
    (h : ∀ tree, Blind (m tree)) : Blind (trees.forM m) := by
  induction trees with
  | nil => exact Blind.pure ()
  | cons tree trees ih => exact (h tree).bind fun _ => ih

theorem Steady.renamed_source (h : Steady f steps) (hv : v ∈ f.toList) (hs : v.node = .source s)
    (hn : .name v.id name ∈ steps) : (renamed steps v).node = .source { s with name := some name } := by
  obtain ⟨n, -, hall⟩ := h v hv s hs
  obtain ⟨m, hm⟩ := exists_nameOf? hn
  have hmn : m = name := (hall m (mem_of_nameOf? hm)).trans (hall name hn).symm
  rw [renamed, hm, hmn]
  simp [hs, Node.named]

/-- The steps are the same if every node has already the last name that they give it. -/
theorem stepsOf_again (hf : f.Keyed Vertex.id) (ht : ∀ t ∈ trees, t.toList ⊆ f.toList)
    (hs : ∀ t ∈ trees, t.label.node.isSource = true) :
    stepsOf (trees.map (Tree.map (renamed (stepsOf trees)))) = stepsOf trees := by
  have hρ := renames_renamed (stepsOf trees)
  have hsteady := steady_stepsOf hf ht
  generalize hsteps : stepsOf trees = steps at hρ hsteady ⊢
  have hkept : ((trees.forM fromRoot).run {}).2.steps ⊆ steps := by
    obtain ⟨last, hlast, -⟩ := forM_fromFacet_adds (facets trees) ((trees.forM fromRoot).run {}).2
    have hall : stepsOf trees = ((trees.forM fromRoot).run {}).2.steps ++ last := hlast
    rw [← hsteps, hall]
    exact List.subset_append_left ..
  have hnamed : ∀ tree ∈ trees, ∃ s, tree.label.node = .source s ∧
      ∀ name, .name tree.label.id name ∈ ((trees.forM fromRoot).run {}).2.steps →
        (renamed steps tree.label).node = .source { s with name := some name } := by
    intro tree hmem
    obtain ⟨s, hv⟩ := exists_source (hs tree hmem)
    have hroot : tree.label ∈ f.toList := ht tree hmem List.mem_cons_self
    exact ⟨s, hv, fun name hname => hsteady.renamed_source hroot hv (hkept hname)⟩
  have hroots := forM_fromRoot_again hρ hnamed 0
  have hqueue := Blind.forM (facets trees) Blind.fromFacet ((trees.forM fromRoot).run {}).2 0
  calc stepsOf (trees.map (Tree.map (renamed steps)))
      = (((facets (trees.map (Tree.map (renamed steps)))).forM fromFacet).run
          (((trees.map (Tree.map (renamed steps))).forM fromRoot).run {}).2).2.steps := rfl
    _ = (((facets trees).forM fromFacet).run
          { ((trees.forM fromRoot).run {}).2 with nextSource := 0 }).2.steps := by
        rw [facets_map hρ, forM_fromFacet_map hρ]
        exact congrArg (fun result : Unit × Trail =>
          (((facets trees).forM fromFacet).run result.2).2.steps) hroots
    _ = (((facets trees).forM fromFacet).run ((trees.forM fromRoot).run {}).2).2.steps := by
        rw [hqueue]
    _ = stepsOf trees := rfl
    _ = steps := hsteps

end Assembly

namespace Graph

open Assembly

variable {g : Graph} {roots : List NodeId} {records : List Record}

/-- An assembly of sources only names things, and does nothing more when it is done again. The
sources may stand twice in the list and below each other. -/
theorem assemble_repeats (hg : g.Reachable)
    (hr : ∀ root ∈ roots, (g.node? root).any Node.isSource = true)
    (hok : (g.assemble roots).records = .ok records) :
    OnlyNames g (g.assemble roots).graph ∧
      ((g.assemble roots).graph.assemble roots).records = .ok records ∧
      ((g.assemble roots).graph.assemble roots).graph = (g.assemble roots).graph := by
  have hkeyed : g.forest.Keyed Vertex.id := hg.wellFormed.keyed
  have hin : ∀ t ∈ g.treesAt roots, t.toList ⊆ g.forest.toList := by
    intro t ht
    obtain ⟨root, -, ht⟩ := List.mem_filterMap.mp ht
    obtain ⟨-, path, hl⟩ := leads_of_tree? ht
    exact hl.sublist.subset
  have hsources : ∀ t ∈ g.treesAt roots, t.label.node.isSource = true := by
    intro t ht
    obtain ⟨root, hroot, ht⟩ := List.mem_filterMap.mp ht
    have hs := hr root hroot
    rwa [node?, ht] at hs
  have hgraph : (g.assemble roots).graph = (g.stepsOf roots).foldl Step.apply g := graph_of_ok hok
  have hforest : (g.assemble roots).graph =
      { g with forest := g.forest.map (renamed (g.stepsOf roots)) } := by
    rw [hgraph, foldl_apply]
  have htrees : (g.assemble roots).graph.treesAt roots =
      (g.treesAt roots).map (Tree.map (renamed (g.stepsOf roots))) := by
    rw [hforest, treesAt, treesAt, List.map_filterMap]
    exact List.filterMap_congr fun root _ => tree?_map (renames_renamed _) g root
  have hsteps : (g.assemble roots).graph.stepsOf roots = g.stepsOf roots := by
    rw [stepsOf, htrees]
    exact stepsOf_again hkeyed hin hsources
  have hagain : ((g.assemble roots).graph.assemble roots).records = .ok records := by
    rw [assemble_eq, hsteps]
    exact hok
  refine ⟨onlyNames_assemble g roots, hagain, ?_⟩
  rw [assemble_eq, hsteps] at hagain ⊢
  rw [graph_of_ok hagain, hgraph, foldl_apply_twice]

/-- A source below another one, and a facet beside it. Neither source has a name. -/
def nested : Graph :=
  (((({} : Graph).add (.source { data := {}, name := none })).addChild 0
    (.facet { row := some "c" })).addChild 1
    (.checkpoint { name := "main", required := true })).addChild 0
    (.source { data := {}, name := none })

/-- The inner source stands before and behind the outer one, and is done twice. -/
theorem assemble_repeats_nested :
    OnlyNames nested (nested.assemble [3, 0, 3]).graph ∧
      ((nested.assemble [3, 0, 3]).graph.assemble [3, 0, 3]).records =
        .ok [{ name := some "source_0" }, { name := some "source_1" }, { name := some "source_0" },
          { name := some "row_source_1", source := some "source_1",
            transform := [.aggregate ["c"] []] }] ∧
      ((nested.assemble [3, 0, 3]).graph.assemble [3, 0, 3]).graph =
        (nested.assemble [3, 0, 3]).graph :=
  assemble_repeats (.addChild _ _ (.addChild _ _ (.addChild _ _ (.add _ .empty)))) (by decide) rfl

end Graph

end ChartPipeline
