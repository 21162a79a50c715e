import ChartPipeline.Proofs.Assembly.Content

/-!
# Which nodes are visited

The assembly again, step for step the same, but giving the nodes that it comes to. From sources on
these are all nodes of the trees, each once (`Planted.visits`).
-/

namespace ChartPipeline.Assembly

def walkVisiting (above : Node) (r : Record) : Forest Vertex → Walk (List Vertex)
  | .nil => return []
  | .cons v below rest => do
    let inner ← match ← pass above v below r with
      | some passed => walkVisiting v.node (← handOver below passed) below
      | none => pure []
    return v :: inner ++ (← walkVisiting above r rest)

def fromRootVisiting (t : Tree Vertex) : Walk (List Vertex) := do
  match t.label.node with
  | .source s =>
    let row ← walkVisiting t.label.node (← handOver t.below (← seed t.label.id s t.below)) t.below
    return t.label :: row
  | _ =>
    note (.fail (.invalidSpec (.rootIsNoSource t.label.id)))
    return [t.label]

def fromFacetVisiting (t : Tree Vertex) : Walk (List Vertex) := do
  match t.label.node, (← get).nameOf? t.label.id with
  | .facet f, some source =>
    noteAll (({ f with source := some source } : FacetSplit).records.map .index)
    walkVisiting t.label.node (.ofSource source) t.below
  | _, _ => return []

def eachVisiting (visiting : Tree Vertex → Walk (List Vertex)) :
    List (Tree Vertex) → Walk (List Vertex)
  | [] => return []
  | t :: rest => return (← visiting t) ++ (← eachVisiting visiting rest)

def runVisiting (roots : List (Tree Vertex)) : Walk (List Vertex) := do
  let first ← eachVisiting fromRootVisiting roots
  return first ++ (← eachVisiting fromFacetVisiting (facets roots))

section

variable {α β : Type} (m : Walk α) (t : Trail)

theorem run_bind (f : α → Walk β) : (m >>= f).run t = (f (m.run t).1).run (m.run t).2 := rfl

theorem run_pure (a : α) : (pure a : Walk α).run t = (a, t) := rfl

end

/-- A walk visits all that it reaches, and is no other walk for that. -/
theorem walkVisiting_run (above : Node) (r : Record) (row : Forest Vertex) (t : Trail) :
    (walkVisiting above r row).run t = (reach row, ((walk above r row).run t).2) := by
  induction row generalizing above r t with
  | nil => rfl
  | cons v below rest ihb ihr =>
    obtain ⟨new, -, hp⟩ := pass_adds above v below r t
    unfold walkVisiting walk
    rw [run_bind, run_bind, reach_cons]
    generalize (pass above v below r).run t = passed at hp ⊢
    obtain ⟨next, t1⟩ := passed
    cases next with
    | none =>
      have hv : atFacet v = true := by
        cases hp with
        | facet hv => rw [atFacet, hv]; rfl
      simp only [run_bind, run_pure, pure_bind, ihr, hv, if_pos, List.nil_append, List.cons_append]
    | some p =>
      have hv : atFacet v = false := hp.not_facet
      simp only [run_bind, run_pure, ihb, ihr, hv, Bool.false_eq_true, if_false, List.cons_append]

theorem fromRootVisiting_run {tree : Tree Vertex} (hs : tree.label.node.isSource = true) (t : Trail) :
    (fromRootVisiting tree).run t =
      (tree.label :: reach tree.below, ((fromRoot tree).run t).2) := by
  unfold fromRootVisiting fromRoot
  cases hn : tree.label.node with
  | source s => simp only [run_bind, run_pure, walkVisiting_run]
  | _ => simp [hn, Node.isSource] at hs

theorem fromFacetVisiting_run {tree : Tree Vertex} {t : Trail} {f : FacetSplit} {n : String}
    (hf : tree.label.node = .facet f) (hn : t.nameOf? tree.label.id = some n) :
    (fromFacetVisiting tree).run t = (reach tree.below, ((fromFacet tree).run t).2) := by
  unfold fromFacetVisiting fromFacet
  rw [run_bind, run_bind]
  have hget : (get : Walk Trail).run t = (t, t) := rfl
  simp only [hget, hf, hn, run_bind, walkVisiting_run]

theorem eachVisiting_roots {trees : List (Tree Vertex)}
    (hs : ∀ t ∈ trees, t.label.node.isSource = true) (t : Trail) :
    (eachVisiting fromRootVisiting trees).run t =
      (trees.flatMap fun t => t.label :: reach t.below, ((trees.forM fromRoot).run t).2) := by
  induction trees generalizing t with
  | nil => rfl
  | cons tree trees ih =>
    obtain ⟨hsource, hs⟩ := List.forall_mem_cons.mp hs
    have hforM : ((tree :: trees).forM fromRoot).run t =
        (trees.forM fromRoot).run ((fromRoot tree).run t).2 := rfl
    rw [eachVisiting, hforM]
    simp only [run_bind, run_pure, fromRootVisiting_run hsource, ih hs, List.flatMap_cons]

theorem eachVisiting_facets {f : Forest Vertex} {known queue : List (Tree Vertex)} {t : Trail}
    (hd : Due f t.steps known queue) : (eachVisiting fromFacetVisiting queue).run t =
      (queue.flatMap fun t => reach t.below, ((queue.forM fromFacet).run t).2) := by
  induction queue generalizing known t with
  | nil => rfl
  | cons tree queue ih =>
    obtain ⟨first, hsteps, ho⟩ := fromFacet_adds tree t
    have hforM : ((tree :: queue).forM fromFacet).run t =
        (queue.forM fromFacet).run ((fromFacet tree).run t).2 := rfl
    have hhead : (fromFacetVisiting tree).run t =
        (reach tree.below, ((fromFacet tree).run t).2) := by
      obtain ⟨hfacet, path, n, -, hn, -⟩ := hd.ready tree hd.ordered.1
      have hname := nameOf?_eq_some (hd.fresh.sublist (List.sublist_append_left _ _)) hn
      cases hnode : tree.label.node with
      | facet s => exact fromFacetVisiting_run hnode hname
      | _ => simp [hnode, Node.isFacet] at hfacet
    have hd' : Due f ((fromFacet tree).run t).2.steps (known ++ tree.below.firsts atFacet) queue :=
      hsteps ▸ hd.next ho
    have htail := ih hd'
    rw [eachVisiting, hforM]
    simp only [run_bind, run_pure, hhead, htail, List.flatMap_cons]

/-- Watched or not, the assembly is the same, and it visits every node of the trees once. -/
theorem Planted.visits {f : Forest Vertex} {trees : List (Tree Vertex)} (h : Planted f trees) :
    ∃ visited, (runVisiting trees).run {} = (visited, ((run trees).run {}).2) ∧
      visited.Perm (trees.flatMap Tree.toList) := by
  obtain ⟨_, hsteps, parts, hp, rfl⟩ := forM_fromRoot_adds trees {}
  have hd := h.due hp
  rw [← List.nil_append parts.flatten, ← hsteps] at hd
  refine ⟨_, ?_, perm_parts trees⟩
  unfold runVisiting run
  simp only [run_bind, run_pure, eachVisiting_roots h.sources, eachVisiting_facets hd]

end ChartPipeline.Assembly
