import ChartPipeline.Proofs.Assembly.Outcome

/-!
# Names that an assembly gives

An assembly changes nothing in a graph but the names by which sources, checkpoints and facets know
their records (`foldl_apply`). No walk reads the names of the nodes that it comes to, so it is the
same walk whatever they are named (`walk_map`).
-/

namespace ChartPipeline

open Assembly

-- ---------------------------------------------------------------------------
-- Nodes
-- ---------------------------------------------------------------------------

namespace Node

variable (n : Node)

@[simp] theorem unnamed_unnamed : n.unnamed.unnamed = n.unnamed := by
  cases n <;> rfl

@[simp] theorem unnamed_named (name : String) : (n.named name).unnamed = n.unnamed := by
  cases n <;> rfl

@[simp] theorem named_named (name other : String) : (n.named name).named other = n.named other := by
  cases n <;> rfl

@[simp] theorem isSource_unnamed : n.unnamed.isSource = n.isSource := by
  cases n <;> rfl

@[simp] theorem isCheckpoint_unnamed : n.unnamed.isCheckpoint = n.isCheckpoint := by
  cases n <;> rfl

@[simp] theorem isFacet_unnamed : n.unnamed.isFacet = n.isFacet := by
  cases n <;> rfl

@[simp] theorem coercions?_unnamed : n.unnamed.coercions? = n.coercions? := by
  cases n <;> rfl

end Node

def Vertex.unnamed (v : Vertex) : Vertex := { v with node := v.node.unnamed }

def Renames (f : Vertex → Vertex) : Prop := ∀ v, (f v).unnamed = v.unnamed

namespace Renames

variable {f : Vertex → Vertex} (h : Renames f) (v : Vertex)

include h

theorem id_eq : (f v).id = v.id := congrArg (fun v => v.id) (h v)

theorem unnamed_eq : (f v).node.unnamed = v.node.unnamed := congrArg (fun v => v.node) (h v)

theorem isFacet_eq : (f v).node.isFacet = v.node.isFacet := by
  rw [← Node.isFacet_unnamed, h.unnamed_eq, Node.isFacet_unnamed]

theorem coercions?_eq : (f v).node.coercions? = v.node.coercions? := by
  rw [← Node.coercions?_unnamed, h.unnamed_eq, Node.coercions?_unnamed]

theorem has_comp (id : NodeId) : Graph.has id ∘ f = Graph.has id := by
  funext v
  rw [Function.comp_apply, Graph.has, h.id_eq, Graph.has]

theorem map_id (row : List Vertex) : (row.map f).map Vertex.id = row.map Vertex.id := by
  rw [List.map_map]
  exact List.map_congr_left fun v _ => h.id_eq v

end Renames

def Tree.map {α β : Type} (h : α → β) (t : Tree α) : Tree β := ⟨h t.label, t.below.map h⟩

namespace Forest

theorem map_map {α β γ : Type} (h : β → γ) (k : α → β) (f : Forest α) :
    (f.map k).map h = f.map (h ∘ k) := by
  induction f with
  | nil => rfl
  | cons a below rest ihb ihr => rw [map, map, ihb, ihr, map, Function.comp_apply]

theorem map_eq_self {α : Type} {k : α → α} (h : ∀ a, k a = a) (f : Forest α) : f.map k = f := by
  induction f with
  | nil => rfl
  | cons a below rest ihb ihr => rw [map, h, ihb, ihr]

theorem map_joinLevels {γ δ : Type} (h : γ → δ) (xs ys : List (List γ)) :
    (joinLevels xs ys).map (List.map h) =
      joinLevels (xs.map (List.map h)) (ys.map (List.map h)) := by
  fun_induction joinLevels xs ys with
  | case1 ys => simp [joinLevels]
  | case2 xs hne => cases xs <;> simp_all [joinLevels]
  | case3 x xs y ys ih => simp [joinLevels, ih]

theorem levels_map {α β : Type} (h : α → β) (p : β → Bool) (f : Forest α) :
    (f.map h).levels p = (f.levels (p ∘ h)).map (List.map (Tree.map h)) := by
  induction f with
  | nil => rfl
  | cons a below rest ihb ihr =>
    rw [map, levels, levels, map_joinLevels, ihb, ihr, Function.comp_apply]
    split <;> rfl

end Forest

-- ---------------------------------------------------------------------------
-- Walks
-- ---------------------------------------------------------------------------

namespace Assembly

variable {above : Node} {v : Vertex} {below row : Forest Vertex} {r : Record} {f : Vertex → Vertex}

theorem demands_unnamed (above : Option Node) (n : Node) :
    Graph.demands (above.map Node.unnamed) n.unnamed = Graph.demands above n := by
  have habove : (above.map Node.unnamed).any Node.isCheckpoint = above.any Node.isCheckpoint := by
    simp [Option.any_map]
  cases n with
  | checkpoint c => exact congrArg (c.required && !·) habove
  | _ => rfl

theorem atCheckpoint_unnamed (above : Node) (id : NodeId) (c : Checkpoint) (below : Forest Vertex)
    (r : Record) : atCheckpoint above.unnamed id { c with source := none }
      (below.map Vertex.unnamed) r = atCheckpoint above id c below r := by
  have hdemands : Graph.demands (some above.unnamed) (.checkpoint { c with source := none }) =
      Graph.demands (some above) (.checkpoint c) := demands_unnamed (some above) (.checkpoint c)
  unfold atCheckpoint
  rw [hdemands]
  cases below <;> rfl

theorem pass_unnamed (above : Node) (v : Vertex) (below : Forest Vertex) (r : Record) :
    pass above.unnamed v.unnamed (below.map Vertex.unnamed) r = pass above v below r := by
  obtain ⟨id, n⟩ := v
  cases n with
  | parse c =>
    have hsame : Vertex.unnamed ⟨id, .parse c⟩ = ⟨id, .parse c⟩ := rfl
    simp only [hsame, pass, Node.isSource_unnamed]
  | checkpoint c =>
    have hsame : Vertex.unnamed ⟨id, .checkpoint c⟩ = ⟨id, .checkpoint { c with source := none }⟩ :=
      rfl
    simp only [hsame, pass, atCheckpoint_unnamed]
  | _ => rfl

theorem handOver_map (f : Vertex → Vertex) (row : Forest Vertex) (r : Record) :
    handOver (row.map f) r = handOver row r := by
  cases row with
  | nil => rfl
  | cons v below rest => cases rest <;> rfl

theorem walk_unnamed (above : Node) (r : Record) (row : Forest Vertex) :
    walk above.unnamed r (row.map Vertex.unnamed) = walk above r row := by
  induction row generalizing above r with
  | nil => rfl
  | cons v below rest ihb ihr =>
    simp only [Forest.map, walk, pass_unnamed, handOver_map, ihr]
    congr 1
    funext next
    cases next with
    | none => rfl
    | some p => simp only [← ihb]; rfl

/-- A walk does not depend on names. -/
theorem walk_map (hf : Renames f) (v : Vertex) (r : Record) (row : Forest Vertex) :
    walk (f v).node r (row.map f) = walk v.node r row := by
  rw [← walk_unnamed, hf.unnamed_eq, Forest.map_map, ← walk_unnamed v.node]
  congr 2
  exact funext hf

theorem fromFacet_unnamed (t : Tree Vertex) : fromFacet (t.map Vertex.unnamed) = fromFacet t := by
  obtain ⟨⟨id, n⟩, below⟩ := t
  cases n with
  | facet f =>
    have hsame (r : Record) : walk (.facet { f with source := none }) r (below.map Vertex.unnamed) =
        walk (.facet f) r below := walk_unnamed (.facet f) r below
    unfold fromFacet
    simp only [Tree.map, Vertex.unnamed, Node.unnamed, hsame]
    congr 1
    funext t
    cases t.nameOf? id <;> rfl
  | _ => rfl

theorem fromFacet_map (hf : Renames f) (t : Tree Vertex) : fromFacet (t.map f) = fromFacet t := by
  rw [← fromFacet_unnamed, ← fromFacet_unnamed t]
  congr 1
  rw [Tree.map, Tree.map, Tree.map, Forest.map_map, hf]
  congr 2
  exact funext hf

theorem forM_fromFacet_map (hf : Renames f) (trees : List (Tree Vertex)) :
    (trees.map (Tree.map f)).forM fromFacet = trees.forM fromFacet := by
  induction trees with
  | nil => rfl
  | cons t trees ih =>
    rw [List.map_cons, List.forM, fromFacet_map hf, ih, List.forM]

theorem facets_map (hf : Renames f) (trees : List (Tree Vertex)) :
    facets (trees.map (Tree.map f)) = (facets trees).map (Tree.map f) := by
  have hfacet : ((fun v : Vertex => v.node.isFacet) ∘ f) = fun v => v.node.isFacet :=
    funext hf.isFacet_eq
  rw [facets, facets, List.map_flatten]
  congr 1
  induction trees with
  | nil => rfl
  | cons t trees ih =>
    simp only [List.map_cons, List.foldr_cons]
    rw [ih, Forest.map_joinLevels, Tree.map, Forest.levels_map, hfacet]

-- ---------------------------------------------------------------------------
-- Steps
-- ---------------------------------------------------------------------------

def renamed (steps : List Step) (v : Vertex) : Vertex :=
  match Trail.nameOf? { steps } v.id with
  | some name => { v with node := v.node.named name }
  | none => v

variable {steps : List Step}

theorem renames_renamed (steps : List Step) : Renames (renamed steps) := by
  intro v
  unfold renamed
  split <;> simp [Vertex.unnamed]

theorem renamed_renamed (steps : List Step) (v : Vertex) :
    renamed steps (renamed steps v) = renamed steps v := by
  unfold renamed
  cases hn : Trail.nameOf? { steps } v.id <;> simp [hn]

theorem nameOf?_concat (steps : List Step) (step : Step) (id : NodeId) :
    Trail.nameOf? { steps := steps ++ [step] } id =
      ((step.naming?.filter (·.1 == id)).map Prod.snd).or (Trail.nameOf? { steps } id) := by
  simp only [Trail.nameOf?, List.reverse_append, List.reverse_singleton, List.singleton_append,
    List.findSome?_cons]
  cases step with
  | name other name => by_cases h : other = id <;> simp [h, Option.filter]
  | _ => rfl

theorem renamed_concat_name (steps : List Step) (id : NodeId) (name : String) (v : Vertex) :
    renamed (steps ++ [.name id name]) v =
      if (renamed steps v).id = id then { renamed steps v with node := (renamed steps v).node.named name }
      else renamed steps v := by
  rw [(renames_renamed steps).id_eq, renamed, nameOf?_concat, renamed]
  by_cases h : v.id = id
  · cases hn : Trail.nameOf? { steps } v.id <;> simp [h, Option.filter]
  · simp [h, Ne.symm h, Option.filter]

theorem renamed_concat_other {step : Step} (steps : List Step) (h : step.naming? = none) :
    renamed (steps ++ [step]) = renamed steps := by
  funext v
  rw [renamed, nameOf?_concat, h, renamed]
  rfl

theorem foldl_apply (g : Graph) (steps : List Step) :
    steps.foldl Step.apply g = { g with forest := g.forest.map (renamed steps) } := by
  induction steps using List.reverseRecOn with
  | nil =>
    have hsame : g.forest.map (renamed []) = g.forest := Forest.map_eq_self (fun _ => rfl) _
    rw [hsame]
    rfl
  | append_singleton steps step ih =>
    rw [List.foldl_append, ih, List.foldl_cons, List.foldl_nil]
    cases step with
    | name id name =>
      rw [Step.apply, Graph.update, Forest.map_map]
      congr 2
      exact funext fun v => (renamed_concat_name steps id name v).symm
    | _ =>
      rw [renamed_concat_other steps rfl]
      rfl

theorem foldl_apply_twice (g : Graph) (steps : List Step) :
    steps.foldl Step.apply (steps.foldl Step.apply g) = steps.foldl Step.apply g := by
  simp only [foldl_apply, Forest.map_map]
  congr 2
  exact funext (renamed_renamed steps)

end Assembly

-- ---------------------------------------------------------------------------
-- Graphs
-- ---------------------------------------------------------------------------

namespace Graph

variable {g : Graph} {f : Vertex → Vertex}

/-- Both graphs are the same but for the names of the records that nodes stand for. -/
structure OnlyNames (g g' : Graph) : Prop where
  size : g'.size = g.size
  marks : ∀ id, g'.isDetached id = g.isDetached id
  parents : ∀ id, g'.parent? id = g.parent? id
  rows : ∀ id, g'.children id = g.children id
  nodes : ∀ id, (g'.node? id).map Node.unnamed = (g.node? id).map Node.unnamed

theorem tree?_map (hf : Renames f) (g : Graph) (id : NodeId) :
    ({ g with forest := g.forest.map f } : Graph).tree? id =
      (g.tree? id).map (Tree.map f) := by
  rw [tree?, Forest.find?_map, hf.has_comp]
  rfl

theorem onlyNames_map (hf : Renames f) (g : Graph) :
    OnlyNames g { g with forest := g.forest.map f } where
  size := rfl
  marks _ := rfl
  parents id := by
    have hedges := Forest.edges_map f g.forest none
    have hfind : ((fun edge : Forest.Edge Vertex => edge.1.id == id) ∘
        fun e : Forest.Edge Vertex => (f e.1, e.2.1.map f, e.2.2.map f)) =
          fun edge => edge.1.id == id := by
      funext e
      rw [Function.comp_apply, hf.id_eq]
    rw [Option.map_none] at hedges
    rw [parent?, hedges, List.find?_map, hfind, parent?]
    cases (g.forest.edges none).find? fun edge => edge.1.id == id with
    | none => rfl
    | some e =>
      rw [Option.map_some, Option.bind_some, Option.bind_some, Option.map_map]
      exact Option.map_congr fun v _ => hf.id_eq v
  rows id := by
    rw [children, tree?_map hf, children]
    cases g.tree? id with
    | none => rfl
    | some t =>
      rw [Option.map_some, Option.elim_some, Option.elim_some, Tree.map, Forest.roots_map, hf.map_id]
  nodes id := by
    rw [node?, tree?_map hf, node?]
    cases g.tree? id with
    | none => rfl
    | some t => exact congrArg some (hf.unnamed_eq t.label)

theorem onlyNames_assemble (g : Graph) (roots : List NodeId) :
    OnlyNames g (g.assemble roots).graph := by
  rw [assemble_eq, outcome, foldl_apply]
  exact onlyNames_map (renames_renamed _) g

end Graph

end ChartPipeline
