import ChartPipeline.Proofs.Assembly.Assembler
import ChartPipeline.Proofs.Assembly.Visits
import ChartPipeline.Proofs.Graph.Arena

/-!
# What the loop comes to

The recursion over a tree does what the steps of an assembly say, up to the first failure (`Ends`).
So does the loop, from every start node (`works_iff_descend`). A record that has neither a name nor a
source is the one exception: at a checkpoint the loop takes away the name there, and the steps leave
it. No assembly starts with such a record.
-/

namespace ChartPipeline

open Assembly
open ChartPipeline.Graph (OnlyNames onlyNames_foldl_apply leads_of_tree?)

namespace Assembly

def facetsOf (g : Graph) (steps : List Step) : List NodeId :=
  (namedBy steps).filter fun id => (g.node? id).any Node.isFacet

end Assembly

namespace Assembler

def after (s : Assembler) (steps : List Step) (nextRecord : Nat) : Assembler where
  graph := steps.foldl Step.apply s.graph
  data := s.data ++ recordsOf steps
  facets := s.facets ++ facetsOf s.graph steps
  nextRecord := nextRecord
  events := s.events ++ steps.flatMap Step.events

/-- A task ends as the steps say: all of them if nothing goes wrong, and else those before the first
failure. -/
inductive Ends (s : Assembler) (steps : List Step) (nextRecord : Nat) (a : α) :
    EStateM.Result CompileError Assembler α → Prop
  | ok : causesOf steps = [] → Ends s steps nextRecord a (.ok a (s.after steps nextRecord))
  | error {cause : CompileError} : steps = first ++ .fail cause :: last → causesOf first = [] →
      Ends s steps nextRecord a (.error cause (s.after first k))

/-- On a graph that differs at most in names, the task does what the steps of the walk say. -/
def Performs (g : Graph) (m : Task α) (w : Walk α) (Q : α → Prop) : Prop :=
  ∀ s t, OnlyNames g s.graph → s.nextRecord = t.nextRecord →
    Adds w t fun a new => Q a ∧ Ends s new (w.run t).2.nextRecord a (m.run s)

variable {g : Graph} {s : Assembler} {steps more : List Step}

theorem facetsOf_congr {g' : Graph} (h : OnlyNames g g') (steps : List Step) :
    facetsOf g' steps = facetsOf g steps := by
  have hkind (id : NodeId) : (g'.node? id).any Node.isFacet = (g.node? id).any Node.isFacet := by
    have hnode := congrArg (Option.any Node.isFacet) (h.nodes id)
    simpa [Option.any_map, Function.comp_def] using hnode
  rw [facetsOf, facetsOf, funext hkind]

theorem after_nil (s : Assembler) (k : Nat) : s.after [] k = { s with nextRecord := k } := by
  simp [after, facetsOf, namedBy]

theorem facetsOf_append (g : Graph) (steps more : List Step) :
    facetsOf g (steps ++ more) = facetsOf g steps ++ facetsOf g more := by
  rw [facetsOf, namedBy_append, List.filter_append, facetsOf, facetsOf]

theorem after_after (s : Assembler) (steps more : List Step) (k k' : Nat) :
    (s.after steps k).after more k' = s.after (steps ++ more) k' := by
  have hfacets : facetsOf (steps.foldl Step.apply s.graph) more = facetsOf s.graph more :=
    facetsOf_congr (onlyNames_foldl_apply s.graph steps) more
  simp only [after, hfacets, facetsOf_append, List.foldl_append, collect_append, List.flatMap_append,
    List.append_assoc]

theorem Ends.after {out : EStateM.Result CompileError Assembler α} {a : α} {k k' : Nat}
    (h : Ends (s.after steps k) more k' a out) (hc : causesOf steps = []) :
    Ends s (steps ++ more) k' a out := by
  cases h with
  | ok hmore =>
    rw [after_after]
    exact .ok (by simp [causesOf, hc, hmore])
  | @error first last k cause hmore hfirst =>
    rw [after_after]
    have hsteps : steps ++ more = (steps ++ first) ++ .fail cause :: last := by
      rw [hmore, List.append_assoc]
    exact .error hsteps (by simp [causesOf, hc, hfirst])

-- ---------------------------------------------------------------------------
-- Parts of a walk
-- ---------------------------------------------------------------------------

namespace Performs

variable {m : Task α} {w : Walk α} {f : α → Task β} {f' : α → Walk β} {Q : α → Prop} {R : β → Prop}

theorem pure {a : α} (h : Q a) : Performs g (pure a) (pure a) Q := by
  intro s t _ hk
  refine ⟨[], (List.append_nil _).symm, h, ?_⟩
  have hends : Ends s [] s.nextRecord a (.ok a (s.after [] s.nextRecord)) := .ok rfl
  rw [after_nil] at hends
  exact hk ▸ hends

theorem bind (h : Performs g m w Q) (hf : ∀ a, Q a → Performs g (f a) (f' a) R) :
    Performs g (m >>= f) (w >>= f') R := by
  intro s t hs hk
  obtain ⟨new, hnew, hq, hends⟩ := h s t hs hk
  have hafter := hs.trans (onlyNames_foldl_apply s.graph new)
  obtain ⟨more, hmore, hr, hends'⟩ := hf _ hq (s.after new (w.run t).2.nextRecord) (w.run t).2 hafter rfl
  refine ⟨new ++ more, ?_, hr, ?_⟩
  · rw [run_bind, hmore, hnew, List.append_assoc]
  · rw [EStateM.run_bind]
    generalize m.run s = out at hends
    -- after a failure the task has stopped, and the steps go on
    cases hends with
    | ok hc => exact hends'.after hc
    | @error first last k cause hnew hfirst =>
      have hsteps : new ++ more = first ++ .fail cause :: (last ++ more) := by
        rw [hnew, List.append_assoc, List.cons_append]
      exact .error hsteps hfirst

theorem get_bind {f : Assembler → Task α} (h : ∀ s, OnlyNames g s.graph → Performs g (f s) w Q) :
    Performs g (get >>= f) w Q :=
  fun s t hs hk => h s hs s t hs hk

theorem noteAll {m : Task Unit} (steps : List Step) (hc : causesOf steps = [])
    (h : ∀ s, OnlyNames g s.graph → m.run s = .ok () (s.after steps s.nextRecord)) :
    Performs g m (noteAll steps) fun _ => True := by
  intro s t hs hk
  refine ⟨steps, rfl, trivial, ?_⟩
  rw [h s hs, hk]
  exact .ok hc

theorem tell (events : List Event) :
    Performs g (tell events) (Assembly.noteAll (events.map .tell)) fun _ => True := by
  refine noteAll _ (by simp) fun s _ => ?_
  have hgraph : (events.map Step.tell).foldl Step.apply s.graph = s.graph := by
    rw [List.foldl_map]
    exact List.foldl_fixed' (fun _ => rfl) _
  have hrecords : recordsOf (events.map .tell) = [] := by simp
  have hfacets : facetsOf s.graph (events.map .tell) = [] := by simp [facetsOf, namedBy]
  have hevents : (events.map Step.tell).flatMap Step.events = events := by
    rw [List.flatMap_map]
    exact List.flatMap_singleton' events
  rw [after, hgraph, hrecords, hfacets, hevents, List.append_nil, List.append_nil]
  rfl

theorem emit (r : Record) : Performs g (emit r) (note (.emit r)) fun _ => True :=
  noteAll [.emit r] rfl fun s _ => by
    have hfacets : facetsOf s.graph [.emit r] = [] := rfl
    rw [after, hfacets, List.append_nil]
    rfl

theorem recordName : Performs g recordName Assembly.recordName fun _ => True := by
  intro s t _ hk
  have hends : Ends s [] (s.nextRecord + 1) ("data_" ++ Nat.repr s.nextRecord)
      (.ok ("data_" ++ Nat.repr s.nextRecord) (s.after [] (s.nextRecord + 1))) := .ok rfl
  rw [after_nil] at hends
  have hname : (Assembly.recordName.run t).1 = "data_" ++ Nat.repr s.nextRecord := by rw [hk]; rfl
  have hnext : (Assembly.recordName.run t).2.nextRecord = s.nextRecord + 1 := by rw [hk]; rfl
  refine ⟨[], (List.append_nil _).symm, trivial, ?_⟩
  rw [hname, hnext]
  exact hends

theorem throw (cause : CompileError) :
    Performs g (throw cause) (note (.fail cause)) fun _ => True := by
  intro s t _ _
  have hsteps : [Step.fail cause] = [] ++ .fail cause :: [] := rfl
  have hends : Ends s [.fail cause] t.nextRecord () (.error cause (s.after [] s.nextRecord)) :=
    .error hsteps rfl
  rw [after_nil] at hends
  exact ⟨[.fail cause], rfl, trivial, hends⟩

theorem complete (r : Record) : Performs g (complete r) (Assembly.complete r) fun _ => True := by
  unfold Assembler.complete Assembly.complete
  cases r.aliased? with
  | some source => exact pure trivial
  | none =>
    have hrest (name : String) : Performs g
        (do
          Assembler.emit { r with name := some name }
          return name)
        (do
          note (.emit { r with name := some name })
          return name) fun _ => True :=
      (emit _).bind fun _ _ => pure trivial
    cases r.name with
    | some name => exact hrest name
    | none => exact recordName.bind fun name _ => hrest name

theorem rename {id : NodeId} (h : (g.node? id).any Node.isFacet = false) (name : String) :
    Performs g (rename id (some name)) (note (.name id name)) fun _ => True :=
  noteAll [.name id name] rfl fun s hs => by
    have hrecords : recordsOf [.name id name] = [] := rfl
    have hfacets : facetsOf s.graph [.name id name] = [] := by
      rw [facetsOf_congr hs]
      simp [facetsOf, namedBy, h]
    have hevents : [Step.name id name].flatMap Step.events = [] := rfl
    rw [after, hrecords, hfacets, hevents, List.append_nil, List.append_nil, List.append_nil]
    rfl

theorem renameFacet {id : NodeId} (h : (g.node? id).any Node.isFacet = true) (name : String) :
    Performs g (do Assembler.rename id (some name); enqueue id) (note (.name id name))
      fun _ => True :=
  noteAll [.name id name] rfl fun s hs => by
    have hrecords : recordsOf [.name id name] = [] := rfl
    have hfacets : facetsOf s.graph [.name id name] = [id] := by
      rw [facetsOf_congr hs]
      simp [facetsOf, namedBy, h]
    have hevents : [Step.name id name].flatMap Step.events = [] := rfl
    rw [after, hrecords, hfacets, hevents, List.append_nil, List.append_nil]
    rfl

theorem handOn (row : Forest Vertex) {r : Record} (hr : (r.name <|> r.source).isSome) :
    Performs g (handOn row r) (handOver row r) fun q => (q.name <|> q.source).isSome :=
  match row with
  | .nil => by
    unfold Assembler.handOn handOver
    cases r.isAlias with
    | true => exact pure hr
    | false => exact (emit r).bind fun _ _ => pure hr
  | .cons _ _ .nil => pure hr
  | .cons _ _ (.cons ..) => (complete r).bind fun _ _ => pure rfl

end Performs

end Assembler

namespace Graph

/-- The node above a node. Where there is none, one without effect stands for it. -/
def parentNode (g : Graph) (id : NodeId) : Node :=
  ((g.parent? id).bind g.node?).getD (.nullFilter [])

variable {g g' : Graph} {id : NodeId}

theorem demands_parentNode (g : Graph) (id : NodeId) (c : Checkpoint) :
    demands (some (g.parentNode id)) (.checkpoint c) =
      demands ((g.parent? id).bind g.node?) (.checkpoint c) := by
  rw [parentNode]
  cases (g.parent? id).bind g.node? <;> rfl

theorem isSource_parentNode (g : Graph) (id : NodeId) :
    (g.parentNode id).isSource = ((g.parent? id).bind g.node?).any Node.isSource := by
  rw [parentNode]
  cases (g.parent? id).bind g.node? <;> rfl

theorem OnlyNames.unnamed_above (h : OnlyNames g g') (id : NodeId) :
    ((g'.parent? id).bind g'.node?).map Node.unnamed =
      ((g.parent? id).bind g.node?).map Node.unnamed := by
  rw [h.parents]
  cases g.parent? id with
  | none => rfl
  | some up => exact h.nodes up

theorem OnlyNames.isSource_above (h : OnlyNames g g') (id : NodeId) :
    ((g'.parent? id).bind g'.node?).any Node.isSource = (g.parentNode id).isSource := by
  have hsame := congrArg (Option.any Node.isSource) (h.unnamed_above id)
  simp only [Option.any_map, Node.isSource_unnamed] at hsame
  rw [hsame, isSource_parentNode]

theorem OnlyNames.needsAssembly_eq (h : OnlyNames g g') {c : Checkpoint}
    (hn : g.node? id = some (.checkpoint c)) :
    g'.needsAssembly id = demands (some (g.parentNode id)) (.checkpoint c) := by
  have hunnamed (g : Graph) : g.needsAssembly id = ((g.node? id).map Node.unnamed).any
      (demands (((g.parent? id).bind g.node?).map Node.unnamed)) := by
    rw [needsAssembly, Option.any_map]
    congr 1
    exact funext fun n => (demands_unnamed _ n).symm
  rw [hunnamed, h.nodes, h.unnamed_above, ← hunnamed, needsAssembly, hn, Option.any_some,
    demands_parentNode]

end Graph

namespace Assembler.Performs

variable {g : Graph} {v : Vertex} {below row : Forest Vertex} {r : Record}

theorem noteAll_cons (step next : Step) (steps : List Step) :
    Assembly.noteAll (step :: next :: steps) = (do note step; Assembly.noteAll (next :: steps)) := by
  funext t
  have hsteps : t.steps ++ step :: next :: steps = t.steps ++ [step] ++ next :: steps := by simp
  exact congrArg (fun steps => ((), { t with steps })) hsteps

theorem visitCheckpoint {c c' : Checkpoint} (hn : g.node? v.id = some (.checkpoint c))
    (hname : c'.name = c.name) (hc : g.children v.id = below.roots.map Vertex.id)
    (hr : (r.name <|> r.source).isSome) :
    Performs g (visitCheckpoint v.id c' r) (atCheckpoint (g.parentNode v.id) v.id c below r)
      fun p => (p.name <|> p.source).isSome := by
  have hfacet : (g.node? v.id).any Node.isFacet = false := by rw [hn]; rfl
  unfold Assembler.visitCheckpoint atCheckpoint
  refine get_bind fun s hs => ?_
  rw [hs.needsAssembly_eq hn, hs.rows, hc, hname]
  split
  · obtain ⟨name, hname⟩ := Option.isSome_iff_exists.mp hr
    rw [hname]
    exact (rename hfacet name).bind fun _ _ => pure hr
  · cases below with
    | nil => exact (rename hfacet _).bind fun _ _ => pure rfl
    | cons w inner rest =>
      have hcomplete : Assembler.complete { r with name := some (r.name.getD c.name) } = (do
          Assembler.emit { r with name := some (r.name.getD c.name) }
          return r.name.getD c.name) := rfl
      simp only [noteAll_cons, hcomplete, bind_assoc, pure_bind]
      exact (emit _).bind fun _ _ => (tell [_]).bind fun _ _ => (rename hfacet _).bind fun _ _ =>
        pure rfl

theorem act (hv : g.node? v.id = some v.node) (hc : g.children v.id = below.roots.map Vertex.id)
    (hr : (r.name <|> r.source).isSome) :
    Performs g (act v.id r) (Assembly.pass (g.parentNode v.id) v below r)
      fun next => ∀ p ∈ next, (p.name <|> p.source).isSome := by
  unfold Assembler.act
  refine get_bind fun s hs => ?_
  obtain ⟨n, hn, hsame⟩ : ∃ n, s.graph.node? v.id = some n ∧ n.unnamed = v.node.unnamed := by
    have hnode := hs.nodes v.id
    rw [hv, Option.map_some, Option.map_eq_some_iff] at hnode
    exact hnode
  have hfacet : (g.node? v.id).any Node.isFacet = v.node.isFacet := by rw [hv]; rfl
  rw [hn, hs.isSource_above]
  obtain ⟨id, m⟩ := v
  unfold Assembly.pass
  -- the kinds are the same, and so is everything but the name
  cases m with
  | parse c =>
    cases n <;> cases hsame
    dsimp only
    cases (g.parentNode id).isSource with
    | true => exact pure fun p hp => Option.some.inj hp ▸ hr
    | false => exact (throw _).bind fun _ _ => pure fun p hp => Option.some.inj hp ▸ hr
  | checkpoint c =>
    cases n with
    | checkpoint c' =>
      have hname : c'.name = c.name := (congrArg Checkpoint.name (Node.checkpoint.inj hsame) :)
      exact (visitCheckpoint hv hname hc hr).bind fun q hq =>
        pure fun p hp => Option.some.inj hp ▸ hq
    | _ => cases hsame
  | facet f =>
    cases n with
    | facet f' =>
      refine (complete r).bind fun name _ => ?_
      exact (renameFacet hfacet name).bind fun _ _ => pure fun p hp => nomatch hp
    | _ => cases hsame
  | source s =>
    cases n with
    | source s' => exact (tell []).bind fun _ _ => pure fun p hp => Option.some.inj hp ▸ hr
    | _ => cases hsame
  | _ =>
    cases n <;> cases hsame
    exact (tell _).bind fun _ _ => pure fun p hp => Option.some.inj hp ▸ hr

/-- The recursion does what the steps of a walk say. -/
theorem descend {up : Option Vertex}
    (hrow : ∀ e ∈ row.edges up, g.node? e.1.id = some e.1.node ∧
      g.parentNode e.1.id = (e.2.1.map Vertex.node).getD (.nullFilter []) ∧
      g.children e.1.id = e.2.2.map Vertex.id)
    (hr : (r.name <|> r.source).isSome) :
    Performs g (descend r row) (walk ((up.map Vertex.node).getD (.nullFilter [])) r row)
      fun _ => True := by
  induction row generalizing up r with
  | nil => exact pure trivial
  | cons v below rest ihb ihr =>
    obtain ⟨⟨hv, habove, hc⟩, hedges⟩ := List.forall_mem_cons.mp hrow
    obtain ⟨hbelow, hrest⟩ := List.forall_mem_append.mp hedges
    unfold Assembler.descend walk
    rw [← habove]
    refine (act hv hc hr).bind fun next hnext => ?_
    rw [habove]
    cases next with
    | none => exact ihr hrest hr
    | some p =>
      refine (handOn below (hnext p rfl)).bind fun q hq => ?_
      exact (ihb hbelow hq).bind fun _ _ => ihr hrest hr

end Assembler.Performs

namespace Graph.WellFormed

variable {g : Graph}

theorem parentNode_of_mem_edges {e : Forest.Edge Vertex} (hg : g.WellFormed)
    (he : e ∈ g.forest.edges none) :
    g.parentNode e.1.id = (e.2.1.map Vertex.node).getD (.nullFilter []) := by
  obtain ⟨v, up, row⟩ := e
  rw [parentNode, (hg.of_mem_edges he).2.1]
  cases up with
  | none => rfl
  | some u =>
    obtain ⟨habs, -⟩ | ⟨above, others, hup, -⟩ := Forest.child_of_edge he
    · cases habs
    · exact congrArg (·.getD (.nullFilter [])) (hg.of_mem_edges hup).1

end Graph.WellFormed

namespace Assembler

variable {s : Assembler} {id : NodeId} {tree : Tree Vertex}

/-- From every node and with every record, the loop over the stack ends, and it ends as the recursion
over the tree of the node does: with the same records, names, facets, events and failure. If there is
a name to read the record by, as there is in every assembly, this is what the steps of the assembly's
walk say. -/
theorem works_iff_descend (hg : s.graph.Reachable) (ht : s.graph.tree? id = some tree) (r : Record) :
    (∀ out, Works [(id, r)] s out ↔ out = (descend r (.tree tree.label tree.below)).run s) ∧
    ((r.name <|> r.source).isSome →
      let trail := ((walk (s.graph.parentNode id) r (.tree tree.label tree.below)).run
        { nextRecord := s.nextRecord }).2
      Ends s trail.steps trail.nextRecord () ((descend r (.tree tree.label tree.below)).run s)) := by
  have hw := hg.wellFormed
  obtain ⟨rfl, path, hl⟩ := leads_of_tree? ht
  have hedges : (Forest.tree tree.label tree.below).edges path.dropLast.getLast? ⊆
      s.graph.forest.edges none := by
    have hself := hl.mem_edges none
    rw [Option.or_none] at hself
    refine List.cons_subset.mpr ⟨hself, List.append_subset.mpr ⟨hl.edges_subset none, ?_⟩⟩
    exact List.nil_subset _
  have hrow : ∀ e ∈ (Forest.tree tree.label tree.below).edges path.dropLast.getLast?,
      s.graph.node? e.1.id = some e.1.node ∧
      s.graph.parentNode e.1.id = (e.2.1.map Vertex.node).getD (.nullFilter []) ∧
      s.graph.children e.1.id = e.2.2.map Vertex.id := fun e he =>
    have hmem := hedges he
    ⟨(hw.of_mem_edges hmem).1, hw.parentNode_of_mem_edges hmem, (hw.of_mem_edges hmem).2.2⟩
  constructor
  · have hworks : Works [(tree.label.id, r)] s
        ((descend r (.tree tree.label tree.below)).run s) := by
      have hstack : stacked (.tree tree.label tree.below) r [] = [(tree.label.id, r)] := rfl
      refine hstack ▸ works_stacked (fun e he => (hrow e he).2.2) ?_
      cases (descend r (.tree tree.label tree.below)).run s with
      | ok => exact .done
      | error => rfl
    exact fun out => ⟨fun h => h.unique hworks, fun h => h ▸ hworks⟩
  · intro hr
    obtain ⟨-, habove, -⟩ := hrow _ (List.mem_cons_self ..)
    obtain ⟨steps, hsteps, -, hends⟩ :=
      Performs.descend hrow hr s { nextRecord := s.nextRecord } (.refl _) rfl
    rw [habove]
    dsimp only
    rw [hsteps]
    exact hends

/-- A computed field, with a facet and coercions below it, which are misplaced there. -/
def computed : Graph :=
  ((({} : Graph).add (.calculate { expr := "datum.a", target := "b" })).addChild 0
    (.facet { row := some "c" })).addChild 0 (.parse [])

/-- An alias is none any more behind the computed field. At the fork it gets a name, which is also
that of the facet. -/
theorem works_iff_descend_computed :
    ∃ t, Works [(0, .ofSource "table")] { graph := computed } (.error (.misplacedParse 2) t) ∧
      t.data.map (·.name) = [some "data_0"] ∧ t.facets = [1] ∧
      t.graph.node? 1 = some (.facet { row := some "c", source := some "data_0" }) ∧
      ∃ steps k, Ends { graph := computed } steps k () (.error (.misplacedParse 2) t) := by
  have hg : computed.Reachable := .addChild _ _ (.addChild _ _ (.add _ .empty))
  obtain ⟨hworks, hends⟩ := works_iff_descend (s := { graph := computed }) hg
    (show computed.tree? 0 = some _ from rfl) (.ofSource "table")
  exact ⟨_, (hworks _).mpr rfl, rfl, rfl, rfl, _, _, hends rfl⟩

end Assembler

end ChartPipeline
