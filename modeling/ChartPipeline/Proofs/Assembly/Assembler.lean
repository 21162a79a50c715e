import ChartPipeline.Assembler
import ChartPipeline.Proofs.Assembly.Renaming

/-!
# Walking with a stack

A loop over a stack ends, and where it ends is where the recursion over the tree ends
(`Assembler.works_iff_descend`), which notes the steps of an assembly.
-/

namespace ChartPipeline

open Assembly

-- ---------------------------------------------------------------------------
-- Only names change
-- ---------------------------------------------------------------------------

namespace Graph

variable {g g' g'' : Graph}

theorem OnlyNames.refl (g : Graph) : OnlyNames g g where
  size := rfl
  marks _ := rfl
  parents _ := rfl
  rows _ := rfl
  nodes _ := rfl

theorem OnlyNames.trans (h : OnlyNames g g') (h' : OnlyNames g' g'') : OnlyNames g g'' where
  size := h'.size.trans h.size
  marks id := (h'.marks id).trans (h.marks id)
  parents id := (h'.parents id).trans (h.parents id)
  rows id := (h'.rows id).trans (h.rows id)
  nodes id := (h'.nodes id).trans (h.nodes id)

theorem onlyNames_update (g : Graph) (id : NodeId) (name : Option String) :
    OnlyNames g (g.update id (Node.under name)) := by
  refine onlyNames_map (fun v => ?_) g
  split
  · cases name <;> simp [Vertex.unnamed, Node.under]
  · rfl

theorem onlyNames_foldl_apply (g : Graph) (steps : List Step) :
    OnlyNames g (steps.foldl Step.apply g) := by
  rw [foldl_apply]
  exact onlyNames_map (renames_renamed steps) g

end Graph

open ChartPipeline.Graph (OnlyNames)

namespace Assembler

def Keeps (m : Task α) : Prop := ∀ s a t, m.run s = .ok a t → OnlyNames s.graph t.graph

namespace Keeps

variable {m : Task α} {f : α → Task β}

theorem pure (a : α) : Keeps (pure a : Task α) := by
  rintro s _ _ ⟨⟩
  exact .refl _

theorem throw (cause : CompileError) : Keeps (throw cause : Task α) := by
  rintro s _ _ ⟨⟩

theorem tell (events : List Event) : Keeps (tell events) := by
  rintro s _ _ ⟨⟩
  exact .refl _

theorem emit (r : Record) : Keeps (emit r) := by
  rintro s _ _ ⟨⟩
  exact .refl _

theorem rename (id : NodeId) (name : Option String) : Keeps (rename id name) := by
  rintro s _ _ ⟨⟩
  exact Graph.onlyNames_update ..

theorem enqueue (id : NodeId) : Keeps (enqueue id) := by
  rintro s _ _ ⟨⟩
  exact .refl _

theorem recordName : Keeps recordName := by
  rintro s _ _ ⟨⟩
  exact .refl _

theorem bind (h : Keeps m) (hf : ∀ a, Keeps (f a)) : Keeps (m >>= f) := by
  intro s b u hrun
  rw [EStateM.run_bind] at hrun
  cases hm : m.run s with
  | ok a t =>
    rw [hm] at hrun
    exact (h s a t hm).trans (hf a t b u hrun)
  | error => simp [hm] at hrun

theorem get_bind {f : Assembler → Task β} (h : ∀ s, Keeps (f s)) : Keeps (get >>= f) :=
  fun s b u hrun => h s s b u hrun

theorem complete (r : Record) : Keeps (complete r) := by
  unfold Assembler.complete
  split
  · exact pure _
  · have hrest (name : String) : Keeps (do
        Assembler.emit { r with name := some name }
        return name) := (emit _).bind fun _ => pure name
    cases r.name with
    | some name => exact hrest name
    | none => exact recordName.bind hrest

theorem visitCheckpoint (id : NodeId) (c : Checkpoint) (r : Record) :
    Keeps (visitCheckpoint id c r) := by
  unfold Assembler.visitCheckpoint
  refine get_bind fun s => ?_
  split
  · exact (rename _ _).bind fun _ => pure _
  · split
    · exact (rename _ _).bind fun _ => pure _
    · exact (complete _).bind fun _ => (tell _).bind fun _ => (rename _ _).bind fun _ => pure _

theorem act (id : NodeId) (r : Record) : Keeps (act id r) := by
  unfold Assembler.act
  refine get_bind fun s => ?_
  split
  · split
    · exact pure _
    · exact (throw _).bind fun _ => pure _
  · exact (visitCheckpoint _ _ r).bind fun _ => pure _
  · exact (complete r).bind fun _ => (rename _ _).bind fun _ => (enqueue _).bind fun _ => pure _
  · exact (tell _).bind fun _ => pure _
  · exact pure _

theorem handOn (row : Forest Vertex) (r : Record) : Keeps (handOn row r) := by
  unfold Assembler.handOn
  split
  · split
    · exact pure _
    · exact (emit r).bind fun _ => pure _
  · exact pure _
  · exact (complete r).bind fun _ => pure _

theorem descend (r : Record) (row : Forest Vertex) : Keeps (descend r row) := by
  induction row generalizing r with
  | nil => exact pure _
  | cons v below rest ihb ihr =>
    unfold Assembler.descend
    refine bind (act v.id r) fun next => ?_
    cases next with
    | none => exact ihr r
    | some p => exact bind (handOn below p) fun q => bind (ihb q) fun _ => ihr r

end Keeps

-- ---------------------------------------------------------------------------
-- The stack
-- ---------------------------------------------------------------------------

variable {row below : Forest Vertex} {r : Record} {s : Assembler} {v : Vertex}
  {work : List (NodeId × Record)} {out out' : EStateM.Result CompileError Assembler Unit}

theorem Works.unique (h : Works work s out) (h' : Works work s out') : out = out' := by
  induction h generalizing out' with
  | done =>
    cases h'
    rfl
  | fail hstep =>
    cases h' with
    | fail hstep' =>
      cases hstep.symm.trans hstep'
      rfl
    | next hstep' _ => cases hstep.symm.trans hstep'
  | next hstep _ ih =>
    cases h' with
    | fail hstep' => cases hstep.symm.trans hstep'
    | next hstep' h' =>
      obtain ⟨rfl, rfl⟩ := EStateM.Result.ok.inj (hstep.symm.trans hstep')
      exact ih h'

def stacked (row : Forest Vertex) (r : Record) (work : List (NodeId × Record)) :
    List (NodeId × Record) :=
  row.roots.map (fun v => (v.id, r)) ++ work

/-- Put on the stack in reverse, the children come off it in their order. -/
theorem foldl_reverse_eq (row : Forest Vertex) (r : Record) (work : List (NodeId × Record)) :
    (row.roots.map Vertex.id).reverse.foldl (fun work child => (child, r) :: work) work =
      stacked row r work := by
  rw [List.foldl_reverse, stacked]
  induction row.roots with
  | nil => rfl
  | cons v row ih => rw [List.map_cons, List.foldr_cons, ih, List.map_cons, List.cons_append]

theorem step_run (r : Record) (work : List (NodeId × Record))
    (hc : s.graph.children v.id = below.roots.map Vertex.id) :
    (step v.id r work).run s = (do
      match ← act v.id r with
      | none => return work
      | some p => return stacked below (← handOn below p) work : Task _).run s := by
  unfold step
  rw [EStateM.run_bind, EStateM.run_bind]
  cases hact : (act v.id r).run s with
  | error => rfl
  | ok next t =>
    cases next with
    | none => rfl
    | some p =>
      have hget : (get : Task Assembler).run t = .ok t t := rfl
      have hrow := ((Keeps.act v.id r s _ t hact).rows v.id).trans hc
      simp only [EStateM.run_bind, hget, hrow]
      match below with
      | .nil =>
        unfold handOn
        cases p.isAlias <;> rfl
      | .cons w inner .nil => rfl
      | .cons w inner (.cons z under rest) =>
        simp only [Forest.roots, List.map_cons, handOn, EStateM.run_bind]
        cases (complete p).run t with
        | error => rfl
        | ok name u =>
          have hstack := foldl_reverse_eq (.cons w inner (.cons z under rest)) (.ofSource name) work
          exact congrArg (EStateM.Result.ok · u) hstack

/-- How the loop ends with what is still on the stack, after a part of the walk has come out so. -/
def Rest (work : List (NodeId × Record)) (out : EStateM.Result CompileError Assembler Unit) :
    EStateM.Result CompileError Assembler Unit → Prop
  | .ok () t => Works work t out
  | .error cause t => out = .error cause t

/-- The loop works through a row on its stack as the recursion does, and then through the rest. -/
theorem works_stacked {up : Option Vertex}
    (hrow : ∀ e ∈ row.edges up, s.graph.children e.1.id = e.2.2.map Vertex.id)
    (h : Rest work out ((descend r row).run s)) : Works (stacked row r work) s out := by
  -- what is below a node is worked through while the rest of its row waits on the stack
  induction row generalizing up r s work with
  | nil => exact h
  | cons v below rest ihb ihr =>
    obtain ⟨hv, hedges⟩ := List.forall_mem_cons.mp hrow
    obtain ⟨hbelow, hrest⟩ := List.forall_mem_append.mp hedges
    have hstack : stacked (.cons v below rest) r work = (v.id, r) :: stacked rest r work := rfl
    have hstep := step_run r (stacked rest r work) hv
    rw [hstack]
    unfold descend at h
    rw [EStateM.run_bind] at h hstep
    cases hact : (act v.id r).run s with
    | error cause t =>
      rw [hact] at h hstep
      exact (show out = _ from h) ▸ .fail hstep
    | ok next t =>
      have hkept : OnlyNames s.graph t.graph := Keeps.act v.id r s next t hact
      rw [hact] at h hstep
      cases next with
      | none => exact .next hstep (ihr (fun e he => (hkept.rows _).trans (hrest e he)) h)
      | some p =>
        simp only [EStateM.run_bind] at h hstep
        cases hhand : (handOn below p).run t with
        | error cause u =>
          rw [hhand] at h hstep
          exact (show out = _ from h) ▸ .fail hstep
        | ok q u =>
          have hkept := hkept.trans (Keeps.handOn below p t q u hhand)
          rw [hhand] at h hstep
          refine .next hstep (ihb (fun e he => (hkept.rows _).trans (hbelow e he)) ?_)
          dsimp only at h
          cases hdescend : (descend q below).run u with
          | error cause z => rwa [hdescend] at h
          | ok _ z =>
            have hkept := hkept.trans (Keeps.descend q below u () z hdescend)
            rw [hdescend] at h
            exact ihr (fun e he => (hkept.rows _).trans (hrest e he)) h

end Assembler

end ChartPipeline
