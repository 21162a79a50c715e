import ChartPipeline.Proofs.Assembly.Labels
import ChartPipeline.Proofs.Assembly.Visits

/-!
# Which names are made up

Only sources use the numbers of sources, and each source without a name uses one, so such sources are
numbered in order (`Chosen.named`). The numbers of records are for those that come to a fork or to a
facet without a name, and in a tidy forest there are none (`nextRecord_run`).
-/

namespace ChartPipeline.Assembly

def Keeps (m : Walk α) : Prop := ∀ t, (m.run t).2.nextSource = t.nextSource

/-- The computation does not read the numbers of sources, and makes up no name for one. -/
def Blind (m : Walk α) : Prop :=
  ∀ t k, m.run { t with nextSource := k } = ((m.run t).1, { (m.run t).2 with nextSource := k })

namespace Blind

theorem keeps {m : Walk α} (h : Blind m) : Keeps m := fun t =>
  congrArg (fun result => result.2.nextSource) (h t t.nextSource)

theorem pure (a : α) : Blind (pure a : Walk α) := fun _ _ => rfl

theorem note (step : Step) : Blind (note step) := fun _ _ => rfl

theorem noteAll (steps : List Step) : Blind (noteAll steps) := fun _ _ => rfl

theorem recordName : Blind recordName := fun _ _ => rfl

theorem bind {m : Walk α} {next : α → Walk β} (h : Blind m) (hn : ∀ a, Blind (next a)) :
    Blind (m >>= next) := by
  intro t k
  rw [run_bind, h t k, hn, run_bind]

theorem complete (r : Record) : Blind (complete r) := by
  unfold Assembly.complete
  split
  · exact pure _
  · have hrest (name : String) : Blind (do
        Assembly.note (.emit { r with name := some name })
        return name) := (note _).bind fun _ => pure name
    cases r.name with
    | some name => exact hrest name
    | none => exact recordName.bind hrest

theorem atCheckpoint (above : Node) (id : NodeId) (c : Checkpoint) (below : Forest Vertex)
    (r : Record) : Blind (atCheckpoint above id c below r) := by
  unfold Assembly.atCheckpoint
  split
  · exact (noteAll _).bind fun _ => pure _
  · cases below with
    | nil => exact (note _).bind fun _ => pure _
    | cons => exact (noteAll _).bind fun _ => pure _

theorem pass (above : Node) (v : Vertex) (below : Forest Vertex) (r : Record) :
    Blind (pass above v below r) := by
  unfold Assembly.pass
  split
  · split
    · exact pure _
    · exact (note _).bind fun _ => pure _
  · exact bind (atCheckpoint _ _ _ _ r) fun _ => pure _
  · exact (complete r).bind fun _ => (note _).bind fun _ => pure _
  · exact (noteAll _).bind fun _ => pure _

theorem handOver (row : Forest Vertex) (r : Record) : Blind (handOver row r) := by
  unfold Assembly.handOver
  split
  · split
    · exact pure _
    · exact (note _).bind fun _ => pure _
  · exact pure _
  · exact (complete r).bind fun _ => pure _

theorem walk (above : Node) (r : Record) (row : Forest Vertex) : Blind (walk above r row) := by
  induction row generalizing above r with
  | nil => exact pure _
  | cons v below rest ihb ihr =>
    unfold Assembly.walk
    refine bind (pass above v below r) fun next => ?_
    cases next with
    | none => exact ihr above r
    | some p => exact bind (handOver below p) fun q => bind (ihb v.node q) fun _ => ihr above r

end Blind

variable {above : Node} {v : Vertex} {below row rest f : Forest Vertex} {id : NodeId} {t : Trail}
  {s : Source} {r : Record} {tree u : Tree Vertex} {trees : List (Tree Vertex)}

def declaredName? (tree : Tree Vertex) : Option String :=
  match tree.label.node with
  | .source s => s.name
  | _ => none

def sourceNames (next : Nat) : List (Option String) → List String
  | [] => []
  | some name :: rest => name :: sourceNames next rest
  | none :: rest => ("source_" ++ Nat.repr next) :: sourceNames (next + 1) rest

theorem sourceName_injective {i j : Nat} (h : "source_" ++ Nat.repr i = "source_" ++ Nat.repr j) :
    i = j := by
  have h := congrArg (fun text => Nat.ofDigitChars 10 (text.toList.drop 7) 0) h
  simpa [Nat.repr] using h

theorem length_sourceNames (next : Nat) (declared : List (Option String)) :
    (sourceNames next declared).length = declared.length := by
  induction declared generalizing next with
  | nil => rfl
  | cons first declared ih => cases first <;> simp [sourceNames, ih]

theorem mem_zip_sourceNames {next : Nat} {declared : List (Option String)} {own : Option String}
    {name : String} (h : (own, name) ∈ declared.zip (sourceNames next declared)) :
    own = some name ∨ own = none ∧ ∃ i, name = "source_" ++ Nat.repr i := by
  induction declared generalizing next with
  | nil => cases h
  | cons first declared ih =>
    cases first with
    | none =>
      rcases List.mem_cons.mp h with he | h
      · cases he
        exact .inr ⟨rfl, next, rfl⟩
      · exact ih h
    | some n =>
      rcases List.mem_cons.mp h with he | h
      · cases he
        exact .inl rfl
      · exact ih h

theorem sourceNames_of_unnamed {α : Type} (next : Nat) (l : List α) :
    sourceNames next (l.map fun _ => none) =
      (l.zipIdx next).map fun p => "source_" ++ Nat.repr p.2 := by
  induction l generalizing next with
  | nil => rfl
  | cons a l ih => rw [List.map_cons, sourceNames, ih, List.zipIdx_cons, List.map_cons]

-- ---------------------------------------------------------------------------
-- Sources
-- ---------------------------------------------------------------------------

theorem seed_named (ht : t.nameOf? id = none) :
    .name id (s.name.getD ("source_" ++ Nat.repr t.nextSource)) ∈
        ((seed id s below).run t).2.steps ∧
      ((seed id s below).run t).2.nextSource = t.nextSource + s.name.elim 1 fun _ => 0 := by
  have hget : (get : Walk Trail).run t = (t, t) := rfl
  unfold seed
  simp only [run_bind, hget, ht]
  cases s.name <;> refine ⟨?_, rfl⟩ <;> change _ ∈ (t.steps ++ [_]) ++ _ <;> simp

theorem fromRoot_named (hv : tree.label.node = .source s) (ht : t.nameOf? tree.label.id = none) :
    .name tree.label.id (s.name.getD ("source_" ++ Nat.repr t.nextSource)) ∈
        ((fromRoot tree).run t).2.steps ∧
      ((fromRoot tree).run t).2.nextSource = t.nextSource + s.name.elim 1 fun _ => 0 := by
  obtain ⟨hname, hnext⟩ := @seed_named tree.below _ t s ht
  unfold fromRoot
  simp only [hv, run_bind]
  generalize (seed tree.label.id s tree.below).run t = seeded at hname hnext ⊢
  obtain ⟨first, hfirst, -⟩ := handOver_adds tree.below seeded.1 seeded.2
  obtain ⟨last, hlast, -⟩ := walk_adds (.source s)
    ((handOver tree.below seeded.1).run seeded.2).1 tree.below
    ((handOver tree.below seeded.1).run seeded.2).2
  refine ⟨?_, ((Blind.walk _ _ _).keeps _).trans (((Blind.handOver _ _).keeps _).trans hnext)⟩
  rw [hlast, hfirst]
  exact List.mem_append_left _ (List.mem_append_left _ hname)

/-- Different sources of a forest of numbered nodes. They may lie below each other. -/
structure Chosen (f : Forest Vertex) (trees : List (Tree Vertex)) : Prop where
  keyed : f.Keyed Vertex.id
  within : ∀ t ∈ trees, t.toList ⊆ f.toList
  nodup : (trees.map (·.label.id)).Nodup
  sources : ∀ t ∈ trees, t.label.node.isSource = true

theorem Planted.chosen (h : Planted f trees) : Chosen f trees :=
  ⟨h.keyed, fun t ht => (h.leads t ht).sublist.subset, h.nodup, h.sources⟩

theorem Chosen.unnamed (h : Chosen f (tree :: trees)) {new : List Step} {name : String}
    (hn : Started tree new) (ht : u ∈ trees) : .name u.label.id name ∉ new := by
  intro hmem
  rcases hn.exists_named hmem with he | ⟨v, hv, hid, hnot⟩
  · exact (List.nodup_cons.mp h.nodup).1 (List.mem_map.mpr ⟨u, ht, he⟩)
  · have hu := h.within u (List.mem_cons_of_mem _ ht) List.mem_cons_self
    have hv := h.within tree List.mem_cons_self (List.mem_cons_of_mem _ hv)
    obtain rfl : v = u.label := List.inj_on_of_nodup_map h.keyed hv hu hid
    rw [h.sources u (List.mem_cons_of_mem _ ht)] at hnot
    cases hnot

theorem Chosen.tail (h : Chosen f (tree :: trees)) : Chosen f trees :=
  ⟨h.keyed, (List.forall_mem_cons.mp h.within).2, (List.nodup_cons.mp h.nodup).2,
    (List.forall_mem_cons.mp h.sources).2⟩

theorem Chosen.forM_named (h : Chosen f trees)
    (hnew : ∀ tree ∈ trees, ∀ name, .name tree.label.id name ∉ t.steps) :
    ∀ p ∈ trees.zip (sourceNames t.nextSource (trees.map declaredName?)),
      .name p.1.label.id p.2 ∈ ((trees.forM fromRoot).run t).2.steps := by
  induction trees generalizing t with
  | nil => simp
  | cons tree trees ih =>
    obtain ⟨s, hv⟩ := exists_source (h.sources tree List.mem_cons_self)
    obtain ⟨hfirst, hrest⟩ := List.forall_mem_cons.mp hnew
    have hnone : t.nameOf? tree.label.id = none :=
      Option.eq_none_iff_forall_ne_some.mpr fun n hn => hfirst n (mem_of_nameOf? hn)
    obtain ⟨hmem, hnext⟩ := fromRoot_named hv hnone
    obtain ⟨first, hsteps, hstarted⟩ := fromRoot_adds tree t
    have hlater := ih h.tail (t := ((fromRoot tree).run t).2) fun u hu name hn => by
      rw [hsteps] at hn
      exact (List.mem_append.mp hn).elim (hrest u hu name) (h.unnamed hstarted hu)
    obtain ⟨last, hlast, -⟩ := forM_fromRoot_adds trees ((fromRoot tree).run t).2
    have hforM : ((tree :: trees).forM fromRoot).run t =
        (trees.forM fromRoot).run ((fromRoot tree).run t).2 := rfl
    have hnames : sourceNames t.nextSource ((tree :: trees).map declaredName?) =
        s.name.getD ("source_" ++ Nat.repr t.nextSource) ::
          sourceNames ((fromRoot tree).run t).2.nextSource (trees.map declaredName?) := by
      have hdeclared : declaredName? tree = s.name := by rw [declaredName?, hv]
      rw [hnext, List.map_cons, hdeclared]
      cases s.name <;> rfl
    rw [hforM, hnames, List.zip_cons_cons, List.forall_mem_cons]
    refine ⟨?_, hlater⟩
    rw [hlast]
    exact List.mem_append_left _ hmem

theorem Chosen.named (h : Chosen f trees) :
    ∀ p ∈ trees.zip (sourceNames 0 (trees.map declaredName?)),
      .name p.1.label.id p.2 ∈ stepsOf trees := by
  intro p hp
  have hmem := h.forM_named (t := {}) (fun _ _ _ => List.not_mem_nil) p hp
  -- the facets that follow leave the names of the sources
  obtain ⟨last, hlast, -⟩ := forM_fromFacet_adds (facets trees) ((trees.forM fromRoot).run {}).2
  have hsteps : stepsOf trees = ((trees.forM fromRoot).run {}).2.steps ++ last := hlast
  exact hsteps ▸ List.mem_append_left _ hmem

theorem Planted.exists_name (h : Planted f trees) (ht : tree ∈ trees) : ∃ name,
    .name tree.label.id name ∈ stepsOf trees ∧ (declaredName? tree = some name ∨
      declaredName? tree = none ∧ ∃ i, name = "source_" ++ Nat.repr i) := by
  have hlength : trees.length ≤ (sourceNames 0 (trees.map declaredName?)).length := by
    simp [length_sourceNames]
  rw [← List.map_fst_zip hlength] at ht
  obtain ⟨⟨tree, name⟩, hmem, rfl⟩ := List.mem_map.mp ht
  have hzip : (declaredName? tree, name) ∈
      (trees.map declaredName?).zip (sourceNames 0 (trees.map declaredName?)) := by
    rw [List.zip_map_left]
    exact List.mem_map_of_mem hmem
  exact ⟨name, h.chosen.named _ hmem, mem_zip_sourceNames hzip⟩

theorem Planted.numbered (h : Planted f trees) (hs : ∀ tree ∈ trees, declaredName? tree = none) :
    ∀ p ∈ trees.zipIdx, .name p.1.label.id ("source_" ++ Nat.repr p.2) ∈ stepsOf trees := by
  intro p hp
  have hnames : sourceNames 0 (trees.map declaredName?) =
      trees.zipIdx.map fun p => "source_" ++ Nat.repr p.2 := by
    rw [← sourceNames_of_unnamed, List.map_congr_left hs]
  have hzip : trees.zip (trees.zipIdx.map fun p => "source_" ++ Nat.repr p.2) =
      trees.zipIdx.map fun p => (p.1, "source_" ++ Nat.repr p.2) := by
    calc trees.zip (trees.zipIdx.map fun p => "source_" ++ Nat.repr p.2)
        = (trees.zipIdx.map Prod.fst).zip (trees.zipIdx.map fun p => "source_" ++ Nat.repr p.2) := by
          rw [List.zipIdx_map_fst]
      _ = _ := List.zip_map' ..
  refine h.chosen.named (p.1, _) ?_
  rw [hnames, hzip]
  exact List.mem_map_of_mem hp

-- ---------------------------------------------------------------------------
-- Records
-- ---------------------------------------------------------------------------

theorem nextRecord_complete (h : r.isAlias = true ∨ r.name.isSome) (t : Trail) :
    ((complete r).run t).2.nextRecord = t.nextRecord := by
  unfold complete Record.aliased?
  cases ha : r.isAlias with
  | true =>
    obtain ⟨source, rfl⟩ := Record.isAlias_iff.mp ha
    rfl
  | false =>
    obtain ⟨name, hname⟩ := Option.isSome_iff_exists.mp (h.resolve_left (by simp [ha]))
    simp only [hname]
    rfl

theorem Carried.nextRecord_complete (h : Carried r row) (hrow : ¬ Onward row) (t : Trail) :
    ((complete r).run t).2.nextRecord = t.nextRecord := by
  refine Assembly.nextRecord_complete ?_ t
  cases h with
  | refer h => exact .inl (Record.isAlias_iff.mpr ⟨_, h⟩)
  | named h => exact .inr (by rw [h]; rfl)
  | onward h => exact absurd h hrow

theorem nextRecord_pass (hr : Carried r (.cons v below rest)) (t : Trail) :
    ((pass above v below r).run t).2.nextRecord = t.nextRecord := by
  unfold pass
  split
  · split <;> rfl
  · unfold atCheckpoint
    split
    · rfl
    · cases below <;> rfl
  · rename_i f hv
    refine hr.nextRecord_complete ?_ t
    rintro ⟨w, inner, he, -, hw⟩
    obtain ⟨rfl, -⟩ := Forest.cons.inj he
    simp [hv, Node.isFacet] at hw
  · rfl

theorem nextRecord_handOver (hr : Carried r row) (t : Trail) :
    ((handOver row r).run t).2.nextRecord = t.nextRecord := by
  unfold handOver
  split
  · split <;> rfl
  · rfl
  · rename_i v below rest hrest
    refine hr.nextRecord_complete ?_ t
    rintro ⟨w, inner, he, -⟩
    exact hrest (Forest.cons.inj he).2.2

theorem nextRecord_walk (ht : Tidy above row) (hr : Carried r row) (t : Trail) :
    ((walk above r row).run t).2.nextRecord = t.nextRecord := by
  induction row generalizing above r t with
  | nil => rfl
  | cons v below rest ihb ihr =>
    have hpass : ((pass above v below r).run t).2.nextRecord = t.nextRecord := nextRecord_pass hr t
    obtain ⟨_, -, hpassed⟩ := pass_adds above v below r t
    have hrest (t : Trail) : ((walk above r rest).run t).2.nextRecord = t.nextRecord := by
      rcases hr.tail with rfl | hr
      · rfl
      · exact ihr ht.2.2 hr t
    unfold walk
    rw [run_bind]
    generalize (pass above v below r).run t = passed at hpass hpassed ⊢
    obtain ⟨next, t1⟩ := passed
    cases next with
    | none => exact (hrest t1).trans hpass
    | some p =>
      have hp := hpassed.carried hr ht.1
      obtain ⟨_, -, hhanded⟩ := handOver_adds below p t1
      calc _ = ((walk v.node ((handOver below p).run t1).1 below).run
              ((handOver below p).run t1).2).2.nextRecord := hrest _
        _ = ((handOver below p).run t1).2.nextRecord := ihb ht.2.1 (hhanded.carried hp) _
        _ = t1.nextRecord := nextRecord_handOver hp t1
        _ = t.nextRecord := hpass

theorem nextRecord_seed (id : NodeId) (s : Source) (below : Forest Vertex) (t : Trail) :
    ((seed id s below).run t).2.nextRecord = t.nextRecord := by
  have hget : (get : Walk Trail).run t = (t, t) := rfl
  unfold seed
  simp only [run_bind, hget]
  cases s.name <|> t.nameOf? id <;> rfl

theorem nextRecord_fromRoot (hc : Clear tree) (t : Trail) :
    ((fromRoot tree).run t).2.nextRecord = t.nextRecord := by
  unfold fromRoot
  split
  · rename_i s hs
    obtain ⟨_, -, n, told, hseed, -⟩ := seed_adds tree.label.id s tree.below t
    have hcarried : Carried ((seed tree.label.id s tree.below).run t).1 tree.below :=
      .named (n := n) (by rw [hseed, name_seedRecord])
    obtain ⟨_, -, hhanded⟩ := handOver_adds tree.below ((seed tree.label.id s tree.below).run t).1
      ((seed tree.label.id s tree.below).run t).2
    rw [run_bind, run_bind]
    exact (nextRecord_walk hc.tidy (hhanded.carried hcarried) _).trans
      ((nextRecord_handOver hcarried _).trans (nextRecord_seed _ s _ t))
  · rfl

theorem nextRecord_fromFacet (hc : Clear tree) (t : Trail) :
    ((fromFacet tree).run t).2.nextRecord = t.nextRecord := by
  have hget : (get : Walk Trail).run t = (t, t) := rfl
  unfold fromFacet
  simp only [run_bind, hget]
  split
  · exact nextRecord_walk hc.tidy (.refer rfl) _
  · rfl

theorem nextRecord_forM {m : Tree Vertex → Walk Unit}
    (h : ∀ tree ∈ trees, ∀ t, ((m tree).run t).2.nextRecord = t.nextRecord) (t : Trail) :
    ((trees.forM m).run t).2.nextRecord = t.nextRecord := by
  induction trees generalizing t with
  | nil => rfl
  | cons tree trees ih =>
    obtain ⟨hone, h⟩ := List.forall_mem_cons.mp h
    exact (ih h ((m tree).run t).2).trans (hone t)

theorem nextRecord_run (hc : ∀ tree ∈ trees, Clear tree) :
    ((run trees).run {}).2.nextRecord = 0 := by
  have hroots := nextRecord_forM (fun tree ht => nextRecord_fromRoot (hc tree ht)) {}
  have hqueue := nextRecord_forM fun tree ht => nextRecord_fromFacet (clear_facets hc tree ht)
  exact (hqueue _).trans hroots

end ChartPipeline.Assembly
