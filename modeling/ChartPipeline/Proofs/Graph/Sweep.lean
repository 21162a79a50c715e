import ChartPipeline.Proofs.Graph.Arena

/-!
# Optimizing an arena

An arena is optimized by a walk below each root that detaches nodes on its way. The walk takes the
next number from a stack and puts the children there, as they were before the node was detached. It
ends, and what it ends in shows the optimized graph (`Shows.exists_sweeps`).
-/

namespace ChartPipeline.Arena

open Forest (putFor)
open ChartPipeline.Graph (drops)

variable {a b c : Arena} {id root : NodeId} {roots stack first last : List NodeId} {s : Slot}
  {d : NodeId → Bool} {up v : Vertex} {below rest row : Forest Vertex}

theorem Walks.unique (h : Walks root stack a b) (h' : Walks root stack a c) : b = c := by
  induction h generalizing c with
  | done =>
    cases h'
    rfl
  | keep hkeep _ ih =>
    cases h' with
    | keep _ h' => exact ih h'
    | drop hne hidle _ => simp [hkeep hne] at hidle
  | drop hne hidle _ ih =>
    cases h' with
    | keep hkeep _ => simp [hkeep hne] at hidle
    | drop _ _ h' => exact ih h'

theorem Sweeps.unique (h : Sweeps roots a b) (h' : Sweeps roots a c) : b = c := by
  induction h generalizing c with
  | nil =>
    cases h'
    rfl
  | cons hwalk _ ih =>
    cases h' with
    | cons hwalk' h' =>
      obtain rfl := hwalk.unique hwalk'
      exact ih h'

-- ---------------------------------------------------------------------------
-- Rows
-- ---------------------------------------------------------------------------

structure Row (a : Arena) (d : NodeId → Bool) (up : Vertex) (s : Slot) (first last : List NodeId)
    (row : Forest Vertex) : Prop where
  keyed : row.Keyed Vertex.id
  below : ∀ v ∈ row.toList, v.id ≠ up.id
  holds : a.Holds d (row.edges (some up))
  slot : a.slot? up.id = some s
  node : s.node = up.node
  children : s.children = first ++ (row.roots.map Vertex.id ++ last)
  apart : ∀ v ∈ row.toList, v.id ∉ first

structure Swept (d : NodeId → Bool) (up : Vertex) (s : Slot) (first last : List NodeId)
    (row : Forest Vertex) (a b : Arena) : Prop where
  kept : b.Holds d ((row.prune drops up).edges (some up))
  gone : ∀ v ∈ (row.dropped drops up).map Prod.fst,
    b.slot? v.id = some { node := v.node, detached := true }
  slot : b.slot? up.id =
    some { s with children := first ++ ((row.prune drops up).roots.map Vertex.id ++ last) }
  others : ∀ id ≠ up.id, (∀ v ∈ row.toList, v.id ≠ id) → b.slot? id = a.slot? id
  size : b.size = a.size

theorem mem_of_mem_prune (h : v ∈ (row.prune drops up).toList) : v ∈ row.toList :=
  (Forest.perm_prune drops up row).subset (List.mem_append_left _ h)

theorem mem_of_mem_dropped (h : v ∈ (row.dropped drops up).map Prod.fst) : v ∈ row.toList :=
  (Forest.perm_prune drops up row).subset (List.mem_append_right _ h)

section

variable (h : Row a d up s first last (.cons v below rest))

include h

theorem Row.exists_slot : ∃ t, a.slot? v.id = some t ∧ t.node = v.node ∧ t.parent = some up.id ∧
    t.children = below.roots.map Vertex.id :=
  ⟨_, h.holds _ (List.mem_cons_self ..), rfl, rfl, rfl⟩

theorem Row.isIdle_eq : a.isIdle v.id = drops up v := by
  obtain ⟨t, ht, hnode, hp, -⟩ := h.exists_slot
  rw [isIdle, Arena.node?, ht, Option.map_some, hnode, parent?_of_slot? ht, hp, Option.bind_some,
    Arena.node?, h.slot, Option.map_some, h.node, drops]
  cases v.node <;> rfl

theorem Row.children_eq : a.children v.id = below.roots.map Vertex.id := by
  obtain ⟨t, ht, -, -, hc⟩ := h.exists_slot
  rw [children_of_slot? ht, hc]

theorem Row.ne_of_mem_rest {w : Vertex} (hw : w ∈ rest.toList) :
    w.id ≠ up.id ∧ ∀ z ∈ v :: below.toList, z.id ≠ w.id :=
  ⟨h.below w (List.mem_cons_of_mem _ (List.mem_append_right _ hw)),
    List.forall_mem_cons.mpr
      ⟨(h.keyed.ne_rest hw).symm, fun _ hz => h.keyed.ne_of_below_of_rest hz hw⟩⟩

theorem Row.ne_of_mem_below {w : Vertex} (hw : w ∈ v :: below.toList) :
    w.id ≠ up.id ∧ ∀ z ∈ rest.toList, z.id ≠ w.id :=
  ⟨h.below w (by
    rcases List.mem_cons.mp hw with rfl | hw
    · exact List.mem_cons_self ..
    · exact List.mem_cons_of_mem _ (List.mem_append_left _ hw)),
    fun _ hz => ((h.ne_of_mem_rest hz).2 w hw).symm⟩

-- a node is detached, and the row below it is walked over in its place

theorem Row.detach :
    Row (a.detach v.id) d up
      { s with children := first ++ (below.roots.map Vertex.id ++ (rest.roots.map Vertex.id ++ last)) }
      first (rest.roots.map Vertex.id ++ last) below ∧
    (a.detach v.id).slot? v.id = some { node := v.node, detached := true } ∧
    ∀ id ≠ up.id, (∀ w ∈ v :: below.toList, w.id ≠ id) → (a.detach v.id).slot? id = a.slot? id := by
  obtain ⟨t, ht, hnode, hp, hc⟩ := h.exists_slot
  obtain ⟨hvup, hbup⟩ := List.forall_mem_cons.mp h.below
  obtain ⟨hvfirst, hbfirst⟩ := List.forall_mem_cons.mp h.apart
  rw [List.forall_mem_append] at hbup hbfirst
  have hne : ∀ w ∈ below.toList, w.id ≠ v.id := fun w hw => h.keyed.ne_below hw
  have hnot {id : NodeId} (hid : ∀ w ∈ below.toList, w.id ≠ id) : id ∉ t.children := by
    intro hin
    obtain ⟨w, hw, he⟩ := List.mem_map.mp (hc ▸ hin)
    exact hid w ((Forest.roots_sublist _).subset hw) he
  have hother {id : NodeId} (hid : id ≠ up.id) : t.parent ≠ some id :=
    fun he => hid (Option.some.inj (hp ▸ he)).symm
  refine ⟨⟨h.keyed.below, hbup.1, ?_, ?_, h.node, rfl, hbfirst.1⟩, ?_, fun id hid hw => ?_⟩
  · have hold : a.Holds d (below.edges (some v)) := fun e he =>
      h.holds e (List.mem_cons_of_mem _ (List.mem_append_left _ he))
    have hp : t.parent = (some up).map Vertex.id := hp
    exact hold.detach ht hp hc h.keyed.first fun w hw => hother (hbup.1 w hw)
  · have hrow : putFor (fun c => c) v.id t.children s.children =
        first ++ (below.roots.map Vertex.id ++ (rest.roots.map Vertex.id ++ last)) := by
      have hfirst : ∀ c ∈ first, c ≠ v.id := fun c hc he => hvfirst (he ▸ hc)
      rw [h.children, Forest.roots, Forest.putFor_append _ _ hfirst, List.map_cons, List.cons_append,
        putFor, if_pos rfl, hc]
    rw [slot?_detach_of_ne ht hvup.symm, h.slot, Option.map_some, if_neg (hnot hbup.1), if_pos hp,
      hrow]
  · rw [slot?_detach_self ht (hnot hne) (hother hvup), hnode]
  · obtain ⟨hv, hb⟩ := List.forall_mem_cons.mp hw
    exact slot?_detach_of_apart ht hv.symm (hnot hb) (hother hid)

theorem Row.after_drop
    (hb : Swept d up t first (rest.roots.map Vertex.id ++ last) below (a.detach v.id) b)
    (ht : t.node = s.node) :
    Row b d up { t with children := first ++ ((below.prune drops up).roots.map Vertex.id ++
        (rest.roots.map Vertex.id ++ last)) }
      (first ++ (below.prune drops up).roots.map Vertex.id) last rest where
  keyed := h.keyed.rest
  below := fun w hw => (h.ne_of_mem_rest hw).1
  holds := fun e he => by
    obtain ⟨hup, hne⟩ := h.ne_of_mem_rest (Forest.fst_mem_of_mem_edges he)
    obtain ⟨-, -, hframe⟩ := h.detach
    rw [hb.others _ hup (List.forall_mem_cons.mp hne).2, hframe _ hup hne]
    exact h.holds e (List.mem_cons_of_mem _ (List.mem_append_right _ he))
  slot := hb.slot
  node := ht.trans h.node
  children := by simp only [List.append_assoc]
  apart := fun w hw hin => by
    rcases List.mem_append.mp hin with hin | hin
    · exact h.apart w (List.mem_cons_of_mem _ (List.mem_append_right _ hw)) hin
    · obtain ⟨z, hz, hid⟩ := List.mem_map.mp hin
      have hz := mem_of_mem_prune ((Forest.roots_sublist _).subset hz)
      exact h.keyed.ne_of_below_of_rest hz hw hid

theorem Row.swept_drop (hdrop : drops up v = true)
    (hb : Swept d up { s with children := first ++
        (below.roots.map Vertex.id ++ (rest.roots.map Vertex.id ++ last)) }
      first (rest.roots.map Vertex.id ++ last) below (a.detach v.id) b)
    (hc : Swept d up { s with children := first ++ ((below.prune drops up).roots.map Vertex.id ++
        (rest.roots.map Vertex.id ++ last)) }
      (first ++ (below.prune drops up).roots.map Vertex.id) last rest b c) :
    Swept d up s first last (.cons v below rest) a c := by
  obtain ⟨-, hgone, hframe⟩ := h.detach
  have hkeep {w : Vertex} (hw : w ∈ v :: below.toList) : c.slot? w.id = b.slot? w.id :=
    hc.others _ (h.ne_of_mem_below hw).1 (h.ne_of_mem_below hw).2
  refine ⟨fun e he => ?_, fun w hw => ?_, ?_, fun id hid hw => ?_, ?_⟩
  · rw [Forest.prune, if_pos hdrop, Forest.edges_append] at he
    rcases List.mem_append.mp he with he | he
    · have hmem := mem_of_mem_prune (Forest.fst_mem_of_mem_edges he)
      rw [hkeep (List.mem_cons_of_mem _ hmem)]
      exact hb.kept e he
    · exact hc.kept e he
  · rw [Forest.dropped, if_pos hdrop, List.map_cons, List.map_append] at hw
    rcases List.mem_cons.mp hw with rfl | hw
    · rw [hkeep (List.mem_cons_self ..), hb.others _ (h.ne_of_mem_below (List.mem_cons_self ..)).1
        fun _ hw => h.keyed.ne_below hw]
      exact hgone
    · rcases List.mem_append.mp hw with hw | hw
      · rw [hkeep (List.mem_cons_of_mem _ (mem_of_mem_dropped hw))]
        exact hb.gone w hw
      · exact hc.gone w hw
  · rw [hc.slot, Forest.prune, if_pos hdrop]
    simp
  · obtain ⟨hv, hw⟩ := List.forall_mem_cons.mp hw
    obtain ⟨hbelow, hrest⟩ := List.forall_mem_append.mp hw
    rw [hc.others id hid hrest, hb.others id hid hbelow]
    exact hframe id hid (List.forall_mem_cons.mpr ⟨hv, hbelow⟩)
  · rw [hc.size, hb.size, size_detach]

-- a node is kept, and the row below it is walked over

theorem Row.row_below : Row a d v (.ofEdge d (v, some up, below.roots)) [] [] below where
  keyed := h.keyed.below
  below := fun _ hw => h.keyed.ne_below hw
  holds := fun e he => h.holds e (List.mem_cons_of_mem _ (List.mem_append_left _ he))
  slot := h.holds _ (List.mem_cons_self ..)
  node := rfl
  children := by simp [Slot.ofEdge]
  apart := by simp

theorem Row.after_keep (hb : Swept d v t [] [] below a b) :
    Row b d up s (first ++ [v.id]) last rest where
  keyed := h.keyed.rest
  below := fun w hw => (h.ne_of_mem_rest hw).1
  holds := fun e he => by
    obtain ⟨hv, hne⟩ := List.forall_mem_cons.mp (h.ne_of_mem_rest (Forest.fst_mem_of_mem_edges he)).2
    rw [hb.others _ hv.symm hne]
    exact h.holds e (List.mem_cons_of_mem _ (List.mem_append_right _ he))
  slot := by
    rw [hb.others _ (h.ne_of_mem_below (List.mem_cons_self ..)).1.symm fun w hw =>
      (h.ne_of_mem_below (List.mem_cons_of_mem _ hw)).1]
    exact h.slot
  node := h.node
  children := by simp [h.children, Forest.roots]
  apart := fun w hw hin => by
    rcases List.mem_append.mp hin with hin | hin
    · exact h.apart w (List.mem_cons_of_mem _ (List.mem_append_right _ hw)) hin
    · exact h.keyed.ne_rest hw (List.mem_singleton.mp hin)

theorem Row.swept_keep (hdrop : ¬ drops up v = true)
    (hb : Swept d v (.ofEdge d (v, some up, below.roots)) [] [] below a b)
    (hc : Swept d up s (first ++ [v.id]) last rest b c) :
    Swept d up s first last (.cons v below rest) a c := by
  have hkeep {w : Vertex} (hw : w ∈ v :: below.toList) : c.slot? w.id = b.slot? w.id :=
    hc.others _ (h.ne_of_mem_below hw).1 (h.ne_of_mem_below hw).2
  refine ⟨fun e he => ?_, fun w hw => ?_, ?_, fun id hid hw => ?_, hc.size.trans hb.size⟩
  · rw [Forest.prune, if_neg hdrop] at he
    rcases List.mem_cons.mp he with rfl | he
    · rw [hkeep (List.mem_cons_self ..), hb.slot]
      simp [Slot.ofEdge]
    · rcases List.mem_append.mp he with he | he
      · have hmem := mem_of_mem_prune (Forest.fst_mem_of_mem_edges he)
        rw [hkeep (List.mem_cons_of_mem _ hmem)]
        exact hb.kept e he
      · exact hc.kept e he
  · rw [Forest.dropped, if_neg hdrop, List.map_append] at hw
    rcases List.mem_append.mp hw with hw | hw
    · rw [hkeep (List.mem_cons_of_mem _ (mem_of_mem_dropped hw))]
      exact hb.gone w hw
    · exact hc.gone w hw
  · rw [hc.slot, Forest.prune, if_neg hdrop, Forest.roots]
    simp
  · obtain ⟨hv, hw⟩ := List.forall_mem_cons.mp hw
    obtain ⟨hbelow, hrest⟩ := List.forall_mem_append.mp hw
    rw [hc.others id hid hrest, hb.others id hv.symm hbelow]

end

theorem Row.exists_swept (h : Row a d up s first last row) (hroot : ∀ v ∈ row.toList, v.id ≠ root) :
    ∃ b, Swept d up s first last row a b ∧
      ∀ stack c, Walks root stack b c → Walks root (row.roots.map Vertex.id ++ stack) a c := by
  induction row generalizing a up s first last with
  | nil =>
    refine ⟨a, ⟨?_, ?_, ?_, fun id _ _ => rfl, rfl⟩, fun stack c hc => hc⟩
    · intro e he
      cases he
    · intro v hv
      cases hv
    · rw [h.slot]
      exact congrArg some (by rw [Forest.prune, ← h.children])
  | cons v below rest ihb ihr =>
    obtain ⟨hv, hroot⟩ := List.forall_mem_cons.mp hroot
    obtain ⟨hbelow, hrest⟩ := List.forall_mem_append.mp hroot
    by_cases hdrop : drops up v = true
    · obtain ⟨b, hb, hwalk⟩ := ihb h.detach.1 hbelow
      obtain ⟨c, hc, hwalk'⟩ := ihr (h.after_drop hb rfl) hrest
      refine ⟨c, h.swept_drop hdrop hb hc, fun stack z hz => ?_⟩
      refine .drop hv (h.isIdle_eq.trans hdrop) ?_
      rw [h.children_eq]
      exact hwalk _ _ (hwalk' _ _ hz)
    · obtain ⟨b, hb, hwalk⟩ := ihb h.row_below hbelow
      obtain ⟨c, hc, hwalk'⟩ := ihr (h.after_keep hb) hrest
      refine ⟨c, h.swept_keep hdrop hb hc, fun stack z hz => ?_⟩
      refine .keep (fun _ => h.isIdle_eq.trans (Bool.eq_false_iff.mpr hdrop)) ?_
      rw [h.children_eq]
      exact hwalk _ _ (hwalk' _ _ hz)

-- ---------------------------------------------------------------------------
-- Graphs
-- ---------------------------------------------------------------------------

variable {g : Graph}

theorem Shows.row_below {t : Tree Vertex} {path : List Vertex} (h : a.Shows g) (hg : g.WellFormed)
    (ht : g.forest.Leads path t) :
    Row a g.isDetached t.label
      (.ofEdge g.isDetached (t.label, path.dropLast.getLast?.or none, t.below.roots))
      [] [] t.below where
  keyed := (ht.keyed hg.keyed).below
  below := fun _ hw => (ht.keyed hg.keyed).ne_below hw
  holds := fun e he => h.holds hg e (ht.edges_subset none he)
  slot := h.holds hg _ (ht.mem_edges none)
  node := rfl
  children := by simp [Slot.ofEdge]
  apart := by simp

/-- The walk below a root ends, with what is pruned there. -/
theorem Shows.exists_walks (h : a.Shows g) (hg : g.WellFormed) (hroot : root < g.size) :
    ∃ b, Walks root [root] a b ∧ b.Shows (g.pruneBelow root) := by
  obtain ⟨path, t, ht, rfl⟩ := hg.exists_leads hroot
  have hrow := h.row_below hg ht
  obtain ⟨b, hb, hwalk⟩ := hrow.exists_swept hrow.below
  have hchildren : a.children t.label.id = t.below.roots.map Vertex.id := children_of_slot? hrow.slot
  refine ⟨b, .keep (absurd rfl) (hchildren ▸ hwalk [] b .done), ?_⟩
  have hmarked := g.isDetached_pruneBelow_iff t.label.id
  rw [Graph.idleBelow, hg.tree?_eq ht, Option.elim_some] at hmarked
  have hsame {e : Forest.Edge Vertex}
      (he : ∀ w ∈ (t.below.dropped drops t.label).map Prod.fst, w.id ≠ e.1.id) :
      Slot.ofEdge (g.pruneBelow t.label.id).isDetached e = Slot.ofEdge g.isDetached e := by
    refine Slot.ofEdge_congr (Bool.eq_iff_iff.mpr ((hmarked _).trans (or_iff_left ?_)))
    rintro ⟨w, hw, hid⟩
    exact he w hw hid
  have hgone : ∀ w ∈ (t.below.dropped drops t.label).map Prod.fst,
      ∀ z ∈ (t.below.prune drops t.label).toList, w.id ≠ z.id := by
    have hnodup : (t.below.toList.map Vertex.id).Nodup := hrow.keyed
    rw [← ((Forest.perm_prune drops t.label t.below).map _).nodup_iff, List.map_append] at hnodup
    exact fun w hw z hz he => List.disjoint_of_nodup_append hnodup (List.mem_map_of_mem hz)
      (he ▸ List.mem_map_of_mem hw)
  refine shows_of_holds (hg.pruneBelow _) ?_ (fun e he => ?_) fun id hd => ?_
  · exact hb.size.trans (h.size_eq hg)
  · rw [Graph.pruneBelow, Graph.idleBelow, hg.tree?_eq ht, Option.elim_some,
      Forest.edges_append] at he
    rcases List.mem_append.mp he with he | he
    · rcases ht.mem_edges_changeBelow hg.keyed rfl he with ⟨he, hother⟩ | rfl | he
      · obtain ⟨hself, hbelow⟩ := List.forall_mem_cons.mp hother
        rw [hsame fun w hw => hbelow w (mem_of_mem_dropped hw), hb.others _ hself.symm hbelow]
        exact h.holds hg e he
      · rw [hsame fun w hw => hrow.below w (mem_of_mem_dropped hw), hb.slot]
        simp [Slot.ofEdge]
      · rw [hsame fun w hw => hgone w hw _ (Forest.fst_mem_of_mem_edges he)]
        exact hb.kept e he
    · obtain ⟨v, hv, rfl⟩ := Forest.mem_edges_leaves he
      rw [hb.gone v hv, Slot.ofEdge, (hmarked _).mpr (.inr ⟨v, hv, rfl⟩)]
      rfl
  · rcases (hmarked id).mp hd with hd | ⟨w, hw, rfl⟩
    · exact h.lt_size_of_isDetached hg hd
    · have hmem := ht.sublist.subset (List.mem_cons_of_mem _ (mem_of_mem_dropped hw))
      exact List.mem_range.mp (hg.mem_iff.mp (List.mem_map_of_mem hmem))

theorem Shows.exists_sweeps (h : a.Shows g) (hg : g.WellFormed) (hr : ∀ root ∈ roots, root < g.size) :
    ∃ b, Sweeps roots a b ∧ b.Shows (g.optimize roots) := by
  induction roots generalizing a g with
  | nil => exact ⟨a, .nil, h⟩
  | cons root roots ih =>
    obtain ⟨hroot, hr⟩ := List.forall_mem_cons.mp hr
    obtain ⟨b, hwalk, hb⟩ := h.exists_walks hg hroot
    obtain ⟨c, hc, hshows⟩ := ih hb (hg.pruneBelow root) hr
    exact ⟨c, .cons hwalk hc, hshows⟩

/-- However an arena is optimized, it shows the optimized graph. -/
theorem Sweeps.shows (hs : Sweeps roots a b) (h : a.Shows g) (hg : g.WellFormed)
    (hr : ∀ root ∈ roots, root < g.size) : b.Shows (g.optimize roots) := by
  obtain ⟨c, hc, hshows⟩ := h.exists_sweeps hg hr
  obtain rfl := hs.unique hc
  exact hshows

end ChartPipeline.Arena
