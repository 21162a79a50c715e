import ChartPipeline.Arena
import ChartPipeline.Proofs.Graph.Lookup

/-!
# Graphs as arenas

An arena shows a graph if its slots hold what the graph tells about its nodes, and every change of a
graph is shown by the change of the links (`Shows.add`, `Shows.attach`, `Shows.detach`).
-/

namespace ChartPipeline

open Forest (putFor)

namespace Arena

variable {a b : Arena} {id child parent other : NodeId} {s : Slot} {n : Node}

-- ---------------------------------------------------------------------------
-- Slots
-- ---------------------------------------------------------------------------

theorem slot?_eq (a : Arena) (id : NodeId) : a.slot? id = (a.node? id).map fun n =>
    { node := n, parent := a.parent? id, children := a.children id, detached := a.isDetached id } := by
  rw [node?, parent?, children, isDetached]
  cases a.slot? id <;> rfl

theorem slot?_eq_none_iff : a.slot? id = none ↔ a.size ≤ id := List.getElem?_eq_none_iff

theorem size_add (a : Arena) (n : Node) : (a.add n).size = a.size + 1 := List.length_append

theorem size_change (a : Arena) (id : NodeId) (f : Slot → Slot) : (a.change id f).size = a.size :=
  List.length_modify ..

theorem slot?_change (a : Arena) (id other : NodeId) (f : Slot → Slot) :
    (a.change id f).slot? other = (a.slot? other).map fun s => if other = id then f s else s := by
  rw [change, slot?, List.getElem?_modify, slot?, Option.map_eq_map]
  simp only [eq_comm (a := id)]

theorem slot?_add (a : Arena) (n : Node) (id : NodeId) :
    (a.add n).slot? id = if id = a.size then some { node := n } else a.slot? id := by
  rcases Nat.lt_trichotomy id a.size with h | rfl | h
  · rw [if_neg (Nat.ne_of_lt h)]
    exact List.getElem?_append_left h
  · rw [if_pos rfl]
    exact List.getElem?_concat_length
  · rw [if_neg (Nat.ne_of_gt h), slot?_eq_none_iff.mpr (Nat.le_of_lt h)]
    exact slot?_eq_none_iff.mpr ((size_add a n).le.trans h)

theorem slot?_unlink (a : Arena) (child id : NodeId) :
    (a.unlink child).slot? id = (a.slot? id).map fun s =>
      if a.parent? child = some id then { s with children := s.children.filter (· != child) }
      else s := by
  rw [unlink]
  cases a.parent? child with
  | none => simp
  | some old =>
    simp [slot?_change, eq_comm]

theorem size_attach (a : Arena) (child parent : NodeId) : (a.attach child parent).size = a.size := by
  rw [attach, size_change, size_change, unlink]
  split
  · rfl
  · exact size_change ..

theorem slot?_attach (a : Arena) (child parent id : NodeId) :
    (a.attach child parent).slot? id = (a.slot? id).map fun s =>
      { s with
        parent := if id = child then some parent else s.parent
        children :=
          (if a.parent? child = some id then s.children.filter (· != child) else s.children) ++
            if id = parent then [child] else [] } := by
  simp only [attach, slot?_change, slot?_unlink, Option.map_map]
  congr 1
  funext s
  simp only [Function.comp_apply]
  split <;> split <;> split <;> simp

theorem slot?_reparent (a : Arena) (up : Option NodeId) (row : List NodeId) (id : NodeId) :
    (a.reparent up row).slot? id =
      (a.slot? id).map fun s => if id ∈ row then { s with parent := up } else s := by
  induction row generalizing a with
  | nil => simp [reparent]
  | cons child row ih =>
    rw [reparent, List.foldl_cons]
    refine (ih _).trans ?_
    rw [slot?_change, Option.map_map]
    congr 1
    funext s
    simp only [Function.comp_apply, List.mem_cons]
    split <;> split <;> simp_all

theorem size_reparent (a : Arena) (up : Option NodeId) (row : List NodeId) :
    (a.reparent up row).size = a.size := by
  induction row generalizing a with
  | nil => rfl
  | cons child row ih => exact (ih _).trans (size_change ..)

theorem size_detach (a : Arena) (id : NodeId) : (a.detach id).size = a.size := by
  rw [detach]
  cases a.parent? id <;> simp only [size_change, size_reparent]

theorem slot?_detach (a : Arena) (id other : NodeId) :
    (a.detach id).slot? other = (a.slot? other).map fun s =>
      { s with
        parent := if other ∈ a.children id then a.parent? id
          else if other = id then none else s.parent
        children :=
          let row := if other = id then [] else s.children
          if a.parent? id = some other then putFor (fun c => c) id (a.children id) row else row
        detached := if other = id then true else s.detached } := by
  rw [detach]
  cases a.parent? id with
  | none =>
    simp only [slot?_change, slot?_reparent, Option.map_map]
    congr 1
    funext s
    simp only [Function.comp_apply]
    split <;> split <;> simp
  | some up =>
    simp only [slot?_change, slot?_reparent, Option.map_map]
    congr 1
    funext s
    simp only [Function.comp_apply, Option.some.injEq, eq_comm (a := up)]
    split <;> split <;> split <;> simp_all

section

variable (hs : a.slot? id = some s)

include hs

theorem parent?_of_slot? : a.parent? id = s.parent := by rw [parent?, hs, Option.bind_some]

theorem children_of_slot? : a.children id = s.children := by rw [children, hs, Option.elim_some]

theorem slot?_detach_self (hc : id ∉ s.children) (hp : s.parent ≠ some id) :
    (a.detach id).slot? id = some { node := s.node, detached := true } := by
  rw [slot?_detach, parent?_of_slot? hs, children_of_slot? hs, hs]
  simp [hc, hp]

theorem slot?_detach_of_ne (hne : other ≠ id) :
    (a.detach id).slot? other = (a.slot? other).map fun s' =>
      { s' with
        parent := if other ∈ s.children then s.parent else s'.parent
        children := if s.parent = some other then putFor (fun c => c) id s.children s'.children
          else s'.children } := by
  rw [slot?_detach, parent?_of_slot? hs, children_of_slot? hs]
  simp [hne]

theorem slot?_detach_of_apart (hne : other ≠ id) (hc : other ∉ s.children)
    (hp : s.parent ≠ some other) : (a.detach id).slot? other = a.slot? other := by
  rw [slot?_detach_of_ne hs hne]
  simp only [if_neg hc, if_neg hp]
  exact Option.map_id' ..

end

-- ---------------------------------------------------------------------------
-- Edges
-- ---------------------------------------------------------------------------

end Arena

def Slot.ofEdge (d : NodeId → Bool) (e : Forest.Edge Vertex) : Slot where
  node := e.1.node
  parent := e.2.1.map Vertex.id
  children := e.2.2.map Vertex.id
  detached := d e.1.id

theorem Slot.ofEdge_congr {d d' : NodeId → Bool} {e : Forest.Edge Vertex}
    (h : d e.1.id = d' e.1.id) : ofEdge d e = ofEdge d' e := by rw [ofEdge, ofEdge, h]

namespace Arena

variable {a : Arena} {s : Slot} {d : NodeId → Bool} {v : Vertex} {below : Forest Vertex}
  {edges : List (Forest.Edge Vertex)}

def Holds (a : Arena) (d : NodeId → Bool) (edges : List (Forest.Edge Vertex)) : Prop :=
  ∀ e ∈ edges, a.slot? e.1.id = some (.ofEdge d e)

theorem Holds.detach {up : Option Vertex} (h : a.Holds d (below.edges (some v)))
    (hs : a.slot? v.id = some s) (hup : s.parent = up.map Vertex.id)
    (hc : s.children = below.roots.map Vertex.id) (hk : (Forest.tree v below).Keyed Vertex.id)
    (hne : ∀ w ∈ below.toList, s.parent ≠ some w.id) :
    (a.detach v.id).Holds d (below.edges up) := by
  intro e he
  have hmem := Forest.fst_mem_of_mem_edges he
  rw [slot?_detach_of_ne hs (hk.ne_below hmem)]
  simp only [if_neg (hne _ hmem)]
  rcases Forest.edges_under he with ⟨hroot, hparent, hall⟩ | ⟨⟨w, -, hparent⟩, hall⟩
  · have hold := h _ (hall (some v))
    rw [hold, Option.map_some, hc, if_pos (List.mem_map_of_mem hroot), hup, ← hparent]
    rfl
  · have hnot : e.1.id ∉ below.roots.map Vertex.id := by
      intro hin
      obtain ⟨c, hc, hid⟩ := List.mem_map.mp hin
      obtain ⟨row, hrow⟩ := Forest.edge_of_root hc none
      have := hk.below.edge_unique hrow (hall none) hid
      rw [← this] at hparent
      cases hparent
    rw [h _ (hall _), Option.map_some, hc, if_neg hnot]

-- ---------------------------------------------------------------------------
-- Graphs
-- ---------------------------------------------------------------------------

/-- The arena and the graph tell the same about every number. -/
structure Shows (a : Arena) (g : Graph) : Prop where
  node? : ∀ id, a.node? id = g.node? id
  parent? : ∀ id, a.parent? id = g.parent? id
  children : ∀ id, a.children id = g.children id
  isDetached : ∀ id, a.isDetached id = g.isDetached id

end Arena

open Arena (Shows)

namespace Graph.WellFormed

variable {g : Graph} {id : NodeId} {e : Forest.Edge Vertex}

theorem exists_edge (hg : g.WellFormed) (h : id < g.size) :
    ∃ e ∈ g.forest.edges none, e.1.id = id := by
  obtain ⟨path, t, ht, rfl⟩ := hg.exists_leads h
  exact ⟨_, ht.mem_edges none, rfl⟩

theorem of_mem_edges (hg : g.WellFormed) (he : e ∈ g.forest.edges none) :
    g.node? e.1.id = some e.1.node ∧ g.parent? e.1.id = e.2.1.map Vertex.id ∧
      g.children e.1.id = e.2.2.map Vertex.id := by
  obtain ⟨path, t, ht, rfl⟩ := hg.keyed.leads_of_mem_edges he
  exact ⟨hg.node?_eq ht, by rw [hg.parent?_eq ht, Option.or_none], hg.children_eq ht⟩

theorem lt_size_of_mem_edges (hg : g.WellFormed) (he : e ∈ g.forest.edges none) :
    e.1.id < g.size := by
  obtain ⟨path, t, ht, rfl⟩ := hg.keyed.leads_of_mem_edges he
  exact hg.lt_size ht

theorem node?_eq_none_iff (hg : g.WellFormed) : g.node? id = none ↔ g.size ≤ id := by
  constructor
  · refine fun h => Nat.le_of_not_lt fun hlt => ?_
    obtain ⟨e, he, rfl⟩ := hg.exists_edge hlt
    cases (hg.of_mem_edges he).1.symm.trans h
  · refine fun h => Option.eq_none_iff_forall_ne_some.mpr fun n hn => ?_
    obtain ⟨path, t, ht, hv⟩ := leads_of_node? hn
    exact Nat.not_lt_of_le h (by simpa [hv] using hg.lt_size ht)

theorem parent?_of_mem_row {c : Vertex} (hg : g.WellFormed) (he : e ∈ g.forest.edges none)
    (hc : c ∈ e.2.2) : g.parent? c.id = some e.1.id := by
  obtain ⟨row, hrow⟩ := Forest.edge_of_child he hc
  exact (hg.of_mem_edges hrow).2.1

theorem exists_attach {t : Tree Vertex} {path : List Vertex} {parent : NodeId} (hg : g.WellFormed)
    (ht : g.forest.Leads path t) (hp : parent < g.size) (hb : parent ∉ g.descendants t.label.id) :
    ∃ way up, (g.forest.remove (has t.label.id)).Leads way up ∧ up.label.id = parent ∧
      g.attach t.label.id parent = { g with
        forest := (g.forest.remove (has t.label.id)).changeBelow (has parent)
          fun _ below => below ++ .tree t.label t.below } := by
  obtain ⟨before, after, hwhole, hothers, -⟩ := ht.exists_around hg.keyed rfl
  obtain ⟨way, p, hway, rfl⟩ := hg.exists_leads hp
  have hmem : p.label ∈ (g.forest.remove (has t.label.id)).toList := by
    have hlist : (g.forest.remove (has t.label.id)).toList = before ++ after := hothers
    have hin := hway.mem
    rw [hwhole, List.append_assoc, List.mem_append, List.mem_append] at hin
    rw [hlist, List.mem_append]
    refine hin.imp_right fun hin => hin.resolve_left fun hin => hb ?_
    rw [descendants, hg.tree?_eq ht, Option.elim_some, ← List.map_cons]
    exact List.mem_map_of_mem hin
  obtain ⟨way, up, hup, hlabel⟩ := Forest.exists_leads_of_mem hmem
  refine ⟨way, up, hup, by rw [hlabel], ?_⟩
  have hfound : (g.forest.remove (has t.label.id)).find? (has p.label.id) = some up :=
    (hup.find?_path? (hg.keyed.remove _) (by rw [hlabel])).1
  simp only [Graph.attach, hg.tree?_eq ht, hfound, Option.isSome_some, if_true]

theorem ne_of_mem_row (hg : g.WellFormed) (he : e ∈ g.forest.edges none)
    (hid : g.parent? id ≠ some e.1.id) : ∀ w ∈ e.2.2, w.id ≠ id := by
  rintro w hw rfl
  exact hid (hg.parent?_of_mem_row he hw)

theorem parent?_of_le (hg : g.WellFormed) (h : g.size ≤ id) : g.parent? id = none := by
  rw [parent?, List.find?_eq_none.mpr, Option.bind_none]
  intro e he hid
  exact Nat.not_lt_of_le h (beq_iff_eq.mp hid ▸ hg.lt_size_of_mem_edges he)

theorem children_of_le (hg : g.WellFormed) (h : g.size ≤ id) : g.children id = [] := by
  rw [children, Option.map_eq_none_iff.mp (hg.node?_eq_none_iff.mpr h), Option.elim_none]

end Graph.WellFormed

namespace Arena

variable {g : Graph} {a : Arena} {id : NodeId}

theorem Shows.size_eq (h : a.Shows g) (hg : g.WellFormed) : a.size = g.size := by
  have hiff (id : NodeId) : a.size ≤ id ↔ g.size ≤ id := by
    rw [← hg.node?_eq_none_iff, ← h.node?, ← slot?_eq_none_iff, Arena.node?, Option.map_eq_none_iff]
  exact Nat.le_antisymm ((hiff _).mpr (Nat.le_refl _)) ((hiff _).mp (Nat.le_refl _))

theorem Shows.lt_size_of_isDetached (h : a.Shows g) (hg : g.WellFormed)
    (hd : g.isDetached id = true) : id < g.size := by
  rw [← h.size_eq hg, ← Nat.not_le, ← slot?_eq_none_iff]
  intro hn
  rw [← h.isDetached, Arena.isDetached, hn] at hd
  cases hd

theorem Shows.holds (h : a.Shows g) (hg : g.WellFormed) :
    a.Holds g.isDetached (g.forest.edges none) := by
  intro e he
  obtain ⟨hn, hp, hc⟩ := hg.of_mem_edges he
  have hd := h.isDetached e.1.id
  rw [← h.node?] at hn
  rw [← h.parent?] at hp
  rw [← h.children] at hc
  obtain ⟨⟨n, p, c, d⟩, hs, rfl⟩ := Option.map_eq_some_iff.mp hn
  rw [parent?_of_slot? hs] at hp
  rw [children_of_slot? hs] at hc
  rw [Arena.isDetached, hs, Option.any_some] at hd
  rw [hs, Slot.ofEdge, ← hp, ← hc, ← hd]

theorem Shows.exists_slot {t : Tree Vertex} {path : List Vertex} (h : a.Shows g) (hg : g.WellFormed)
    (ht : g.forest.Leads path t) : ∃ s, a.slot? t.label.id = some s ∧ s.node = t.label.node ∧
      s.parent = path.dropLast.getLast?.map Vertex.id ∧ s.children = t.below.roots.map Vertex.id :=
  ⟨_, h.holds hg _ (ht.mem_edges none), rfl, by rw [Slot.ofEdge, Option.or_none], rfl⟩

theorem shows_of_holds (hg : g.WellFormed) (hsize : a.size = g.size)
    (h : a.Holds g.isDetached (g.forest.edges none))
    (hd : ∀ id, g.isDetached id = true → id < g.size) : a.Shows g := by
  -- a number below the size has an edge, any other one nothing
  have hnone {id : NodeId} (hle : g.size ≤ id) : a.slot? id = none :=
    slot?_eq_none_iff.mpr (hsize ▸ hle)
  constructor <;> intro id <;> rcases Nat.lt_or_ge id g.size with hlt | hle
  case node?.inl | parent?.inl | children.inl | isDetached.inl =>
    obtain ⟨e, he, rfl⟩ := hg.exists_edge hlt
    obtain ⟨hn, hp, hc⟩ := hg.of_mem_edges he
    simp [Arena.node?, Arena.parent?, Arena.children, Arena.isDetached, h e he, Slot.ofEdge, *]
  case node?.inr =>
    rw [Arena.node?, hnone hle, hg.node?_eq_none_iff.mpr hle, Option.map_none]
  case parent?.inr =>
    rw [Arena.parent?, hnone hle, hg.parent?_of_le hle, Option.bind_none]
  case children.inr =>
    rw [Arena.children, hnone hle, hg.children_of_le hle, Option.elim_none]
  case isDetached.inr =>
    rw [Arena.isDetached, hnone hle, Option.any_none, eq_comm, Bool.eq_false_iff]
    exact fun he => Nat.not_lt_of_le hle (hd id he)

-- ---------------------------------------------------------------------------
-- One step
-- ---------------------------------------------------------------------------

theorem shows_empty : Shows {} {} := by
  constructor <;> intro id <;> rfl

theorem Shows.add (h : a.Shows g) (hg : g.WellFormed) (n : Node) : (a.add n).Shows (g.add n) := by
  have hsize := h.size_eq hg
  refine shows_of_holds (hg.add n) (by rw [size_add, hsize]; rfl) (fun e he => ?_) fun id hd =>
    Nat.lt_succ_of_lt (h.lt_size_of_isDetached hg hd)
  rw [Graph.add, Forest.edges_append] at he
  rcases List.mem_append.mp he with he | he
  · rw [slot?_add, hsize, if_neg (Nat.ne_of_lt (hg.lt_size_of_mem_edges he))]
    exact h.holds hg e he
  · obtain rfl := List.mem_singleton.mp he
    have hnew : g.isDetached g.size = false :=
      Bool.eq_false_iff.mpr fun hd => Nat.lt_irrefl _ (h.lt_size_of_isDetached hg hd)
    rw [slot?_add, hsize, if_pos rfl, Slot.ofEdge]
    exact congrArg (fun d => some { node := n, detached := d : Slot }) hnew.symm

theorem Shows.update (h : a.Shows g) (hg : g.WellFormed) (id : NodeId) (f : Node → Node) :
    (a.change id fun s => { s with node := f s.node }).Shows (g.update id f) := by
  refine shows_of_holds (hg.update id f) ((size_change ..).trans (h.size_eq hg)) (fun e he => ?_)
    fun id hd => h.lt_size_of_isDetached hg hd
  let updated (v : Vertex) : Vertex := if v.id = id then { v with node := f v.node } else v
  have hid (v : Vertex) : (updated v).id = v.id := by
    dsimp only [updated]
    split <;> rfl
  have hids : Vertex.id ∘ updated = Vertex.id := funext hid
  obtain ⟨e, he', rfl⟩ := List.mem_map.mp (Forest.edges_map updated g.forest none ▸ he)
  rw [Slot.ofEdge, hid, slot?_change, h.holds hg e he', Option.map_some, Slot.ofEdge]
  dsimp only
  rw [Option.map_map, List.map_map, hids]
  dsimp only [updated]
  split <;> rfl

theorem map_without (child : NodeId) (row : List Vertex) :
    (Forest.without Vertex.id child row).map Vertex.id = (row.map Vertex.id).filter (· != child) := by
  rw [Forest.without, List.filter_map]
  rfl

theorem Shows.slot?_attach {e : Forest.Edge Vertex} {above : Option Vertex} {row : List Vertex}
    {child parent : Vertex} (h : a.Shows g) (hg : g.WellFormed)
    (he : (e.1, above, row) ∈ g.forest.edges none)
    (hup : e.2.1 = if e.1.id = child.id then some parent else above)
    (hrow : e.2.2 = Forest.without Vertex.id child.id row ++
      if e.1.id = parent.id then [child] else []) :
    (a.attach child.id parent.id).slot? e.1.id = some (.ofEdge g.isDetached e) := by
  have hleft : (if a.parent? child.id = some e.1.id then (row.map Vertex.id).filter (· != child.id)
      else row.map Vertex.id) = (Forest.without Vertex.id child.id row).map Vertex.id := by
    rw [map_without]
    split
    · rfl
    · -- no other row has the child
      rename_i hne
      rw [h.parent?] at hne
      refine (List.filter_eq_self.mpr fun c hc => ?_).symm
      obtain ⟨w, hw, rfl⟩ := List.mem_map.mp hc
      exact bne_iff_ne.mpr (hg.ne_of_mem_row he hne w hw)
  rw [Arena.slot?_attach, h.holds hg _ he, Option.map_some]
  dsimp only [Slot.ofEdge]
  rw [hleft, hup, hrow, List.map_append]
  split <;> split <;> rfl

/-- A row that the child does not come to can only lose it. -/
theorem Shows.slot?_attach_other {e : Forest.Edge Vertex} {path : List Vertex} {t : Tree Vertex}
    {parent : Vertex} (h : a.Shows g) (hg : g.WellFormed) (ht : g.forest.Leads path t)
    (he : e ∈ (g.forest.remove (Graph.has t.label.id)).edges none) (hparent : e.1.id ≠ parent.id) :
    (a.attach t.label.id parent.id).slot? e.1.id = some (.ofEdge g.isDetached e) := by
  obtain ⟨row, he, hself, hrow⟩ := ht.mem_edges_remove hg.keyed rfl he
  refine h.slot?_attach hg he ?_ ?_
  · rw [if_neg (hself _ (List.mem_cons_self ..)).symm]
  · rw [if_neg hparent, List.append_nil, hrow]

theorem Shows.attach (h : a.Shows g) (hg : g.WellFormed) (hc : child < g.size)
    (hp : parent < g.size) (hb : parent ∉ g.descendants child) :
    (a.attach child parent).Shows (g.attach child parent) := by
  obtain ⟨path, t, ht, rfl⟩ := hg.exists_leads hc
  obtain ⟨way, up, hup, rfl, hattach⟩ := hg.exists_attach ht hp hb
  have ho := hg.keyed.remove (Graph.has t.label.id)
  have hne : ∀ w ∈ t.toList, w.id ≠ up.label.id := by
    intro w hw he
    rw [Graph.descendants, hg.tree?_eq ht, Option.elim_some, ← List.map_cons, ← he] at hb
    exact hb (List.mem_map_of_mem hw)
  -- a row below the child does not change
  have hrow {row : List Vertex} (hrow : row ⊆ t.below.toList) :
      row = Forest.without Vertex.id t.label.id row :=
    (Forest.without_eq_self fun w hw => (ht.keyed hg.keyed).ne_below (hrow hw)).symm
  refine shows_of_holds (hg.attach _ _) ?_ (fun e he => ?_) fun id hd => ?_
  · rw [size_attach, h.size_eq hg, hattach]
  · have hd : (g.attach t.label.id up.label.id).isDetached = g.isDetached := by rw [hattach]; rfl
    rw [hattach] at he
    rw [hd]
    rcases hup.mem_edges_changeBelow ho rfl he with ⟨he, hout⟩ | rfl | he
    · exact h.slot?_attach_other hg ht he (hout _ (List.mem_cons_self ..)).symm
    · obtain ⟨row, he, -, hrow⟩ := ht.mem_edges_remove hg.keyed rfl (hup.mem_edges none)
      refine h.slot?_attach hg he ?_ ?_
      · rw [if_neg (hne _ (List.mem_cons_self ..)).symm]
      · rw [if_pos rfl, Forest.roots_append, ← hrow]
        rfl
    · rw [Forest.edges_append] at he
      rcases List.mem_append.mp he with he | he
      · exact h.slot?_attach_other hg ht (hup.edges_subset none he)
          ((hup.keyed ho).ne_below (Forest.fst_mem_of_mem_edges he))
      · rcases List.mem_cons.mp he with rfl | he
        · refine h.slot?_attach hg (ht.mem_edges none) ?_ ?_
          · rw [if_pos rfl]
          · rw [if_neg (hne _ (List.mem_cons_self ..)), List.append_nil]
            exact hrow (Forest.roots_sublist _).subset
        · rw [Forest.edges, List.append_nil] at he
          have hmem := Forest.fst_mem_of_mem_edges he
          refine h.slot?_attach hg (ht.edges_subset none he) ?_ ?_
          · rw [if_neg ((ht.keyed hg.keyed).ne_below hmem)]
          · rw [if_neg (hne _ (List.mem_cons_of_mem _ hmem)), List.append_nil]
            exact hrow (Forest.row_subset he)
  · rw [hattach] at hd ⊢
    exact h.lt_size_of_isDetached hg hd

theorem Shows.addChild (h : a.Shows g) (hg : g.WellFormed) (hp : parent < g.size) (n : Node) :
    ((a.add n).attach g.size parent).Shows (g.addChild parent n) := by
  have hnew : (g.add n).forest.Leads [⟨g.size, n⟩] ⟨⟨g.size, n⟩, .nil⟩ :=
    Forest.leads_append.mpr (.inr (Forest.leads_tree _ _))
  refine (h.add hg n).attach (hg.add n) (Nat.lt_succ_self _) (Nat.lt_succ_of_lt hp) fun hin => ?_
  have hlist : (g.add n).descendants g.size = [g.size] := by
    rw [Graph.descendants, (hg.add n).tree?_eq hnew]
    rfl
  exact Nat.ne_of_lt hp (List.mem_singleton.mp (hlist ▸ hin))

theorem Shows.slot?_detach {t : Tree Vertex} {path : List Vertex} {e : Forest.Edge Vertex}
    {row : List Vertex} (h : a.Shows g) (hg : g.WellFormed) (ht : g.forest.Leads path t)
    (he : (e.1, e.2.1, row) ∈ g.forest.edges none) (hne : ∀ w ∈ t.toList, w.id ≠ e.1.id)
    (hrow : e.2.2 = putFor Vertex.id t.label.id t.below.roots row) :
    (a.detach t.label.id).slot? e.1.id = some (.ofEdge g.isDetached e) := by
  obtain ⟨s, hs, -, hp, hc⟩ := h.exists_slot hg ht
  have hnot : e.1.id ∉ s.children := by
    intro hin
    obtain ⟨w, hw, hid⟩ := List.mem_map.mp (hc ▸ hin)
    exact hne w (List.mem_cons_of_mem _ ((Forest.roots_sublist _).subset hw)) hid
  rw [slot?_detach_of_ne hs (hne _ (List.mem_cons_self ..)).symm, h.holds hg _ he, Option.map_some]
  dsimp only [Slot.ofEdge]
  rw [if_neg hnot, hrow, Forest.map_putFor, ← hc]
  split
  · rfl
  · rename_i hup
    rw [hp, ← hg.parent?_eq ht] at hup
    rw [Forest.putFor_eq_self]
    intro c hc
    obtain ⟨w, hw, rfl⟩ := List.mem_map.mp hc
    exact hg.ne_of_mem_row he hup w hw

theorem Shows.detach (h : a.Shows g) (hg : g.WellFormed) (hid : id < g.size) :
    (a.detach id).Shows (g.detach id) := by
  obtain ⟨path, t, ht, rfl⟩ := hg.exists_leads hid
  have hdetach : g.detach t.label.id = { g with
      forest := g.forest.splice (Graph.has t.label.id) ++ .tree t.label .nil
      detached := OrderedSet.add g.detached t.label.id } := by rw [Graph.detach, hg.tree?_eq ht]
  have hmarked (other : NodeId) : (g.detach t.label.id).isDetached other =
      (g.isDetached other || other == t.label.id) := by
    rw [hdetach, Graph.isDetached, Graph.isDetached, Bool.eq_iff_iff]
    simp
  -- the parent of the node and its children are other nodes
  obtain ⟨s, hs, hnode, hp, hc⟩ := h.exists_slot hg ht
  have hparent : ∀ w ∈ t.toList, s.parent ≠ some w.id := by
    intro w hw he
    obtain ⟨above, ha, he⟩ := Option.map_eq_some_iff.mp (hp ▸ he)
    exact hg.keyed.ne_parent ht ha w hw he.symm
  have hbelow : ∀ w ∈ t.below.toList, w.id ≠ t.label.id :=
    fun w hw => (ht.keyed hg.keyed).ne_below hw
  refine shows_of_holds (hg.detach _) ?_ (fun e he => ?_) fun other hd => ?_
  · rw [size_detach, h.size_eq hg, hdetach]
  · rw [hdetach, Forest.edges_append] at he
    rcases List.mem_append.mp he with he | he
    · have hkeep (hne : e.1.id ≠ t.label.id) : Slot.ofEdge (g.detach t.label.id).isDetached e =
          Slot.ofEdge g.isDetached e := Slot.ofEdge_congr (by simp [hmarked, hne])
      rcases ht.mem_edges_splice hg.keyed rfl he with ⟨row, he, hne, hrow⟩ | he
      · rw [hkeep (hne _ (List.mem_cons_self ..)).symm]
        exact h.slot?_detach hg ht he hne hrow
      · rw [hkeep (hbelow _ (Forest.fst_mem_of_mem_edges he))]
        rw [Option.or_none] at he
        have hold : a.Holds g.isDetached (t.below.edges (some t.label)) :=
          fun e he => h.holds hg e (ht.edges_subset none he)
        exact hold.detach hs hp hc (ht.keyed hg.keyed)
          (fun w hw => hparent w (List.mem_cons_of_mem _ hw)) e he
    · obtain rfl := List.mem_singleton.mp he
      rw [slot?_detach_self hs _ (hparent _ (List.mem_cons_self ..)), hnode]
      · simp [Slot.ofEdge, hmarked, Forest.roots]
      · intro hin
        obtain ⟨w, hw, he⟩ := List.mem_map.mp (hc ▸ hin)
        exact hbelow w ((Forest.roots_sublist _).subset hw) he
  · rw [hmarked, Bool.or_eq_true, beq_iff_eq] at hd
    rw [hdetach]
    rcases hd with hd | rfl
    · exact h.lt_size_of_isDetached hg hd
    · exact hid

end Arena

end ChartPipeline
