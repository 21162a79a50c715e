import ChartPipeline.Proofs.Graph.History

/-!
# Detaching a node

A node that is detached leaves its children in its place. In every other listing nothing but the
node itself is missing (`descendants_detach`), and besides the links between the node, its children
and its parent nothing has changed (`History.detach_splices`).
-/

namespace ChartPipeline

namespace Forest

variable {α : Type} {p : α → Bool} {f : Forest α} {t : Tree α} {path : List α}

theorem Leads.splice (h : f.Leads path t) (hp : p t.label = false) :
    (f.splice p).Leads (path.filter fun a => !p a) ⟨t.label, t.below.splice p⟩ := by
  induction h with
  | here =>
    simp only [Forest.splice, hp]
    simpa [hp] using Leads.here
  | @down below path t a rest _ ih =>
    rw [Forest.splice, List.filter_cons]
    cases p a with
    | true => exact leads_append.mpr (.inl (ih hp))
    | false => exact (ih hp).down
  | @along rest path t a below _ ih =>
    rw [Forest.splice]
    cases p a with
    | true => exact leads_append.mpr (.inr (ih hp))
    | false => exact (ih hp).along

end Forest

namespace Graph

variable {g : Graph} {id root : NodeId} {t : Tree Vertex} {path : List Vertex}

theorem WellFormed.detach_eq (hg : g.WellFormed) (ht : g.forest.Leads path t) :
    g.detach t.label.id = { g with
      forest := g.forest.splice (has t.label.id) ++ .tree t.label .nil
      detached := OrderedSet.add g.detached t.label.id } := by
  rw [Graph.detach, hg.tree?_eq ht]

theorem WellFormed.descendants_detach (hg : g.WellFormed) (hid : id < g.size) (hne : root ≠ id) :
    (g.detach id).descendants root = (g.descendants root).filter (· != id) := by
  obtain ⟨path, t, ht, rfl⟩ := hg.exists_leads hid
  have hg' := hg.detach t.label.id
  rcases Nat.lt_or_ge root g.size with hroot | hroot
  · obtain ⟨way, u, hu, rfl⟩ := hg.exists_leads hroot
    have hnot : has t.label.id u.label = false := beq_eq_false_iff_ne.mpr hne
    have hnow : (g.detach t.label.id).forest.Leads (way.filter fun v => !has t.label.id v)
        ⟨u.label, u.below.splice (has t.label.id)⟩ := by
      rw [hg.detach_eq ht]
      exact Forest.leads_append.mpr (.inl (hu.splice hnot))
    have htree := hg'.tree?_eq hnow
    dsimp only at htree
    rw [descendants, descendants, htree, hg.tree?_eq hu, Option.elim_some, Option.elim_some,
      Forest.toList_splice, List.filter_cons_of_pos (by simpa using hne), List.filter_map]
    rfl
  · have hsize : (g.detach t.label.id).size ≤ root := by rwa [hg.detach_eq ht]
    have hnone {g : Graph} (hg : g.WellFormed) (h : g.size ≤ root) : g.tree? root = none :=
      Option.map_eq_none_iff.mp (hg.node?_eq_none_iff.mpr h)
    rw [descendants, descendants, hnone hg' hsize, hnone hg hroot]
    rfl

theorem WellFormed.parent?_ne_self (hg : g.WellFormed) (id : NodeId) : g.parent? id ≠ some id := by
  intro hp
  rcases Nat.lt_or_ge id g.size with hid | hid
  · obtain ⟨path, t, ht, rfl⟩ := hg.exists_leads hid
    rw [hg.parent?_eq ht] at hp
    obtain ⟨above, ha, he⟩ := Option.map_eq_some_iff.mp hp
    exact hg.keyed.ne_parent ht ha t.label (List.mem_cons_self ..) he.symm
  · rw [hg.parent?_of_le hid] at hp
    cases hp

end Graph

namespace Arena

open Forest (putFor putFor_append)

variable {a b : Arena} {g : Graph} {id other up : NodeId} {first last : List NodeId}

/-- A node has been spliced out: its children stand in its place, in their order, and nothing else
is different. -/
structure Spliced (a b : Arena) (id : NodeId) : Prop where
  /-- In the listing of any other node only the one is missing. -/
  listed : ∀ root < a.size, root ≠ id →
    ∃ out, a.Lists [root] out ∧ b.Lists [root] (out.filter (· != id))
  row : ∀ up, a.parent? id = some up → ∃ first last, a.children up = first ++ id :: last ∧
    id ∉ first ++ last ∧ b.children up = first ++ a.children id ++ last
  moved : ∀ child ∈ a.children id, b.parent? child = a.parent? id
  alone : b.parent? id = none ∧ b.children id = [] ∧ b.isDetached id = true
  size : b.size = a.size
  nodes : ∀ other, b.node? other = a.node? other
  marks : ∀ other ≠ id, b.isDetached other = a.isDetached other
  parents : ∀ other ≠ id, other ∉ a.children id → b.parent? other = a.parent? other
  rows : ∀ other ≠ id, a.parent? id ≠ some other → b.children other = a.children other

-- ---------------------------------------------------------------------------
-- One slot
-- ---------------------------------------------------------------------------

theorem node?_detach (a : Arena) (id other : NodeId) :
    (a.detach id).node? other = a.node? other := by
  rw [node?, slot?_detach, Option.map_map, node?]
  rfl

theorem isDetached_detach_of_ne (hne : other ≠ id) :
    (a.detach id).isDetached other = a.isDetached other := by
  rw [isDetached, slot?_detach, isDetached]
  cases a.slot? other <;> simp [hne]

theorem parent?_detach_of_child (hc : other ∈ a.children id) (hs : (a.slot? other).isSome) :
    (a.detach id).parent? other = a.parent? id := by
  obtain ⟨s, hs⟩ := Option.isSome_iff_exists.mp hs
  rw [parent?, slot?_detach, hs]
  simp [hc]

theorem parent?_detach_of_ne (hne : other ≠ id) (hc : other ∉ a.children id) :
    (a.detach id).parent? other = a.parent? other := by
  have hold : a.parent? other = (a.slot? other).bind Slot.parent := rfl
  rw [parent?, slot?_detach, hold]
  cases a.slot? other <;> simp [hne, hc]

theorem children_detach_of_ne (hne : other ≠ id) (hp : a.parent? id ≠ some other) :
    (a.detach id).children other = a.children other := by
  have hold : a.children other = (a.slot? other).elim [] Slot.children := rfl
  rw [children, slot?_detach, hold]
  cases a.slot? other <;> simp [hne, hp]

theorem children_detach_of_row (hne : up ≠ id) (hp : a.parent? id = some up)
    (hrow : a.children up = first ++ id :: last) (hfirst : id ∉ first) :
    (a.detach id).children up = first ++ a.children id ++ last := by
  have hput : putFor (fun c => c) id (a.children id) (a.children up) =
      first ++ a.children id ++ last := by
    have hne : ∀ c ∈ first, c ≠ id := by
      rintro c hc rfl
      exact hfirst hc
    rw [hrow, putFor_append _ _ hne, putFor, if_pos rfl, List.append_assoc]
  have hold : a.children up = (a.slot? up).elim [] Slot.children := rfl
  rw [← hput, hold, children, slot?_detach]
  cases a.slot? up with
  | none => simp [putFor]
  | some s => simp [hne, hp]

-- ---------------------------------------------------------------------------
-- All slots
-- ---------------------------------------------------------------------------

theorem Shows.exists_row (h : a.Shows g) (hg : g.WellFormed) (hp : a.parent? id = some up) :
    ∃ first last, a.children up = first ++ id :: last ∧ id ∉ first ++ last ∧
      (a.detach id).children up = first ++ a.children id ++ last := by
  have hup : g.parent? id = some up := h.parent? id ▸ hp
  have hne : up ≠ id := fun he => hg.parent?_ne_self id (he ▸ hup)
  obtain ⟨first, last, hrow⟩ := List.append_of_mem (hg.mem_children_iff.mpr hup)
  have hout : id ∉ first ++ last := by
    have hnodup : (first ++ id :: last).Nodup := hrow ▸ hg.nodup_children up
    exact (List.nodup_middle.mp hnodup).notMem
  rw [← h.children] at hrow
  exact ⟨first, last, hrow, hout,
    children_detach_of_row hne hp hrow fun hin => hout (List.mem_append_left _ hin)⟩

theorem Shows.exists_lists (h : a.Shows g) (hg : g.WellFormed) (hid : id < g.size)
    (hroot : other < g.size) (hne : other ≠ id) :
    ∃ out, a.Lists [other] out ∧ (a.detach id).Lists [other] (out.filter (· != id)) := by
  have hshows := h.detach hg hid
  have hsize : (g.detach id).size = g.size := by
    rw [← hshows.size_eq (hg.detach id), size_detach, h.size_eq hg]
  have hlists := hshows.lists (hg.detach id) (hsize ▸ hroot)
  rw [hg.descendants_detach hid hne] at hlists
  exact ⟨_, h.lists hg hroot, hlists⟩

theorem Shows.spliced (h : a.Shows g) (hg : g.WellFormed) (hid : id < g.size) :
    Spliced a (a.detach id) id := by
  have hsize := h.size_eq hg
  obtain ⟨s, hs⟩ : ∃ s, a.slot? id = some s := by
    obtain ⟨path, t, ht, rfl⟩ := hg.exists_leads hid
    obtain ⟨s, hs, -⟩ := h.exists_slot hg ht
    exact ⟨s, hs⟩
  have hparent : s.parent ≠ some id := by
    rw [← parent?_of_slot? hs, h.parent?]
    exact hg.parent?_ne_self id
  have hchild : id ∉ s.children := by
    rw [← children_of_slot? hs, h.children, hg.mem_children_iff]
    exact hg.parent?_ne_self id
  have halone := slot?_detach_self hs hchild hparent
  refine ⟨fun root hroot hne => h.exists_lists hg hid (hsize ▸ hroot) hne,
    fun up hup => h.exists_row hg hup, fun child hc => ?_, ⟨?_, ?_, ?_⟩, size_detach ..,
    node?_detach a id, fun other hne => isDetached_detach_of_ne hne,
    fun other hne hc => parent?_detach_of_ne hne hc,
    fun other hne hp => children_detach_of_ne hne hp⟩
  · refine parent?_detach_of_child hc ?_
    have hup : a.parent? child = some id := by
      rwa [h.parent?, ← hg.mem_children_iff, ← h.children]
    obtain ⟨s', hs', -⟩ := Option.bind_eq_some_iff.mp hup
    exact Option.isSome_of_eq_some hs'
  · rw [parent?_of_slot? halone]
  · rw [children_of_slot? halone]
  · rw [Arena.isDetached, halone, Option.any_some]

/-- After every history, detaching splices a node out, in the arena and in the graph that it
shows. -/
theorem History.detach_splices (h : History g a) (hid : id < a.size) :
    Spliced a (a.detach id) id ∧ (a.detach id).Shows (g.detach id) ∧
    ∀ root ≠ id, (g.detach id).descendants root = (g.descendants root).filter (· != id) := by
  have hg := h.reachable.wellFormed
  have hs := h.shows
  rw [hs.size_eq hg] at hid
  exact ⟨hs.spliced hg hid, hs.detach hg hid, fun root hne => hg.descendants_detach hid hne⟩

/-- A table with three computed fields. Two more ones come below the second. -/
def forked : Graph :=
  (((((({} : Graph).add (.source { data := {}, name := some "table" })).addChild 0
    (.calculate { expr := "datum.a", target := "b" })).addChild 0
    (.calculate { expr := "datum.a", target := "c" })).addChild 0
    (.calculate { expr := "datum.a", target := "d" })).addChild 2
    (.calculate { expr := "datum.c", target := "e" })).addChild 2
    (.calculate { expr := "datum.c", target := "f" })

def forkedArena : Arena :=
  ((((((((((({} : Arena).add (.source { data := {}, name := some "table" })).add
    (.calculate { expr := "datum.a", target := "b" })).attach 1 0).add
    (.calculate { expr := "datum.a", target := "c" })).attach 2 0).add
    (.calculate { expr := "datum.a", target := "d" })).attach 3 0).add
    (.calculate { expr := "datum.c", target := "e" })).attach 4 2).add
    (.calculate { expr := "datum.c", target := "f" })).attach 5 2

theorem history_forked : History forked forkedArena :=
  History.empty.add (.source { data := {}, name := some "table" })
    |>.addChild 0 (.calculate { expr := "datum.a", target := "b" }) (by decide)
    |>.addChild 0 (.calculate { expr := "datum.a", target := "c" }) (by decide)
    |>.addChild 0 (.calculate { expr := "datum.a", target := "d" }) (by decide)
    |>.addChild 2 (.calculate { expr := "datum.c", target := "e" }) (by decide)
    |>.addChild 2 (.calculate { expr := "datum.c", target := "f" }) (by decide)

theorem detach_splices_forked :
    Spliced forkedArena (forkedArena.detach 2) 2 ∧ (forkedArena.detach 2).children 0 = [1, 4, 5, 3] ∧
    (forked.detach 2).descendants 0 = [0, 1, 4, 5, 3] := by
  obtain ⟨hspliced, -, hlisted⟩ := History.detach_splices history_forked (show 2 < _ by decide)
  exact ⟨hspliced, by decide, hlisted 0 (by decide)⟩

end Arena

end ChartPipeline
