import ChartPipeline.Proofs.Graph.Sweep
import Mathlib.Data.List.Dedup
import Mathlib.Logic.Function.Iterate

/-!
# Histories of an arena

Whatever is added, attached, detached and optimized, the links of an arena are those of a forest
(`History.links_form_forest`): every step is shown by the graph after it, and a graph is a forest.
-/

namespace ChartPipeline

namespace Graph.WellFormed

variable {g : Graph} {c p : NodeId} {id : NodeId} {t : Tree Vertex} {path : List Vertex}

theorem mem_children_iff (hg : g.WellFormed) : c ∈ g.children p ↔ g.parent? c = some p := by
  constructor
  · intro hc
    have hp : p < g.size := Nat.lt_of_not_le fun hle => by
      rw [hg.children_of_le hle] at hc
      cases hc
    obtain ⟨e, he, rfl⟩ := hg.exists_edge hp
    rw [(hg.of_mem_edges he).2.2] at hc
    obtain ⟨w, hw, rfl⟩ := List.mem_map.mp hc
    exact hg.parent?_of_mem_row he hw
  · intro hp
    have hc : c < g.size := Nat.lt_of_not_le fun hle => by
      rw [hg.parent?_of_le hle] at hp
      cases hp
    obtain ⟨⟨w, above, row⟩, he, rfl⟩ := hg.exists_edge hc
    rw [(hg.of_mem_edges he).2.1] at hp
    obtain ⟨up, rfl, rfl⟩ := Option.map_eq_some_iff.mp hp
    obtain ⟨habs, -⟩ | ⟨above, others, hup, hw⟩ := Forest.child_of_edge he
    · cases habs
    · rw [(hg.of_mem_edges hup).2.2]
      exact List.mem_map_of_mem hw

theorem nodup_children (hg : g.WellFormed) (p : NodeId) : (g.children p).Nodup := by
  rcases Nat.lt_or_ge p g.size with hp | hp
  · obtain ⟨path, t, ht, rfl⟩ := hg.exists_leads hp
    rw [hg.children_eq ht]
    exact hg.keyed.nodup_roots ht
  · rw [hg.children_of_le hp]
    exact List.nodup_nil

theorem iterate_parent? (hg : g.WellFormed) (ht : g.forest.Leads path t) :
    (fun up => up.bind g.parent?)^[path.length] (some t.label.id) = none := by
  induction hn : path.length generalizing path t with
  | zero => exact absurd (List.length_eq_zero_iff.mp hn) ht.ne_nil
  | succ n ih =>
    rw [Function.iterate_succ_apply, Option.bind_some, hg.parent?_eq ht]
    cases hup : path.dropLast.getLast? with
    | none => exact Function.iterate_fixed rfl n
    | some up =>
      have hne : path.dropLast ≠ [] := fun hnil => by simp [hnil] at hup
      rw [← ht.dropLast_append] at ht
      obtain ⟨above, habove, -⟩ := ht.split hne (by simp)
      obtain rfl := Option.some.inj (habove.getLast?.symm.trans hup)
      exact ih habove (by rw [List.length_dropLast, hn]; rfl)

theorem perm_descendants (hg : g.WellFormed) :
    (((List.range g.size).filter fun id => (g.parent? id).isNone).flatMap g.descendants).Perm
      (List.range g.size) := by
  have hroots : ((List.range g.size).filter fun id => (g.parent? id).isNone).Perm
      (g.forest.roots.map Vertex.id) := by
    refine (List.perm_ext_iff_of_nodup (List.nodup_range.filter _) ?_).mpr fun id => ?_
    · exact hg.keyed.sublist ((Forest.roots_sublist _).map _)
    rw [List.mem_filter, List.mem_range, Option.isNone_iff_eq_none, List.mem_map]
    constructor
    · rintro ⟨hid, hp⟩
      obtain ⟨path, t, ht, rfl⟩ := hg.exists_leads hid
      exact ⟨_, Forest.mem_roots.mpr ⟨t, hg.leads_of_parentless (hg.tree?_eq ht) hp, rfl⟩, rfl⟩
    · rintro ⟨v, hv, rfl⟩
      obtain ⟨t, ht, rfl⟩ := Forest.mem_roots.mp hv
      exact ⟨hg.lt_size ht, hg.parent?_eq ht⟩
  refine (hroots.flatMap_right _).trans ?_
  rw [List.flatMap_map, Forest.flatMap_roots (h := Vertex.id) fun t ht => ?_]
  · exact hg
  · rw [descendants, hg.tree?_eq ht]
    rfl

end Graph.WellFormed

namespace Arena

/-- An arena, and the graph that was built along with it. Nodes are there before they are linked,
and a node is attached to one that is not below it. -/
inductive History : Graph → Arena → Prop
  | empty : History {} {}
  | add (n : Node) : History g a → History (g.add n) (a.add n)
  | addChild (parent : NodeId) (n : Node) : History g a → parent < a.size →
      History (g.addChild parent n) ((a.add n).attach a.size parent)
  | attach (child parent : NodeId) : History g a → child < a.size → parent < a.size →
      parent ∉ g.descendants child → History (g.attach child parent) (a.attach child parent)
  | detach (id : NodeId) : History g a → id < a.size → History (g.detach id) (a.detach id)
  | update (id : NodeId) (f : Node → Node) : History g a →
      History (g.update id f) (a.change id fun s => { s with node := f s.node })
  | optimize (roots : List NodeId) : History g a → (∀ root ∈ roots, root < a.size) →
      Sweeps roots a b → History (g.optimize roots) b

variable {a b : Arena} {g : Graph}

theorem Lists.unique {stack out out' : List NodeId} (h : a.Lists stack out)
    (h' : a.Lists stack out') : out = out' := by
  induction h generalizing out' with
  | done =>
    cases h'
    rfl
  | next _ ih =>
    cases h' with
    | next h' => rw [ih h']

theorem Lists.row {row : Forest Vertex} {up : Option Vertex} {stack out : List NodeId}
    (hrow : ∀ e ∈ row.edges up, a.children e.1.id = e.2.2.map Vertex.id) (h : a.Lists stack out) :
    a.Lists (row.roots.map Vertex.id ++ stack) (row.toList.map Vertex.id ++ out) := by
  induction row generalizing up stack out with
  | nil => exact h
  | cons v below rest ihb ihr =>
    obtain ⟨hv, hrow⟩ := List.forall_mem_cons.mp hrow
    obtain ⟨hbelow, hrest⟩ := List.forall_mem_append.mp hrow
    rw [Forest.toList, List.map_cons, List.map_append, List.cons_append, List.append_assoc]
    refine .next ?_
    rw [hv]
    exact ihb hbelow (ihr hrest h)

theorem Shows.lists (h : a.Shows g) (hg : g.WellFormed) {id : NodeId} (hid : id < g.size) :
    a.Lists [id] (g.descendants id) := by
  obtain ⟨path, t, ht, rfl⟩ := hg.exists_leads hid
  have hrow : ∀ e ∈ (Forest.tree t.label t.below).edges none,
      a.children e.1.id = e.2.2.map Vertex.id := by
    rw [Forest.tree, Forest.edges, Forest.edges, List.append_nil]
    refine List.forall_mem_cons.mpr ⟨?_, fun e he => ?_⟩
    · exact (h.children _).trans (hg.children_eq ht)
    · exact (h.children _).trans (hg.of_mem_edges (ht.edges_subset none he)).2.2
  have hlists := Lists.row hrow .done
  rw [List.append_nil, List.append_nil, Forest.toList_tree] at hlists
  rw [Graph.descendants, hg.tree?_eq ht, Option.elim_some]
  exact hlists

theorem History.reachable (h : History g a) : g.Reachable := by
  induction h with
  | empty => exact .empty
  | add n _ ih => exact ih.add n
  | addChild parent n _ _ ih => exact ih.addChild parent n
  | attach child parent _ _ _ _ ih => exact ih.attach child parent
  | detach id _ _ ih => exact ih.detach id
  | update id f _ ih => exact ih.update id f
  | optimize roots _ _ _ ih => exact ih.optimize roots

theorem History.shows (h : History g a) : a.Shows g := by
  induction h with
  | empty => exact shows_empty
  | add n h ih => exact ih.add h.reachable.wellFormed n
  | addChild parent n h hp ih =>
    have hg := h.reachable.wellFormed
    have hsize := ih.size_eq hg
    rw [hsize] at hp ⊢
    exact ih.addChild hg hp n
  | attach child parent h hc hp hb ih =>
    have hg := h.reachable.wellFormed
    rw [ih.size_eq hg] at hc hp
    exact ih.attach hg hc hp hb
  | detach id h hid ih =>
    have hg := h.reachable.wellFormed
    exact ih.detach hg (ih.size_eq hg ▸ hid)
  | update id f h ih => exact ih.update h.reachable.wellFormed id f
  | optimize roots h hr hs ih =>
    have hg := h.reachable.wellFormed
    exact hs.shows ih hg fun root hroot => ih.size_eq hg ▸ hr root hroot

/-- After every history, a node stands once in the row of its parent and in no other row, the chain
of its parents ends, and the listings of the trees of all parentless nodes, in the order in which
they were added, hold every node once. The history can go on: optimizing always ends. -/
theorem History.links_form_forest (h : History g a) :
    a.Shows g ∧
    (∀ p c, (a.children p).count c = if a.parent? c = some p then 1 else 0) ∧
    (∀ id, ∃ n, (fun up => up.bind a.parent?)^[n] (some id) = none) ∧
    (∀ id < a.size, ∀ out, a.Lists [id] out ↔ out = g.descendants id) ∧
    (((List.range a.size).filter fun id => (a.parent? id).isNone).flatMap g.descendants).Perm
      (List.range a.size) ∧
    ∀ roots, (∀ root ∈ roots, root < a.size) → ∃ b, Sweeps roots a b := by
  have hg := h.reachable.wellFormed
  have hs := h.shows
  have hsize := hs.size_eq hg
  have hparent : a.parent? = g.parent? := funext hs.parent?
  rw [hsize, hparent]
  refine ⟨hs, fun p c => ?_, fun id => ?_, fun id hid out => ?_, hg.perm_descendants,
    fun roots hr => ?_⟩
  · rw [hs.children]
    split
    · rename_i hp
      exact List.count_eq_one_of_mem (hg.nodup_children p) (hg.mem_children_iff.mpr hp)
    · rename_i hp
      exact List.count_eq_zero_of_not_mem fun hc => hp (hg.mem_children_iff.mp hc)
  · rcases Nat.lt_or_ge id g.size with hid | hid
    · obtain ⟨path, t, ht, rfl⟩ := hg.exists_leads hid
      exact ⟨_, hg.iterate_parent? ht⟩
    · exact ⟨1, hg.parent?_of_le hid⟩
  · have hlists := hs.lists hg hid
    exact ⟨fun h => h.unique hlists, fun h => h ▸ hlists⟩
  · obtain ⟨b, hb, -⟩ := hs.exists_sweeps hg hr
    exact ⟨b, hb⟩

/-- A checkpoint that nothing refers to, with a facet and, behind a computed field, a checkpoint that
is required. The field is detached, and the first checkpoint has no effect. -/
def relinked : Graph :=
  (((((((({} : Graph).add (.source { data := {}, name := some "table" })).addChild 0
    (.checkpoint { name := "raw", required := false })).addChild 1
    (.calculate { expr := "datum.a", target := "b" })).addChild 2
    (.checkpoint { name := "main", required := true })).add
    (.facet { row := some "c" })).attach 4 1).detach 2).optimize [0]

def relinkedArena : Arena :=
  ((((((((((({} : Arena).add (.source { data := {}, name := some "table" })).add
    (.checkpoint { name := "raw", required := false })).attach 1 0).add
    (.calculate { expr := "datum.a", target := "b" })).attach 2 1).add
    (.checkpoint { name := "main", required := true })).attach 3 2).add
    (.facet { row := some "c" })).attach 4 1).detach 2).detach 1

theorem history_relinked : History relinked relinkedArena := by
  have hbuilt := History.empty.add (.source { data := {}, name := some "table" })
    |>.addChild 0 (.checkpoint { name := "raw", required := false }) (by decide)
    |>.addChild 1 (.calculate { expr := "datum.a", target := "b" }) (by decide)
    |>.addChild 2 (.checkpoint { name := "main", required := true }) (by decide)
    |>.add (.facet { row := some "c" })
    |>.attach 4 1 (by decide) (by decide) (by decide)
    |>.detach 2 (by decide)
  -- the walk takes up the row of the first checkpoint before that is detached
  exact hbuilt.optimize [0] (by decide) (.cons (.keep (absurd rfl) (.drop (by decide) rfl
    (.keep (fun _ => rfl) (.keep (fun _ => rfl) .done)))) .nil)

theorem links_form_forest_relinked :
    relinkedArena.children 0 = [3, 4] ∧ (relinkedArena.children 0).count 4 = 1 ∧
    ([0, 1, 2].flatMap relinked.descendants).Perm (List.range 5) := by
  obtain ⟨-, hcount, -, -, hperm, -⟩ := History.links_form_forest history_relinked
  exact ⟨rfl, hcount 0 4, hperm⟩

/-- A checkpoint that nothing refers to, above one that is required, and another one that is
required, with a filter between the two that filters nothing. -/
def checkpoints : Graph :=
  ((((({} : Graph).add (.source { data := {}, name := some "table" })).addChild 0
    (.checkpoint { name := "raw", required := false })).addChild 1
    (.checkpoint { name := "main", required := true })).addChild 2
    (.positiveFilter [("a", false)])).addChild 3 (.checkpoint { name := "copy", required := true })

def checkpointsArena : Arena :=
  ((((((((({} : Arena).add (.source { data := {}, name := some "table" })).add
    (.checkpoint { name := "raw", required := false })).attach 1 0).add
    (.checkpoint { name := "main", required := true })).attach 2 1).add
    (.positiveFilter [("a", false)])).attach 3 2).add
    (.checkpoint { name := "copy", required := true })).attach 4 3

theorem history_checkpoints : History checkpoints checkpointsArena :=
  History.empty.add (.source { data := {}, name := some "table" })
    |>.addChild 0 (.checkpoint { name := "raw", required := false }) (by decide)
    |>.addChild 1 (.checkpoint { name := "main", required := true }) (by decide)
    |>.addChild 2 (.positiveFilter [("a", false)]) (by decide)
    |>.addChild 3 (.checkpoint { name := "copy", required := true }) (by decide)

end Arena

end ChartPipeline
