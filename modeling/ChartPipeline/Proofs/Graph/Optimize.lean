import ChartPipeline.Proofs.Graph.Lookup

/-!
# What optimizing leaves

Below each of the given roots the nodes without effect are taken out, and nothing else changes
(`leads_optimize`). They have no transforms, so the paths that are left do the same to the rows
(`flatMap_transforms_kept`).
-/

namespace ChartPipeline.Graph

open Forest (Leads kept parentOn)

variable {g : Graph} {roots : List NodeId} {root id : NodeId} {t : Tree Vertex} {path : List Vertex}
  {up v : Vertex}

-- ---------------------------------------------------------------------------
-- What is dropped
-- ---------------------------------------------------------------------------

theorem transforms_eq_nil_of_drops (h : drops up v = true) : v.node.transforms = [] := by
  rw [drops] at h
  cases hv : v.node with
  | positiveFilter f =>
    rw [hv, isIdle, PositiveFilter.isIdle, List.all_eq_true] at h
    have hf : f.filter Prod.snd = [] := by
      refine List.filter_eq_nil_iff.mpr fun entry he => ?_
      simpa using h entry he
    rw [Node.transforms, PositiveFilter.transforms, hf, List.map_nil]
  | checkpoint => rfl
  | _ => simp [hv, isIdle] at h

theorem drops_of_isSource (h : v.node.isSource = true) (up : Vertex) : drops up v = false := by
  cases hv : v.node <;> simp_all [drops, isIdle, Node.isSource]

theorem drops_of_isParse (h : v.node.isParse = true) (up : Vertex) : drops up v = false := by
  cases hv : v.node <;> simp_all [drops, isIdle, Node.isParse]

theorem demands_of_not_drops (hc : v.node = .checkpoint c) (h : drops up v = false) :
    demands (some up.node) v.node = true := by
  simpa [drops, isIdle, hc] using h

theorem flatMap_transforms_kept (up : Vertex) (path : List Vertex) :
    (kept drops up path).flatMap (·.node.transforms) = path.flatMap (·.node.transforms) := by
  induction path generalizing up with
  | nil => rfl
  | cons v path ih =>
    rw [kept]
    split
    · rw [ih, List.flatMap_cons, transforms_eq_nil_of_drops ‹_›, List.nil_append]
    · rw [List.flatMap_cons, List.flatMap_cons, ih]

theorem isDetached_pruneBelow_of_keeps {n : Node} (hg : g.WellFormed) (hn : g.node? id = some n)
    (h : ∀ above, isIdle above n = false) (root : NodeId) :
    (g.pruneBelow root).isDetached id = g.isDetached id := by
  rw [Bool.eq_iff_iff, isDetached_pruneBelow_iff]
  refine or_iff_left ?_
  rintro ⟨v, hv, rfl⟩
  unfold idleBelow at hv
  cases ht : g.tree? root with
  | none => simp [ht] at hv
  | some t =>
    rw [ht, Option.elim_some] at hv
    obtain ⟨rfl, path, hl⟩ := leads_of_tree? ht
    have hmem : v ∈ t.below.toList :=
      (Forest.perm_prune drops t.label t.below).subset (List.mem_append_right _ hv)
    have hnode : g.node? v.id = some v.node :=
      hg.node?_eq_some_iff.mpr (hl.sublist.subset (List.mem_cons_of_mem _ hmem))
    obtain rfl := Option.some.inj (hn.symm.trans hnode)
    obtain ⟨above, hdrops⟩ := Forest.exists_of_mem_dropped hv
    rw [drops, h] at hdrops
    cases hdrops

theorem node?_pruneBelow (hg : g.WellFormed) (root id : NodeId) :
    (g.pruneBelow root).node? id = g.node? id :=
  Option.ext fun n => by
    rw [(hg.pruneBelow root).node?_eq_some_iff, hg.node?_eq_some_iff, (perm_pruneBelow hg root).mem_iff]

theorem node?_optimize (hg : g.WellFormed) (roots : List NodeId) (id : NodeId) :
    (g.optimize roots).node? id = g.node? id := by
  induction roots generalizing g with
  | nil => rfl
  | cons root roots ih => exact (ih (hg.pruneBelow root)).trans (node?_pruneBelow hg root id)

theorem size_optimize (g : Graph) (roots : List NodeId) :
    (g.optimize roots).size = g.size := by
  induction roots generalizing g with
  | nil => rfl
  | cons root roots ih => exact ih (g.pruneBelow root)

theorem isDetached_optimize_of_keeps {n : Node} (hg : g.WellFormed) (hn : g.node? id = some n)
    (h : ∀ above, isIdle above n = false) (roots : List NodeId) :
    (g.optimize roots).isDetached id = g.isDetached id := by
  induction roots generalizing g with
  | nil => rfl
  | cons root roots ih =>
    exact (ih (hg.pruneBelow root) ((node?_pruneBelow hg root id).trans hn)).trans
      (isDetached_pruneBelow_of_keeps hg hn h root)

-- ---------------------------------------------------------------------------
-- Where the others are
-- ---------------------------------------------------------------------------

theorem leads_pruneBelow (hg : g.WellFormed) (hr : g.forest.Leads [r.label] r)
    (ht : g.forest.Leads [t.label] t) : (g.pruneBelow r.label.id).forest.Leads [t.label]
      (if t.label.id = r.label.id then ⟨t.label, t.below.prune drops t.label⟩ else t) := by
  refine Forest.leads_append.mpr (.inl ?_)
  have hchanged := ht.changeBelow_root (p := has r.label.id) (g := Forest.prune drops)
  split
  · rename_i he
    rwa [has, he, beq_self_eq_true, if_pos rfl] at hchanged
  · rename_i he
    -- the root is on its own, so it is not below this tree
    have hbelow : ∀ v ∈ t.below.toList, has r.label.id v = false := by
      intro v hv
      refine Bool.eq_false_iff.mpr fun hid => ?_
      obtain ⟨path, u, hu, rfl⟩ := Forest.exists_leads_of_mem hv
      have hpath := ((ht.append hu).unique hg.keyed hr (beq_iff_eq.mp hid)).1
      exact hu.ne_nil (List.cons.inj hpath).2
    rwa [has, beq_eq_false_iff_ne.mpr he, if_neg (by simp), Forest.changeBelow_eq_self hbelow]
      at hchanged

/-- Roots are pruned one after the other, each on its own. -/
theorem leads_optimize (hg : g.WellFormed) (hn : roots.Nodup)
    (hr : ∀ root ∈ roots, ∃ r, g.forest.Leads [r.label] r ∧ r.label.id = root)
    (ht : g.forest.Leads [t.label] t) : (g.optimize roots).forest.Leads [t.label]
      (if t.label.id ∈ roots then ⟨t.label, t.below.prune drops t.label⟩ else t) := by
  induction roots generalizing g t with
  | nil => exact ht
  | cons root roots ih =>
    obtain ⟨hroot, hrest⟩ := List.nodup_cons.mp hn
    obtain ⟨⟨r, hl, rfl⟩, hlater⟩ := List.forall_mem_cons.mp hr
    have hroots : ∀ root ∈ roots, ∃ r', (g.pruneBelow r.label.id).forest.Leads [r'.label] r' ∧
        r'.label.id = root := by
      intro root hmem
      obtain ⟨r', hl', rfl⟩ := hlater root hmem
      have hne : r'.label.id ≠ r.label.id := fun he => hroot (he ▸ hmem)
      have hother := leads_pruneBelow hg hl hl'
      rw [if_neg hne] at hother
      exact ⟨r', hother, rfl⟩
    have hone := leads_pruneBelow hg hl ht
    change ((g.pruneBelow r.label.id).optimize roots).forest.Leads [t.label] _
    by_cases he : t.label.id = r.label.id
    · rw [if_pos he] at hone
      have hall := ih (t := ⟨t.label, t.below.prune drops t.label⟩) (hg.pruneBelow _) hrest hroots hone
      rw [if_neg (by simpa [he] using hroot)] at hall
      rwa [if_pos (by simp [he])]
    · rw [if_neg he] at hone
      have hall := ih (hg.pruneBelow _) hrest hroots hone
      have hiff : t.label.id ∈ r.label.id :: roots ↔ t.label.id ∈ roots := by simp [he]
      simpa only [hiff] using hall

-- ---------------------------------------------------------------------------
-- Where the dropped ones are
-- ---------------------------------------------------------------------------

def Apart (g : Graph) : Prop :=
  ∀ id ∈ g.detached, ∃ v below, g.forest.Leads [v] ⟨v, below⟩ ∧ v.id = id

theorem Apart.pruneBelow (h : g.Apart) (root : NodeId) : (g.pruneBelow root).Apart := by
  intro id hid
  rcases OrderedSet.mem_union.mp hid with hid | hid
  · obtain ⟨v, below, hv, rfl⟩ := h id hid
    exact ⟨v, _, Forest.leads_append.mpr (.inl hv.changeBelow_root), rfl⟩
  · obtain ⟨v, hv, rfl⟩ := List.mem_map.mp hid
    exact ⟨v, .nil, Forest.leads_append.mpr (.inr (Forest.leads_leaves.mpr ⟨v, hv, rfl, rfl⟩)), rfl⟩

theorem Apart.optimize (h : g.Apart) (roots : List NodeId) : (g.optimize roots).Apart := by
  induction roots generalizing g with
  | nil => exact h
  | cons root roots ih => exact ih (h.pruneBelow root)

theorem Apart.isDetached_eq (h : g.Apart) (hg : g.WellFormed) (ht : g.forest.Leads (v :: path) t)
    (hn : path ≠ []) : g.isDetached t.label.id = false := by
  refine Bool.eq_false_iff.mpr fun hid => ?_
  obtain ⟨u, below, hu, he⟩ := h _ (List.contains_iff_mem.mp hid)
  exact hn (List.cons.inj (ht.unique hg.keyed hu he.symm).1).2

/-- Besides the given roots only detached nodes stand in the row of the forest, alone. -/
def Rooted (g : Graph) (roots : List NodeId) : Prop :=
  ∀ v t, g.forest.Leads [v] t → v.id ∈ roots ∨ v.id ∈ g.detached ∧ t.below = .nil

theorem Rooted.pruneBelow (h : g.Rooted roots) (root : NodeId) : (g.pruneBelow root).Rooted roots := by
  intro v t ht
  rcases Forest.leads_append.mp ht with ht | ht
  · obtain ⟨u, hu, rfl⟩ := ht.of_changeBelow_root
    refine (h v u hu).imp_right fun ⟨hv, hnil⟩ => ⟨OrderedSet.mem_union.mpr (.inl hv), ?_⟩
    rw [hnil]
    exact ite_self _
  · obtain ⟨u, hu, hpath, rfl⟩ := Forest.leads_leaves.mp ht
    obtain rfl := List.singleton_inj.mp hpath
    exact .inr ⟨OrderedSet.mem_union.mpr (.inr (List.mem_map_of_mem hu)), rfl⟩

theorem Rooted.optimize (h : g.Rooted roots) (more : List NodeId) : (g.optimize more).Rooted roots := by
  induction more generalizing g with
  | nil => exact h
  | cons root more ih => exact ih (h.pruneBelow root)

end ChartPipeline.Graph
