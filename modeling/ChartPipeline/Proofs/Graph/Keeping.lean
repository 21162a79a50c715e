import ChartPipeline.Proofs.Forest.Pruned
import ChartPipeline.Proofs.Graph.History
import ChartPipeline.Proofs.Graph.Optimize

/-!
# What optimizing keeps

Which nodes are kept below a root is told from the root down (`keeps`): the same node may be kept
below one node and dropped below another. Optimizing leaves exactly the kept nodes, each below the
nearest kept one above it, and in the same order; all others are taken out one by one.
-/

namespace ChartPipeline

namespace Graph

open Forest (Leads kept lastKept)

variable {g : Graph} {roots : List NodeId} {root id : NodeId} {r t u : Tree Vertex}
  {path way : List Vertex} {up v : Vertex}

-- ---------------------------------------------------------------------------
-- The rule
-- ---------------------------------------------------------------------------

/-- A filter is kept if it filters something. A checkpoint is kept if it is required, unless the
nearest kept node above it is a checkpoint too. -/
def remains (above : Node) : Node → Bool
  | .positiveFilter f => f.any Prod.snd
  | .checkpoint c => c.required && !above.isCheckpoint
  | _ => true

def lastRemaining (root : Vertex) (way : List Vertex) : Vertex :=
  way.foldl (fun up v => if remains up.node v.node then v else up) root

/-- A node without parent is kept. -/
def keeps (g : Graph) (id : NodeId) : Bool :=
  match (g.path id).dropLast with
  | [] => true
  | root :: way => (g.node? id).any (remains (lastRemaining root way).node)

def keptAbove? (g : Graph) (id : NodeId) : Option NodeId :=
  ((g.path id).dropLast.reverse.find? fun v => g.keeps v.id).map Vertex.id

theorem drops_eq (up v : Vertex) : drops up v = !remains up.node v.node := by
  rw [drops]
  cases v.node with
  | positiveFilter f => simp [isIdle, remains, PositiveFilter.isIdle, List.not_any_eq_all_not]
  | checkpoint c => simp [isIdle, remains, demands]
  | _ => rfl

theorem lastKept_eq (up : Vertex) (way : List Vertex) :
    lastKept drops up way = lastRemaining up way := by
  induction way generalizing up with
  | nil => rfl
  | cons v way ih =>
    have hcons : lastRemaining up (v :: way) =
        lastRemaining (if remains up.node v.node then v else up) way := rfl
    rw [lastKept, hcons, drops_eq]
    cases remains up.node v.node with
    | false => exact ih up
    | true => exact ih v

-- ---------------------------------------------------------------------------
-- The rule along a path
-- ---------------------------------------------------------------------------

theorem keeps_root (hg : g.WellFormed) (hr : g.forest.Leads [v] r) : g.keeps r.label.id = true := by
  rw [keeps, hg.path_eq hr]
  rfl

theorem keeps_eq (hg : g.WellFormed) (hu : g.forest.Leads (v :: way) u) (hw : way ≠ []) :
    g.keeps u.label.id = !drops (lastKept drops v way.dropLast) u.label := by
  rw [keeps, hg.path_eq hu, List.dropLast_cons_of_ne_nil hw, hg.node?_eq hu, drops_eq, lastKept_eq,
    Bool.not_not]
  rfl

/-- Upwards on a path, the first node that is kept is the last one downwards. -/
theorem find?_keeps (hg : g.WellFormed) (hu : g.forest.Leads (v :: way) u) :
    (v :: way).reverse.find? (fun w => g.keeps w.id) = some (lastKept drops v way) := by
  induction way using List.reverseRecOn generalizing u with
  | nil =>
    obtain rfl := Option.some.inj hu.getLast?
    simp [keeps_root hg hu, lastKept]
  | append_singleton way w ih =>
    have hlabel : u.label = w := by
      have hlast := hu.getLast?
      rw [← List.cons_append, List.getLast?_concat] at hlast
      exact (Option.some.inj hlast).symm
    have hkeeps := keeps_eq hg hu (by simp)
    have hsplit : g.forest.Leads ((v :: way) ++ [w]) u := hu
    obtain ⟨up, hup, -⟩ := hsplit.split (by simp) (by simp)
    rw [hlabel, List.dropLast_concat] at hkeeps
    rw [← List.cons_append, List.reverse_append, List.reverse_singleton, List.singleton_append,
      List.find?_cons, hkeeps, Forest.lastKept_append, lastKept, lastKept]
    cases drops (lastKept drops v way) w with
    | true => simpa using ih hup
    | false => simp [lastKept]

theorem keptAbove?_eq (hg : g.WellFormed) (hu : g.forest.Leads (v :: way) u) (hw : way ≠ []) :
    g.keptAbove? u.label.id = some (lastKept drops v way.dropLast).id := by
  have hpath : v :: way.dropLast ++ [u.label] = v :: way := by
    rw [← hu.dropLast_append, List.dropLast_cons_of_ne_nil hw]
  obtain ⟨up, hup, -⟩ := Leads.split (hpath ▸ hu) (by simp) (by simp)
  rw [keptAbove?, hg.path_eq hu, List.dropLast_cons_of_ne_nil hw, find?_keeps hg hup]
  rfl

theorem keptAbove?_root (hg : g.WellFormed) (hr : g.forest.Leads [v] r) :
    g.keptAbove? r.label.id = none := by
  rw [keptAbove?, hg.path_eq hr]
  rfl

theorem keeps_iff {n : Node} (hg : g.WellFormed) (hn : g.node? id = some n) :
    g.keeps id = ((g.keptAbove? id).bind g.node?).all fun above => remains above n := by
  obtain ⟨path, u, hu, hlabel⟩ := leads_of_node? hn
  obtain rfl : u.label.id = id := congrArg Vertex.id hlabel
  obtain rfl : u.label.node = n := congrArg Vertex.node hlabel
  cases path with
  | nil => exact absurd rfl hu.ne_nil
  | cons v way =>
    by_cases hw : way = []
    · subst hw
      rw [keeps_root hg hu, keptAbove?_root hg hu]
      rfl
    · have habove : g.node? (lastKept drops v way.dropLast).id =
          some (lastKept drops v way.dropLast).node := by
        refine hg.node?_eq_some_iff.mpr (hu.subset ?_)
        exact List.cons_subset_cons v way.dropLast_subset (Forest.lastKept_mem v way.dropLast)
      rw [keeps_eq hg hu hw, keptAbove?_eq hg hu hw, Option.bind_some, habove, Option.all_some,
        drops_eq, Bool.not_not]

-- ---------------------------------------------------------------------------
-- One tree
-- ---------------------------------------------------------------------------

theorem keeps_of_position {e : List Vertex × Vertex} (hg : g.WellFormed)
    (hr : g.forest.Leads [r.label] r) (he : e ∈ r.below.positions) :
    g.keeps e.2.id = !drops (lastKept drops r.label e.1) e.2 := by
  obtain ⟨below, hu⟩ := Forest.mem_positions.mp he
  have hleads : g.forest.Leads (r.label :: (e.1 ++ [e.2])) _ := hr.append hu
  have hkeeps := keeps_eq hg hleads (by simp)
  rwa [List.dropLast_concat] at hkeeps

theorem descendants_eq (hg : g.WellFormed) (hr : g.forest.Leads [r.label] r) :
    g.descendants r.label.id = r.label.id :: r.below.toList.map Vertex.id := by
  rw [descendants, hg.tree?_eq hr]
  rfl

theorem descendants_pruned (hg : g.WellFormed) (hr : g.forest.Leads [r.label] r) :
    r.label.id :: (r.below.prune drops r.label).toList.map Vertex.id =
      (g.descendants r.label.id).filter g.keeps := by
  rw [descendants_eq hg hr, List.filter_cons_of_pos (keeps_root hg hr), Forest.toList_prune,
    ← Forest.map_snd_positions, List.map_map, List.map_map, List.filter_map]
  congr 2
  exact List.filter_congr fun e he => (keeps_of_position hg hr he).symm

theorem mem_idleBelow_iff (hg : g.WellFormed) (hr : g.forest.Leads [r.label] r) :
    v ∈ (g.idleBelow r.label.id).map Prod.fst ↔
      v ∈ r.below.toList ∧ g.keeps v.id = false := by
  rw [idleBelow, hg.tree?_eq hr, Option.elim_some, Forest.map_fst_dropped,
    ← Forest.map_snd_positions]
  simp only [List.mem_map, List.mem_filter]
  constructor
  · rintro ⟨e, ⟨he, hdrops⟩, rfl⟩
    exact ⟨⟨e, he, rfl⟩, by rw [keeps_of_position hg hr he, hdrops]; rfl⟩
  · rintro ⟨⟨e, he, rfl⟩, hkeeps⟩
    rw [keeps_of_position hg hr he] at hkeeps
    exact ⟨e, ⟨he, by simpa using hkeeps⟩, rfl⟩

theorem mem_descendants_below (hg : g.WellFormed) (hr : g.forest.Leads [r.label] r)
    (hid : id ∈ g.descendants r.label.id) :
    id = r.label.id ∨ ∃ way u, way ≠ [] ∧ g.forest.Leads (r.label :: way) u ∧
      r.below.Leads way u ∧ u.label.id = id := by
  obtain ⟨t, ht, h⟩ := mem_descendants.mp hid
  obtain rfl := Option.some.inj ((hg.tree?_eq hr).symm.trans ht)
  exact h.imp_right fun ⟨way, u, hu, he⟩ => ⟨way, u, hu.ne_nil, hr.append hu, hu, he⟩

-- ---------------------------------------------------------------------------
-- All roots
-- ---------------------------------------------------------------------------

structure Sources (g : Graph) (roots : List NodeId) : Prop where
  nodup : roots.Nodup
  leads : ∀ root ∈ roots, ∃ r, g.forest.Leads [r.label] r ∧ r.label.id = root

theorem Sources.pruneBelow (hg : g.WellFormed) (h : g.Sources (root :: roots)) :
    (g.pruneBelow root).Sources roots ∧
      ∀ other ∈ roots, (g.pruneBelow root).idleBelow other = g.idleBelow other := by
  obtain ⟨hroot, hrest⟩ := List.nodup_cons.mp h.nodup
  obtain ⟨⟨r, hr, rfl⟩, hlater⟩ := List.forall_mem_cons.mp h.leads
  have hother : ∀ other ∈ roots, ∃ r', g.forest.Leads [r'.label] r' ∧
      (g.pruneBelow r.label.id).forest.Leads [r'.label] r' ∧ r'.label.id = other := by
    intro other hmem
    obtain ⟨r', hr', rfl⟩ := hlater other hmem
    have hne : r'.label.id ≠ r.label.id := fun he => hroot (he ▸ hmem)
    have hsame := leads_pruneBelow hg hr hr'
    rw [if_neg hne] at hsame
    exact ⟨r', hr', hsame, rfl⟩
  refine ⟨⟨hrest, fun other hmem => ?_⟩, fun other hmem => ?_⟩
  · obtain ⟨r', -, hr', he⟩ := hother other hmem
    exact ⟨r', hr', he⟩
  · obtain ⟨r', hbefore, hafter, rfl⟩ := hother other hmem
    rw [idleBelow, idleBelow, hg.tree?_eq hbefore, (hg.pruneBelow _).tree?_eq hafter]

theorem isDetached_optimize_iff (hg : g.WellFormed) (h : g.Sources roots) (id : NodeId) :
    (g.optimize roots).isDetached id = true ↔ g.isDetached id = true ∨
      ∃ root ∈ roots, ∃ v ∈ (g.idleBelow root).map Prod.fst, v.id = id := by
  induction roots generalizing g with
  | nil => simp [optimize]
  | cons root roots ih =>
    obtain ⟨hsources, hidle⟩ := h.pruneBelow hg
    change ((g.pruneBelow root).optimize roots).isDetached id = true ↔ _
    rw [ih (hg.pruneBelow root) hsources, isDetached_pruneBelow_iff, or_assoc,
      List.exists_mem_cons_iff]
    refine or_congr_right (or_congr_right ?_)
    exact exists_congr fun other => and_congr_right fun hmem => by rw [hidle other hmem]

theorem leads_alone_optimize (h : g.forest.Leads [v] ⟨v, .nil⟩) (roots : List NodeId) :
    (g.optimize roots).forest.Leads [v] ⟨v, .nil⟩ := by
  induction roots generalizing g with
  | nil => exact h
  | cons root roots ih =>
    refine ih (Forest.leads_append.mpr (.inl ?_))
    have hchanged := h.changeBelow_root (p := has root) (g := Forest.prune drops)
    split at hchanged <;> exact hchanged

theorem leads_dropped (hg : g.WellFormed) (h : g.Sources roots) (hroot : root ∈ roots)
    (hv : v ∈ (g.idleBelow root).map Prod.fst) :
    (g.optimize roots).forest.Leads [v] ⟨v, .nil⟩ := by
  induction roots generalizing g with
  | nil => cases hroot
  | cons other roots ih =>
    obtain ⟨hsources, hidle⟩ := h.pruneBelow hg
    rcases List.mem_cons.mp hroot with rfl | hroot
    · exact leads_alone_optimize (Forest.leads_append.mpr
        (.inr (Forest.leads_leaves.mpr ⟨v, hv, rfl, rfl⟩))) roots
    · exact ih (hg.pruneBelow other) hsources hroot (hidle root hroot ▸ hv)

/-- What became of a tree: the kept nodes are in the same order, each below the nearest kept one
that was above it, and the others are on their own. -/
structure Trimmed (g g' : Graph) (root : NodeId) : Prop where
  listed : g'.descendants root = (g.descendants root).filter g.keeps
  kept : ∀ id ∈ g.descendants root, g.keeps id = true →
    g'.parent? id = g.keptAbove? id ∧ g'.isDetached id = g.isDetached id
  gone : ∀ id ∈ g.descendants root, g.keeps id = false →
    g'.parent? id = none ∧ g'.children id = [] ∧ g'.isDetached id = true

theorem isDetached_optimize_of_kept (hg : g.WellFormed) (h : g.Sources roots)
    (hid : ∀ root ∈ roots, id ∈ g.descendants root → g.keeps id = true) :
    (g.optimize roots).isDetached id = g.isDetached id := by
  rw [Bool.eq_iff_iff, isDetached_optimize_iff hg h]
  refine or_iff_left ?_
  rintro ⟨root, hroot, v, hv, rfl⟩
  obtain ⟨r, hr, rfl⟩ := h.leads root hroot
  obtain ⟨hbelow, hkeeps⟩ := (mem_idleBelow_iff hg hr).mp hv
  have hmem : v.id ∈ g.descendants r.label.id := by
    rw [descendants_eq hg hr]
    exact List.mem_cons_of_mem _ (List.mem_map_of_mem hbelow)
  rw [hid _ hroot hmem] at hkeeps
  cases hkeeps

theorem trimmed_optimize (hg : g.WellFormed) (h : g.Sources roots) (hroot : root ∈ roots) :
    Trimmed g (g.optimize roots) root := by
  obtain ⟨r, hr, rfl⟩ := h.leads root hroot
  have hg' := hg.optimize roots
  have hpruned := leads_optimize hg h.nodup h.leads hr
  rw [if_pos hroot] at hpruned
  refine ⟨?_, fun id hid hkeeps => ⟨?_, ?_⟩, fun id hid hkeeps => ?_⟩
  · have hnow := descendants_eq (r := ⟨r.label, r.below.prune drops r.label⟩) hg' hpruned
    exact hnow.trans (descendants_pruned hg hr)
  · rcases mem_descendants_below hg hr hid with rfl | ⟨way, u, hw, hu, hbelow, rfl⟩
    · exact (hg'.parent?_eq hpruned).trans (keptAbove?_root hg hr).symm
    · have hdrops : drops (lastKept drops r.label way.dropLast) u.label = false := by
        rw [keeps_eq hg hu hw] at hkeeps
        simpa using hkeeps
      obtain ⟨u', hu', he⟩ := hbelow.exists_prune hdrops
      have hway : kept drops r.label way = kept drops r.label way.dropLast ++ [u.label] := by
        conv_lhs => rw [← hbelow.dropLast_append, Forest.kept_append]
        simp [kept, hdrops]
      have hnow := hg'.parent?_eq (hpruned.append hu')
      rw [he, hway, ← List.append_assoc, List.dropLast_concat, List.singleton_append,
        Forest.getLast?_cons_kept] at hnow
      rw [hnow, keptAbove?_eq hg hu hw]
      rfl
  · refine isDetached_optimize_of_kept hg h fun _ _ _ => hkeeps
  · rcases mem_descendants_below hg hr hid with rfl | ⟨way, u, hw, hu, hbelow, rfl⟩
    · rw [keeps_root hg hr] at hkeeps
      cases hkeeps
    · have hidle := (mem_idleBelow_iff hg hr).mpr ⟨hbelow.mem, hkeeps⟩
      have halone := leads_dropped hg h hroot hidle
      refine ⟨hg'.parent?_eq halone, hg'.children_eq halone, ?_⟩
      exact (isDetached_optimize_iff hg h _).mpr (.inr ⟨_, hroot, _, hidle, rfl⟩)

theorem WellFormed.exists_source (hg : g.WellFormed) (ht : g.forest.Leads path t) :
    ∃ r, g.forest.Leads [r.label] r ∧ t.label.id ∈ g.descendants r.label.id ∧
      ∀ g' : Graph, g'.forest.Leads [r.label] r → g'.forest.Leads path t := by
  cases path with
  | nil => exact absurd rfl ht.ne_nil
  | cons v way =>
    by_cases hw : way = []
    · subst hw
      obtain rfl := Option.some.inj ht.getLast?
      refine ⟨t, ht, ?_, fun g' h => h⟩
      rw [descendants_eq hg ht]
      exact List.mem_cons_self
    · have hsplit : g.forest.Leads ([v] ++ way) t := ht
      obtain ⟨r, hr, hway⟩ := hsplit.split (by simp) hw
      obtain rfl := Option.some.inj hr.getLast?
      refine ⟨r, hr, ?_, fun g' h => h.append hway⟩
      rw [descendants_eq hg hr]
      exact List.mem_cons_of_mem _ (List.mem_map_of_mem hway.mem)

/-- Outside of the trees of the roots everything stays in its place. -/
theorem untouched_optimize (hg : g.WellFormed) (h : g.Sources roots)
    (hid : ∀ root ∈ roots, id ∉ g.descendants root) :
    (g.optimize roots).parent? id = g.parent? id ∧
      (g.optimize roots).children id = g.children id ∧
      (g.optimize roots).isDetached id = g.isDetached id := by
  have hg' := hg.optimize roots
  have hmark := isDetached_optimize_of_kept hg h fun root hroot hmem => absurd hmem (hid root hroot)
  rcases Nat.lt_or_ge id g.size with hlt | hle
  · obtain ⟨path, t, ht, rfl⟩ := hg.exists_leads hlt
    have hsame : (g.optimize roots).forest.Leads path t := by
      obtain ⟨r, hr, hmem, hsame⟩ := hg.exists_source ht
      have hroot : r.label.id ∉ roots := fun hroot => hid _ hroot hmem
      have hpruned := leads_optimize hg h.nodup h.leads hr
      rw [if_neg hroot] at hpruned
      exact hsame _ hpruned
    exact ⟨(hg'.parent?_eq hsame).trans (hg.parent?_eq ht).symm,
      (hg'.children_eq hsame).trans (hg.children_eq ht).symm, hmark⟩
  · have hle' : (g.optimize roots).size ≤ id := by rwa [size_optimize]
    exact ⟨(hg'.parent?_of_le hle').trans (hg.parent?_of_le hle).symm,
      (hg'.children_of_le hle').trans (hg.children_of_le hle).symm, hmark⟩

end Graph

namespace Arena

variable {a : Arena} {g : Graph} {roots : List NodeId}

/-- Sweeping below parentless nodes keeps what the rule keeps, and changes nothing that is not below
them. -/
theorem History.sweeps_keep (h : History g a) (roots : List NodeId) (hn : roots.Nodup)
    (hr : ∀ root ∈ roots, root < a.size ∧ a.parent? root = none) :
    (∀ id n, g.node? id = some n →
      g.keeps id = ((g.keptAbove? id).bind g.node?).all fun above => Graph.remains above n) ∧
    ∃ b, (∀ c, Sweeps roots a c ↔ c = b) ∧ b.Shows (g.optimize roots) ∧
      (∀ root ∈ roots, Graph.Trimmed g (g.optimize roots) root) ∧
      (∀ id, b.node? id = a.node? id) ∧
      ∀ id, (∀ root ∈ roots, id ∉ g.descendants root) → b.slot? id = a.slot? id := by
  have hg := h.reachable.wellFormed
  have hs := h.shows
  have hsources : g.Sources roots := by
    refine ⟨hn, fun root hroot => ?_⟩
    obtain ⟨hlt, hp⟩ := hr root hroot
    rw [hs.size_eq hg] at hlt
    rw [hs.parent?] at hp
    obtain ⟨path, t, ht, rfl⟩ := hg.exists_leads hlt
    exact ⟨t, hg.leads_of_parentless (hg.tree?_eq ht) hp, rfl⟩
  have hlt : ∀ root ∈ roots, root < g.size := fun root hroot => hs.size_eq hg ▸ (hr root hroot).1
  obtain ⟨b, hb, hshows⟩ := hs.exists_sweeps hg hlt
  refine ⟨fun id n hn => Graph.keeps_iff hg hn, b, fun c => ⟨fun hc => hc.unique hb, fun hc => hc ▸ hb⟩,
    hshows, fun root hroot => Graph.trimmed_optimize hg hsources hroot, fun id => ?_, fun id hid => ?_⟩
  · rw [hshows.node?, Graph.node?_optimize hg, hs.node?]
  · obtain ⟨hparent, hchildren, hmark⟩ := Graph.untouched_optimize hg hsources hid
    rw [slot?_eq, slot?_eq, hshows.node?, Graph.node?_optimize hg, hshows.parent?, hparent,
      hshows.children, hchildren, hshows.isDetached, hmark, hs.node?, hs.parent?, hs.children,
      hs.isDetached]

/-- The second checkpoint is kept once the first one is dropped; the last one is not, as the filter
above it is dropped and the next node above is a checkpoint that is kept. -/
theorem sweeps_keep_checkpoints :
    ∃ b, (∀ c, Sweeps [0] checkpointsArena c ↔ c = b) ∧ b.Shows (checkpoints.optimize [0]) ∧
      (checkpoints.optimize [0]).descendants 0 = (checkpoints.descendants 0).filter checkpoints.keeps ∧
      (checkpoints.descendants 0).filter checkpoints.keeps = [0, 2] ∧ b.parent? 2 = some 0 ∧
      b.isDetached 4 = true := by
  obtain ⟨-, b, hb, hshows, htrimmed, -⟩ := history_checkpoints.sweeps_keep [0] (by decide) (by decide)
  have htree := htrimmed 0 (by decide)
  refine ⟨b, hb, hshows, htree.listed, by decide, ?_, ?_⟩
  · rw [hshows.parent?]
    exact (htree.kept 2 (by decide) (by decide)).1
  · rw [hshows.isDetached]
    exact (htree.gone 4 (by decide) (by decide)).2.2

end Arena

end ChartPipeline
