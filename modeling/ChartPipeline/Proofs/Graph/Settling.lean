import ChartPipeline.Proofs.Forest.Pruned
import ChartPipeline.Proofs.Graph.History
import ChartPipeline.Proofs.Graph.Optimize

/-!
# Optimizing twice

A node is settled if nothing below it would be dropped. Pruning below a node settles that node,
wherever the other ones are: whatever it moves comes to stand below a node that keeps it. So after
all roots have been swept, a second sweep finds nothing to do (`optimize_optimize`), although some
of the roots may lie below others, or be dropped below them.
-/

namespace ChartPipeline

namespace Graph

open Forest (Leads parentOn)

variable {g : Graph} {roots : List NodeId} {root other : NodeId} {t : Tree Vertex}
  {path : List Vertex}

/-- No node below the given one is dropped below its own parent. -/
def Settled (g : Graph) (root : NodeId) : Prop :=
  ∀ path t, g.forest.Leads path t → (∃ v ∈ path.dropLast, v.id = root) →
    ∀ up ∈ path.dropLast.getLast?, drops up t.label = false

theorem getLast?_dropLast_append {way more : List Vertex} (h : g.forest.Leads way t)
    (hm : more ≠ []) :
    (way ++ more).dropLast.getLast? = some (parentOn t.label more) := by
  rw [List.dropLast_append_of_ne_nil hm, List.getLast?_append, h.getLast?, Forest.parentOn_eq]
  cases more.dropLast.getLast? <;> rfl

/-- Pruning below a node settles it, and no other node is unsettled. -/
theorem settled_pruneBelow (h : other = root ∨ g.Settled other) :
    (g.pruneBelow root).Settled other := by
  intro path t ht ⟨v, hv, hid⟩
  rcases Forest.leads_append.mp ht with ht | ht
  · rcases ht.of_changeBelow with ⟨u, hu, he, hnone⟩ | ⟨way, more, u, rfl, hu, -, hmore⟩
    · have hother : other ≠ root := fun heq => by
        simpa [has, hid, heq] using hnone v hv
      rw [← he]
      exact h.resolve_left hother path u hu ⟨v, hv, hid⟩
    · -- the row has been pruned, so that the parent keeps the node
      intro up hup
      rw [getLast?_dropLast_append hu hmore.ne_nil] at hup
      cases hup
      exact hmore.not_dropped
  · obtain ⟨u, -, rfl, -⟩ := Forest.leads_leaves.mp ht
    cases hv

theorem settled_optimize (h : other ∈ roots ∨ g.Settled other) :
    (g.optimize roots).Settled other := by
  induction roots generalizing g with
  | nil => exact h.resolve_left List.not_mem_nil
  | cons root roots ih =>
    refine ih ?_
    rcases h with h | h
    · rcases List.mem_cons.mp h with rfl | h
      · exact .inr (settled_pruneBelow (.inl rfl))
      · exact .inl h
    · exact .inr (settled_pruneBelow (.inr h))

theorem Settled.prune_eq (h : g.Settled root) (ht : g.forest.Leads path t)
    (hid : t.label.id = root) :
    t.below.prune drops t.label = t.below ∧ t.below.dropped drops t.label = [] := by
  refine Forest.prune_eq_self fun more u hu => ?_
  refine h _ _ (ht.append hu) ⟨t.label, ?_, hid⟩ _ (getLast?_dropLast_append ht hu.ne_nil)
  rw [List.dropLast_append_of_ne_nil hu.ne_nil]
  exact List.mem_append_left _ (List.mem_of_getLast? ht.getLast?)

theorem Settled.pruneBelow_eq (h : g.Settled root) (hg : g.WellFormed) :
    g.pruneBelow root = g := by
  have hidle : g.idleBelow root = [] ∧
      g.forest.changeBelow (has root) (Forest.prune drops) = g.forest := by
    rw [idleBelow]
    cases ht : g.tree? root with
    | none => exact ⟨rfl, Forest.changeBelow_eq_self (has_eq_false_of_tree?_eq_none ht hg)⟩
    | some t =>
      obtain ⟨rfl, path, hl⟩ := leads_of_tree? ht
      obtain ⟨hsame, hnone⟩ := h.prune_eq hl rfl
      exact ⟨hnone, hl.changeBelow_eq_self hg.keyed hsame⟩
  obtain ⟨hnone, hsame⟩ := hidle
  have hforest : g.forest ++ Forest.leaves [] = g.forest := Forest.append_nil g.forest
  rw [pruneBelow, hnone, hsame, List.map_nil, hforest]
  rfl

theorem optimize_eq_self (hg : g.WellFormed) (h : ∀ root ∈ roots, g.Settled root) :
    g.optimize roots = g := by
  induction roots with
  | nil => rfl
  | cons root roots ih =>
    obtain ⟨hroot, hrest⟩ := List.forall_mem_cons.mp h
    change (g.pruneBelow root).optimize roots = g
    rw [hroot.pruneBelow_eq hg]
    exact ih hrest

theorem optimize_optimize (hg : g.WellFormed) (roots : List NodeId) :
    (g.optimize roots).optimize roots = g.optimize roots :=
  optimize_eq_self (hg.optimize roots) fun _ hroot => settled_optimize (.inl hroot)

end Graph

namespace Arena

variable {a b : Arena} {g : Graph} {roots : List NodeId}

theorem Shows.unique (h : a.Shows g) (h' : b.Shows g) : a = b := by
  have hslot (id : NodeId) : a.slot? id = b.slot? id := by
    rw [slot?_eq, slot?_eq, h.node?, h.parent?, h.children, h.isDetached, h'.node?, h'.parent?,
      h'.children, h'.isDetached]
  obtain ⟨slots⟩ := a
  obtain ⟨slots'⟩ := b
  exact congrArg Arena.mk (List.ext_getElem? hslot)

/-- Whatever the roots are, a second sweep below them changes nothing. -/
theorem History.sweeps_idempotent (h : History g a) (roots : List NodeId)
    (hr : ∀ root ∈ roots, root < a.size) :
    ∃ b, (∀ c, Sweeps roots a c ↔ c = b) ∧ (∀ c, Sweeps roots b c ↔ c = b) ∧
      b.Shows (g.optimize roots) ∧ (g.optimize roots).optimize roots = g.optimize roots := by
  have hg := h.reachable.wellFormed
  have hs := h.shows
  have htwice := Graph.optimize_optimize hg roots
  rw [hs.size_eq hg] at hr
  obtain ⟨b, hb, hshows⟩ := hs.exists_sweeps hg hr
  have hr' : ∀ root ∈ roots, root < (g.optimize roots).size := by
    rwa [Graph.size_optimize]
  obtain ⟨c, hc, hagain⟩ := hshows.exists_sweeps (hg.optimize roots) hr'
  rw [htwice] at hagain
  obtain rfl := hagain.unique hshows
  exact ⟨c, fun d => ⟨fun hd => hd.unique hb, fun hd => hd ▸ hb⟩,
    fun d => ⟨fun hd => hd.unique hc, fun hd => hd ▸ hc⟩, hshows, htwice⟩

/-- Below the first root no other checkpoint has an effect, as the root is a checkpoint too. The next
root is above all of them, and drops the first one. -/
theorem sweeps_idempotent_checkpoints :
    ∃ b, (∀ c, Sweeps [1, 0, 1] checkpointsArena c ↔ c = b) ∧ (∀ c, Sweeps [1, 0, 1] b c ↔ c = b) ∧
      b.children 0 = [] ∧ b.isDetached 1 = true ∧ b.isDetached 2 = true := by
  obtain ⟨b, honce, htwice, hshows, -⟩ :=
    history_checkpoints.sweeps_idempotent [1, 0, 1] (by decide)
  exact ⟨b, honce, htwice, hshows.children 0, hshows.isDetached 1, hshows.isDetached 2⟩

end Arena

end ChartPipeline
