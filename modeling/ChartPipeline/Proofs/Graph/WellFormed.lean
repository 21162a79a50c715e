import ChartPipeline.Proofs.Forest.Surgery
import ChartPipeline.Pruning
import Mathlib.Data.List.Range

/-!
# Graphs that are built step by step

Whatever is added, moved and detached, the forest of a graph holds every node that was added, and
holds it once.
-/

namespace ChartPipeline

theorem filter_key_eq {α κ : Type} [DecidableEq κ] {key : α → κ} {l : List α} {x : α}
    (h : (l.map key).Nodup) (hx : x ∈ l) : l.filter (fun y => key y == key x) = [x] := by
  induction l with
  | nil => cases hx
  | cons a l ih =>
    obtain ⟨ha, hl⟩ := List.nodup_cons.mp h
    rcases List.mem_cons.mp hx with rfl | hx
    · rw [List.filter_cons_of_pos (by simp), List.filter_eq_nil_iff.mpr]
      exact fun b hb he => ha (beq_iff_eq.mp he ▸ List.mem_map_of_mem hb)
    · rw [List.filter_cons_of_neg, ih hl hx]
      exact fun he => ha (beq_iff_eq.mp he ▸ List.mem_map_of_mem hx)

theorem find?_key_eq {α κ : Type} [DecidableEq κ] {key : α → κ} {l : List α} {x : α}
    (h : (l.map key).Nodup) (hx : x ∈ l) : l.find? (fun y => key y == key x) = some x := by
  rw [← List.head?_filter, filter_key_eq h hx]
  rfl

namespace Graph

open Forest (Leads)

inductive Reachable : Graph → Prop
  | empty : Reachable {}
  | add (n : Node) : Reachable g → Reachable (g.add n)
  | addChild (parent : NodeId) (n : Node) : Reachable g → Reachable (g.addChild parent n)
  | attach (child parent : NodeId) : Reachable g → Reachable (g.attach child parent)
  | detach (id : NodeId) : Reachable g → Reachable (g.detach id)
  | update (id : NodeId) (f : Node → Node) : Reachable g → Reachable (g.update id f)
  | optimize (roots : List NodeId) : Reachable g → Reachable (g.optimize roots)

/-- The nodes of the forest are those that were added, each once. -/
def WellFormed (g : Graph) : Prop :=
  (g.forest.toList.map Vertex.id).Perm (List.range g.size)

variable {g : Graph} {id child parent root : NodeId} {t : Tree Vertex} {path : List Vertex}

theorem WellFormed.keyed (h : g.WellFormed) : g.forest.Keyed Vertex.id :=
  h.nodup_iff.mpr List.nodup_range

theorem leads_of_tree? (h : g.tree? id = some t) :
    t.label.id = id ∧ ∃ path, g.forest.Leads path t := by
  obtain ⟨hid, hl⟩ := Forest.leads_of_find? h
  exact ⟨beq_iff_eq.mp hid, hl⟩

theorem has_eq_false_of_tree?_eq_none (h : g.tree? id = none) (hg : g.WellFormed) :
    ∀ v ∈ g.forest.toList, has id v = false := by
  intro v hv
  refine Bool.eq_false_iff.mpr fun he => ?_
  obtain ⟨path, t, hl, rfl⟩ := Forest.exists_leads_of_mem hv
  have := (hl.find?_path? hg.keyed (beq_iff_eq.mp he)).1
  exact Option.some_ne_none t (this.symm.trans h)

-- ---------------------------------------------------------------------------
-- One step
-- ---------------------------------------------------------------------------

theorem wellFormed_empty : WellFormed {} := .refl _

theorem WellFormed.add (h : g.WellFormed) (n : Node) : (g.add n).WellFormed := by
  have hlist : ((g.add n).forest.toList.map Vertex.id) =
      g.forest.toList.map Vertex.id ++ [g.size] := by
    simp [Graph.add, Forest.tree, Forest.toList]
  rw [WellFormed, hlist, show (g.add n).size = g.size + 1 from rfl, List.range_succ]
  exact h.append_right _

theorem WellFormed.attach (h : g.WellFormed) (child parent : NodeId) :
    (g.attach child parent).WellFormed := by
  unfold Graph.attach
  split
  · exact h
  · rename_i t ht
    dsimp only
    split
    · rename_i hp
      obtain ⟨rfl, path, hl⟩ := leads_of_tree? ht
      obtain ⟨up, hup⟩ := Option.isSome_iff_exists.mp hp
      obtain ⟨hid, way, hway⟩ := Forest.leads_of_find? hup
      exact ((Forest.perm_move h.keyed hl hway (beq_iff_eq.mp hid)).map _).trans h
    · exact h

theorem WellFormed.addChild (h : g.WellFormed) (parent : NodeId) (n : Node) :
    (g.addChild parent n).WellFormed :=
  (h.add n).attach _ _

theorem WellFormed.detach (h : g.WellFormed) (id : NodeId) : (g.detach id).WellFormed := by
  unfold Graph.detach
  split
  · exact h
  · rename_i t ht
    obtain ⟨rfl, path, hl⟩ := leads_of_tree? ht
    refine List.Perm.trans (.map _ ?_) h
    have hone : g.forest.toList.filter (has t.label.id) = [t.label] := filter_key_eq h.keyed hl.mem
    have hlast : (Forest.tree t.label .nil).toList = [t.label] := rfl
    rw [Forest.toList_append, Forest.toList_splice, hlast, ← hone]
    exact List.perm_append_comm.trans (List.filter_append_perm _ _)

theorem WellFormed.update (h : g.WellFormed) (id : NodeId) (f : Node → Node) :
    (g.update id f).WellFormed := by
  have hids : ((g.update id f).forest.toList.map Vertex.id) = g.forest.toList.map Vertex.id := by
    rw [Graph.update, Forest.toList_map, List.map_map]
    refine List.map_congr_left fun v _ => ?_
    rw [Function.comp_apply]
    split <;> rfl
  rw [WellFormed, hids]
  exact h

theorem perm_pruneBelow (h : g.WellFormed) (root : NodeId) :
    (g.pruneBelow root).forest.toList.Perm g.forest.toList := by
  rw [Graph.pruneBelow, Forest.toList_append, Forest.toList_leaves, idleBelow]
  cases ht : g.tree? root with
  | none =>
    rw [Forest.changeBelow_eq_self (has_eq_false_of_tree?_eq_none ht h)]
    simp
  | some t =>
    obtain ⟨rfl, path, hl⟩ := leads_of_tree? ht
    obtain ⟨before, after, hwhole, -, hchanged⟩ := hl.exists_around h.keyed rfl
    have hpruned : (g.forest.changeBelow (has t.label.id) (Forest.prune drops)).toList = _ :=
      hchanged _
    rw [hpruned, hwhole, Option.elim_some, List.append_assoc, List.append_assoc, List.append_assoc]
    refine List.Perm.append_left before ?_
    rw [Tree.toList, List.cons_append, List.cons_append]
    refine .cons _ ((List.perm_append_comm.append_left _).trans ?_)
    rw [← List.append_assoc]
    exact (Forest.perm_prune drops t.label t.below).append_right after

theorem WellFormed.pruneBelow (h : g.WellFormed) (root : NodeId) :
    (g.pruneBelow root).WellFormed :=
  ((perm_pruneBelow h root).map _).trans h

-- ---------------------------------------------------------------------------
-- All steps
-- ---------------------------------------------------------------------------

theorem WellFormed.optimize (h : g.WellFormed) (roots : List NodeId) :
    (g.optimize roots).WellFormed := by
  induction roots generalizing g with
  | nil => exact h
  | cons root roots ih => exact ih (h.pruneBelow root)

theorem Reachable.wellFormed (h : g.Reachable) : g.WellFormed := by
  induction h with
  | empty => exact wellFormed_empty
  | add n _ ih => exact ih.add n
  | addChild parent n _ ih => exact ih.addChild parent n
  | attach child parent _ ih => exact ih.attach child parent
  | detach id _ ih => exact ih.detach id
  | update id f _ ih => exact ih.update id f
  | optimize roots _ ih => exact ih.optimize roots

end Graph

end ChartPipeline
