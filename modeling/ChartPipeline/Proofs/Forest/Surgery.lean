import ChartPipeline.Proofs.Forest.Edges
import ChartPipeline.Proofs.Forest.Levels

/-!
# Surgery on forests

What is removed from a forest, put below a node, or taken out of it, told by the nodes that are
there before and after: `exists_around` for changes at one node, `toList_splice` and `perm_prune`
for nodes that are taken out.
-/

namespace ChartPipeline.Forest

variable {α β κ : Type} {p : α → Bool}

-- ---------------------------------------------------------------------------
-- Rows next to each other
-- ---------------------------------------------------------------------------

theorem remove_append (f g : Forest α) : (f ++ g).remove p = f.remove p ++ g.remove p := by
  induction f with
  | nil => rfl
  | cons a below rest _ ih =>
    have hcons : cons a below rest ++ g = cons a below (rest ++ g) := rfl
    rw [hcons, remove, remove, ih]
    split <;> rfl

theorem append_nil (f : Forest α) : f ++ nil = f := by
  induction f with
  | nil => rfl
  | cons a below rest _ ih => exact congrArg (cons a below) ih

-- ---------------------------------------------------------------------------
-- One node
-- ---------------------------------------------------------------------------

section

variable [DecidableEq κ] {key : α → κ} {k : κ} {t : Tree α} {path : List α}

/-- A tree with a key of its own, and what comes before and after it. Nothing else is touched when
it is removed, or when the row below its root is changed. -/
theorem Leads.exists_around {f : Forest α} (hf : f.Keyed key) (h : f.Leads path t)
    (hk : key t.label = k) : ∃ before after, f.toList = before ++ t.toList ++ after ∧
      (f.remove fun a => key a == k).toList = before ++ after ∧
      ∀ g, (f.changeBelow (fun a => key a == k) g).toList =
        before ++ (t.label :: (g t.label t.below).toList) ++ after := by
  obtain ⟨before, after, h1, h2, -, h4⟩ := h.exists_edges_around hf hk none
  refine ⟨before.map Prod.fst, after.map Prod.fst, ?_, ?_, fun g => ?_⟩
  · rw [← map_fst_edges f none, h1]
    simp [map_fst_edges, Tree.toList]
  · rw [← map_fst_edges (f.remove _) none, h2, map_fst_onRow, List.map_append]
  · rw [← map_fst_edges (f.changeBelow _ _) none, h4]
    simp [map_fst_edges]

theorem perm_move {f : Forest α} (hf : f.Keyed key) (h : f.Leads path t)
    {up : Tree α} {way : List α} (hup : (f.remove fun a => key a == key t.label).Leads way up)
    (hk : key up.label = k) :
    ((f.remove fun a => key a == key t.label).changeBelow (fun a => key a == k)
      fun _ below => below ++ .tree t.label t.below).toList.Perm f.toList := by
  obtain ⟨before, after, hwhole, hothers, -⟩ := h.exists_around hf rfl
  obtain ⟨first, last, hbefore, -, hafter⟩ := hup.exists_around (hf.remove _) hk
  have htree : (Forest.tree t.label t.below).toList = t.toList := by
    simp [Forest.tree, toList, Tree.toList]
  have hsplit : before ++ after = first ++ up.toList ++ last := hothers.symm.trans hbefore
  rw [hafter, toList_append, htree, hwhole]
  have hinner : first ++ up.label :: (up.below.toList ++ t.toList) ++ last =
      (first ++ up.toList) ++ (t.toList ++ last) := by
    simp [Tree.toList]
  -- out of its new place, and into the old one
  rw [hinner]
  refine (List.perm_append_comm.append_left _).trans ?_
  rw [← List.append_assoc, ← hsplit, List.append_assoc, List.append_assoc]
  exact List.perm_append_comm.append_left _

end

theorem Leads.changeBelow_root {f : Forest α} {t : Tree α} {a : α} {g : α → Forest α → Forest α}
    (h : f.Leads [a] t) : (f.changeBelow p g).Leads [a]
      ⟨t.label, if p t.label then g t.label t.below else t.below.changeBelow p g⟩ := by
  generalize hpath : [a] = path at h
  induction h with
  | here => exact .here
  | down h =>
    obtain ⟨-, rfl⟩ := List.cons.inj hpath
    exact absurd rfl h.ne_nil
  | along _ ih => exact (ih hpath).along

theorem Leads.of_changeBelow_root {f : Forest α} {t : Tree α} {a : α} {g : α → Forest α → Forest α}
    (h : (f.changeBelow p g).Leads [a] t) : ∃ u, f.Leads [a] u ∧
      t = ⟨a, if p a then g a u.below else u.below.changeBelow p g⟩ := by
  induction f with
  | nil => cases h
  | cons b below rest _ ih =>
    rw [changeBelow] at h
    cases h with
    | here => exact ⟨⟨_, below⟩, .here, rfl⟩
    | down h => exact absurd rfl h.ne_nil
    | along h =>
      obtain ⟨u, hu, he⟩ := ih h
      exact ⟨u, hu.along, he⟩

-- ---------------------------------------------------------------------------
-- One more node
-- ---------------------------------------------------------------------------

section

variable {f more : Forest α} {t : Tree α} {path : List α}

theorem Leads.changeBelow_append (h : f.Leads path t) :
    ∃ u, (f.changeBelow p fun _ below => below ++ more).Leads path u ∧ u.label = t.label := by
  induction h with
  | here => exact ⟨_, .here, rfl⟩
  | @down below path t a rest h ih =>
    rw [changeBelow]
    split
    · exact ⟨t, (leads_append.mpr (.inl h)).down, rfl⟩
    · obtain ⟨u, hu, he⟩ := ih
      exact ⟨u, hu.down, he⟩
  | along _ ih =>
    obtain ⟨u, hu, he⟩ := ih
    exact ⟨u, hu.along, he⟩

theorem Leads.changeBelow_new [DecidableEq κ] {key : α → κ} (hf : f.Keyed key) (h : f.Leads path t)
    (hm : more.Leads way u) :
    (f.changeBelow (fun a => key a == key t.label) fun _ below => below ++ more).Leads
      (path ++ way) u := by
  induction h with
  | here =>
    rw [changeBelow, if_pos (by simp)]
    exact (leads_append.mpr (.inr hm)).down
  | down h ih =>
    rw [changeBelow, if_neg (by simpa using (hf.ne_below h.mem).symm)]
    exact (ih hf.below).down
  | along _ ih => exact (ih hf.rest).along

end

-- ---------------------------------------------------------------------------
-- New labels
-- ---------------------------------------------------------------------------

theorem find?_map {h : α → β} {q : β → Bool} (f : Forest α) :
    (f.map h).find? q = (f.find? (q ∘ h)).map fun t => ⟨h t.label, t.below.map h⟩ := by
  induction f with
  | nil => rfl
  | cons a below rest ihb ihr =>
    rw [map, find?, find?, Function.comp_apply]
    split
    · rfl
    · rw [ihb, ihr, Option.map_or]

theorem Leads.map {f : Forest α} {t : Tree α} {path : List α} (hl : f.Leads path t) (h : α → β) :
    (f.map h).Leads (path.map h) ⟨h t.label, t.below.map h⟩ := by
  induction hl with
  | here => exact .here
  | down _ ih => exact ih.down
  | along _ ih => exact ih.along

-- ---------------------------------------------------------------------------
-- Many nodes
-- ---------------------------------------------------------------------------

theorem leads_leaves {as : List α} {t : Tree α} {path : List α} :
    (leaves as).Leads path t ↔ ∃ a ∈ as, path = [a] ∧ t = ⟨a, .nil⟩ := by
  constructor
  · intro h
    induction as with
    | nil => cases h
    | cons b as ih =>
      cases h with
      | here => exact ⟨b, List.mem_cons_self, rfl, rfl⟩
      | down h => cases h
      | along h =>
        obtain ⟨a, ha, hpath, ht⟩ := ih h
        exact ⟨a, List.mem_cons_of_mem b ha, hpath, ht⟩
  · rintro ⟨a, ha, rfl, rfl⟩
    induction as with
    | nil => cases ha
    | cons b as ih =>
      rcases List.mem_cons.mp ha with rfl | ha
      · exact .here
      · exact (ih ha).along

theorem perm_prune (drops : α → α → Bool) (up : α) (f : Forest α) :
    ((f.prune drops up).toList ++ (f.dropped drops up).map Prod.fst).Perm f.toList := by
  induction f generalizing up with
  | nil => exact .nil
  | cons a below rest ihb ihr =>
    rw [prune, dropped, toList]
    split
    · rw [toList_append, List.map_cons, List.map_append]
      refine List.perm_middle.trans (.cons a ?_)
      exact (perm_append_swap _ _ _ _).trans ((ihb up).append (ihr up))
    · rw [toList, List.map_append, List.cons_append]
      exact .cons a ((perm_append_swap _ _ _ _).trans ((ihb a).append (ihr up)))

theorem exists_of_mem_dropped {drops : α → α → Bool} {up a : α} {f : Forest α}
    (h : a ∈ (f.dropped drops up).map Prod.fst) : ∃ above, drops above a = true := by
  induction f generalizing up with
  | nil => cases h
  | cons b below rest ihb ihr =>
    rw [dropped] at h
    split at h
    · rw [List.map_cons, List.map_append, List.mem_cons, List.mem_append] at h
      rcases h with rfl | h | h
      · exact ⟨up, ‹_›⟩
      · exact ihb h
      · exact ihr h
    · rw [List.map_append, List.mem_append] at h
      exact h.elim ihb ihr

/-- What pruning leaves of a path, where `up` is above it. -/
def kept (drops : α → α → Bool) (up : α) : List α → List α
  | [] => []
  | a :: path => if drops up a then kept drops up path else a :: kept drops a path

section

variable {drops : α → α → Bool} {up : α} {f : Forest α} {path : List α} {t : Tree α}

/-- The last element that pruning leaves of a path, or what is above it. -/
def lastKept (drops : α → α → Bool) (up : α) : List α → α
  | [] => up
  | a :: path => if drops up a then lastKept drops up path else lastKept drops a path

/-- A node that is left was there before, on a path of which something may be dropped, but not the
node itself. -/
theorem Leads.of_prune (h : (f.prune drops up).Leads path t) : ∃ way u, f.Leads way u ∧
    kept drops up way = path ∧ t = ⟨u.label, u.below.prune drops u.label⟩ ∧
    drops (lastKept drops up way.dropLast) u.label = false := by
  induction f generalizing up path with
  | nil => cases h
  | cons a below rest ihb ihr =>
    rw [prune] at h
    split at h
    · rename_i ha
      rcases leads_append.mp h with h | h
      · obtain ⟨way, u, hu, rfl, rfl, hl⟩ := ihb h
        refine ⟨a :: way, u, hu.down, by rw [kept, if_pos ha], rfl, ?_⟩
        rwa [List.dropLast_cons_of_ne_nil hu.ne_nil, lastKept, if_pos ha]
      · obtain ⟨way, u, hu, rfl, rfl, hl⟩ := ihr h
        exact ⟨way, u, hu.along, rfl, rfl, hl⟩
    · rename_i ha
      cases h with
      | here =>
        exact ⟨[a], ⟨a, below⟩, .here, by rw [kept, if_neg ha, kept], rfl, Bool.eq_false_iff.mpr ha⟩
      | down h =>
        obtain ⟨way, u, hu, rfl, rfl, hl⟩ := ihb h
        refine ⟨a :: way, u, hu.down, by rw [kept, if_neg ha], rfl, ?_⟩
        rwa [List.dropLast_cons_of_ne_nil hu.ne_nil, lastKept, if_neg ha]
      | along h =>
        obtain ⟨way, u, hu, rfl, rfl, hl⟩ := ihr h
        exact ⟨way, u, hu.along, rfl, rfl, hl⟩

/-- A node is left unless the last one left above it makes the rule drop it. -/
theorem Leads.exists_prune (h : f.Leads path t) (hk : drops (lastKept drops up path.dropLast) t.label = false) :
    ∃ u, (f.prune drops up).Leads (kept drops up path) u ∧ u.label = t.label := by
  induction h generalizing up with
  | @here a below rest =>
    have ha : drops up a = false := hk
    rw [Forest.prune, ha, kept, ha]
    exact ⟨_, .here, rfl⟩
  | @down below path t a rest h ih =>
    rw [List.dropLast_cons_of_ne_nil h.ne_nil, lastKept] at hk
    rw [Forest.prune, kept]
    split
    · rename_i ha
      rw [if_pos ha] at hk
      obtain ⟨u, hu, he⟩ := ih hk
      exact ⟨u, leads_append.mpr (.inl hu), he⟩
    · rename_i ha
      rw [if_neg ha] at hk
      obtain ⟨u, hu, he⟩ := ih hk
      exact ⟨u, hu.down, he⟩
  | @along rest path t a below h ih =>
    obtain ⟨u, hu, he⟩ := ih hk
    rw [Forest.prune]
    split
    · exact ⟨u, leads_append.mpr (.inr hu), he⟩
    · exact ⟨u, hu.along, he⟩

theorem lastKept_append (up : α) (first last : List α) :
    lastKept drops up (first ++ last) = lastKept drops (lastKept drops up first) last := by
  induction first generalizing up with
  | nil => rfl
  | cons a first ih =>
    rw [List.cons_append, lastKept, lastKept]
    split <;> exact ih _

theorem lastKept_map {f : α → α} (hf : ∀ a b, drops (f a) (f b) = drops a b) (up : α) (path : List α) :
    lastKept drops (f up) (path.map f) = f (lastKept drops up path) := by
  induction path generalizing up with
  | nil => rfl
  | cons a path ih =>
    rw [List.map_cons, lastKept, lastKept, hf]
    split <;> exact ih _

theorem Leads.not_dropped (h : (f.prune drops up).Leads path t) :
    drops (parentOn up path) t.label = false := by
  induction f generalizing up path with
  | nil => cases h
  | cons a below rest ihb ihr =>
    rw [prune] at h
    split at h
    · exact (leads_append.mp h).elim ihb ihr
    · rename_i ha
      cases h with
      | here => exact Bool.eq_false_iff.mpr ha
      | down h =>
        rw [parentOn_cons up a h.ne_nil]
        exact ihb h
      | along h => exact ihr h

theorem kept_ne_nil (hn : path ≠ []) (hl : ∀ a, ∀ b ∈ path.getLast?, drops a b = false) :
    kept drops up path ≠ [] := by
  induction path generalizing up with
  | nil => exact absurd rfl hn
  | cons a path ih =>
    rw [kept]
    split
    · rename_i ha
      cases path with
      | nil => simp [hl up a rfl] at ha
      | cons b path => exact ih (by simp) (by simpa [List.getLast?_cons] using hl)
    · simp

theorem parentOn_kept (hl : ∀ a, ∀ b ∈ path.getLast?, drops a b = false)
    (hp : ∀ a, drops a (parentOn up path) = false) :
    parentOn up (kept drops up path) = parentOn up path := by
  induction path generalizing up with
  | nil => rfl
  | cons a path ih =>
    cases path with
    | nil => rw [kept, if_neg (by simp [hl up a rfl])]; rfl
    | cons b path =>
      have hl : ∀ a, ∀ c ∈ (b :: path).getLast?, drops a c = false := by
        simpa [List.getLast?_cons] using hl
      rw [parentOn_cons up a (by simp)] at hp ⊢
      rw [kept]
      split
      · rename_i ha
        cases path with
        | nil => simp [show drops up a = false from hp up] at ha
        | cons c path => exact ih hl hp
      · rw [parentOn_cons up a (kept_ne_nil (by simp) hl)]
        exact ih hl hp

end

end ChartPipeline.Forest
