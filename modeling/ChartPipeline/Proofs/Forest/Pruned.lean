import ChartPipeline.Proofs.Forest.Surgery

/-!
# Pruned forests

Pruning goes down every path with the nearest node that is left above it, so that the nodes that it
leaves are told by the paths to them (`toList_prune`). Nothing in a pruned forest would be dropped
again (`prune_eq_self`).
-/

namespace ChartPipeline.Forest

variable {α κ : Type} {drops : α → α → Bool} {p : α → Bool} {up : α} {f : Forest α} {t : Tree α}
  {path : List α}

-- ---------------------------------------------------------------------------
-- What is left
-- ---------------------------------------------------------------------------

theorem kept_append (up : α) (first last : List α) :
    kept drops up (first ++ last) =
      kept drops up first ++ kept drops (lastKept drops up first) last := by
  induction first generalizing up with
  | nil => rfl
  | cons a first ih =>
    rw [List.cons_append, kept, kept, lastKept]
    split
    · exact ih up
    · rw [ih a, List.cons_append]

theorem lastKept_mem (up : α) (path : List α) : lastKept drops up path ∈ up :: path := by
  induction path generalizing up with
  | nil => exact List.mem_cons_self
  | cons a path ih =>
    rw [lastKept]
    split
    · exact List.cons_subset_cons up (List.subset_cons_self a path) (ih up)
    · exact List.mem_cons_of_mem up (ih a)

theorem Leads.subset (h : f.Leads path t) : path ⊆ f.toList := by
  induction h with
  | here => exact List.cons_subset_cons _ (List.nil_subset _)
  | down _ ih => exact List.cons_subset_cons _ (List.subset_append_of_subset_left _ ih)
  | along _ ih => exact List.subset_cons_of_subset _ (List.subset_append_of_subset_right _ ih)

theorem getLast?_cons_kept (up : α) (path : List α) :
    (up :: kept drops up path).getLast? = some (lastKept drops up path) := by
  induction path generalizing up with
  | nil => rfl
  | cons a path ih =>
    rw [kept, lastKept]
    split
    · exact ih up
    · rw [List.getLast?_cons, ih a]
      rfl

theorem toList_prune (up : α) (f : Forest α) : (f.prune drops up).toList =
    (f.positions.filter fun e => !drops (lastKept drops up e.1) e.2).map Prod.snd := by
  induction f generalizing up with
  | nil => rfl
  | cons a below rest ihb ihr =>
    rw [prune, positions, List.filter_cons, List.filter_append, List.filter_map]
    split
    · rename_i ha
      simp [lastKept, ha, ihb, ihr, Function.comp_def]
    · rename_i ha
      simp [toList, lastKept, ha, ihb, ihr, Function.comp_def]

theorem map_fst_dropped (up : α) (f : Forest α) : (f.dropped drops up).map Prod.fst =
    (f.positions.filter fun e => drops (lastKept drops up e.1) e.2).map Prod.snd := by
  induction f generalizing up with
  | nil => rfl
  | cons a below rest ihb ihr =>
    rw [dropped, positions, List.filter_cons, List.filter_append, List.filter_map]
    split
    · rename_i ha
      simp [lastKept, ha, ihb, ihr, Function.comp_def]
    · rename_i ha
      simp [lastKept, ha, ihb, ihr, Function.comp_def]

-- ---------------------------------------------------------------------------
-- Nothing to prune
-- ---------------------------------------------------------------------------

theorem prune_eq_self (h : ∀ path t, f.Leads path t → drops (parentOn up path) t.label = false) :
    f.prune drops up = f ∧ f.dropped drops up = [] := by
  induction f generalizing up with
  | nil => exact ⟨rfl, rfl⟩
  | cons a below rest ihb ihr =>
    have ha : drops up a = false := h _ _ .here
    obtain ⟨hbelow, hbnone⟩ := ihb fun path t ht => by
      have hdown := h (a :: path) t ht.down
      rwa [parentOn_cons up a ht.ne_nil] at hdown
    obtain ⟨hrest, hrnone⟩ := ihr fun path t ht => h _ _ ht.along
    simp [prune, dropped, ha, hbelow, hbnone, hrest, hrnone]

-- ---------------------------------------------------------------------------
-- One changed row
-- ---------------------------------------------------------------------------

theorem Leads.of_changeBelow {g : α → Forest α → Forest α} (h : (f.changeBelow p g).Leads path t) :
    (∃ u, f.Leads path u ∧ u.label = t.label ∧ ∀ a ∈ path.dropLast, p a = false) ∨
      ∃ way more u, path = way ++ more ∧ f.Leads way u ∧ p u.label = true ∧
        (g u.label u.below).Leads more t := by
  induction f generalizing path with
  | nil => cases h
  | cons a below rest ihb ihr =>
    rw [changeBelow] at h
    cases h with
    | here => exact .inl ⟨_, .here, rfl, by simp⟩
    | @down _ path _ _ _ h =>
      split at h
      · exact .inr ⟨[a], path, _, rfl, .here, ‹_›, h⟩
      · rename_i ha
        rcases ihb h with ⟨u, hu, he, hp⟩ | ⟨way, more, u, rfl, hu, hp, hm⟩
        · refine .inl ⟨u, hu.down, he, ?_⟩
          rw [List.dropLast_cons_of_ne_nil hu.ne_nil]
          exact List.forall_mem_cons.mpr ⟨Bool.eq_false_iff.mpr ha, hp⟩
        · exact .inr ⟨a :: way, more, u, rfl, hu.down, hp, hm⟩
    | along h =>
      rcases ihr h with ⟨u, hu, he, hp⟩ | ⟨way, more, u, rfl, hu, hp, hm⟩
      · exact .inl ⟨u, hu.along, he, hp⟩
      · exact .inr ⟨way, more, u, rfl, hu.along, hp, hm⟩

theorem Leads.changeBelow_eq_self [DecidableEq κ] {key : α → κ} {g : α → Forest α → Forest α}
    (hf : f.Keyed key) (h : f.Leads path t) (hg : g t.label t.below = t.below) :
    f.changeBelow (fun a => key a == key t.label) g = f := by
  induction h with
  | @here a below rest =>
    have hrest : ∀ b ∈ rest.toList, (key b == key a) = false := fun b hb => by
      simpa using hf.ne_rest hb
    rw [changeBelow, if_pos (by simp), Forest.changeBelow_eq_self hrest, hg]
  | @down below path t a rest h ih =>
    have hrest : ∀ b ∈ rest.toList, (key b == key t.label) = false := fun b hb => by
      simpa using (hf.ne_of_below_of_rest h.mem hb).symm
    rw [changeBelow, if_neg (by simpa using (hf.ne_below h.mem).symm), ih hf.below hg,
      Forest.changeBelow_eq_self hrest]
  | @along rest path t a below h ih =>
    have hbelow : ∀ b ∈ below.toList, (key b == key t.label) = false := fun b hb => by
      simpa using hf.ne_of_below_of_rest hb h.mem
    rw [changeBelow, if_neg (by simpa using (hf.ne_rest h.mem).symm), ih hf.rest hg,
      Forest.changeBelow_eq_self hbelow]

end ChartPipeline.Forest
