import ChartPipeline.Proofs.Forest.Position

/-!
# Edges of forests

The edges of a forest tell for every node its parent and its children. The two always agree
(`edge_of_child`, `child_of_edge`), and surgery at one node changes only what is told of this node,
of those below it and of its parent (`Leads.exists_edges_around`).
-/

namespace ChartPipeline.Forest

variable {α β κ : Type} {p : α → Bool}

abbrev Edge (α : Type) := α × Option α × List α

-- ---------------------------------------------------------------------------
-- Nodes that are not there
-- ---------------------------------------------------------------------------

theorem remove_eq_self {f : Forest α} (h : ∀ a ∈ f.toList, p a = false) : f.remove p = f := by
  induction f with
  | nil => rfl
  | cons a below rest ihb ihr =>
    simp only [toList, List.mem_cons, List.mem_append] at h
    simp [remove, h a, ihb fun b hb => h b (.inr (.inl hb)), ihr fun b hb => h b (.inr (.inr hb))]

theorem splice_eq_self {f : Forest α} (h : ∀ a ∈ f.toList, p a = false) : f.splice p = f := by
  induction f with
  | nil => rfl
  | cons a below rest ihb ihr =>
    simp only [toList, List.mem_cons, List.mem_append] at h
    simp [splice, h a, ihb fun b hb => h b (.inr (.inl hb)), ihr fun b hb => h b (.inr (.inr hb))]

theorem changeBelow_eq_self {g : α → Forest α → Forest α} {f : Forest α}
    (h : ∀ a ∈ f.toList, p a = false) : f.changeBelow p g = f := by
  induction f with
  | nil => rfl
  | cons a below rest ihb ihr =>
    simp only [toList, List.mem_cons, List.mem_append] at h
    simp [changeBelow, h a, ihb fun b hb => h b (.inr (.inl hb)),
      ihr fun b hb => h b (.inr (.inr hb))]

-- ---------------------------------------------------------------------------
-- Rows
-- ---------------------------------------------------------------------------

theorem roots_changeBelow (g : α → Forest α → Forest α) (f : Forest α) :
    (f.changeBelow p g).roots = f.roots := by
  induction f with
  | nil => rfl
  | cons a below rest _ ih => exact congrArg (a :: ·) ih

theorem roots_map (h : α → β) (f : Forest α) : (f.map h).roots = f.roots.map h := by
  induction f with
  | nil => rfl
  | cons a below rest _ ih => exact congrArg (h a :: ·) ih

theorem roots_remove (p : α → Bool) (f : Forest α) :
    (f.remove p).roots = f.roots.filter fun a => !p a := by
  induction f with
  | nil => rfl
  | cons a below rest _ ih =>
    rw [remove, roots]
    split
    · rw [ih, List.filter_cons_of_neg (by simpa)]
    · rw [roots, ih, List.filter_cons_of_pos (by simp_all)]

theorem sublist_remove (p : α → Bool) (f : Forest α) : (f.remove p).toList.Sublist f.toList := by
  induction f with
  | nil => exact .slnil
  | cons a below rest ihb ihr =>
    rw [remove, toList]
    split
    · exact (ihr.trans (List.sublist_append_right _ _)).cons a
    · exact (ihb.append ihr).cons_cons a

theorem Keyed.remove {key : α → κ} {f : Forest α} (hf : f.Keyed key) (p : α → Bool) :
    (f.remove p).Keyed key :=
  hf.sublist ((sublist_remove p f).map key)

theorem Leads.keyed {key : α → κ} {f : Forest α} {t : Tree α} {path : List α} (hf : f.Keyed key)
    (h : f.Leads path t) : (tree t.label t.below).Keyed key := by
  rw [Keyed, toList_tree]
  exact hf.sublist (h.sublist.map key)

theorem Keyed.first {key : α → κ} {a : α} {below rest : Forest α}
    (hf : (cons a below rest).Keyed key) : (tree a below).Keyed key :=
  Leads.here.keyed hf

theorem roots_sublist (f : Forest α) : f.roots.Sublist f.toList := by
  induction f with
  | nil => exact .slnil
  | cons a below rest _ ih => exact (ih.trans (List.sublist_append_right _ _)).cons_cons a

theorem mem_roots {f : Forest α} {a : α} : a ∈ f.roots ↔ ∃ t, f.Leads [a] t ∧ t.label = a := by
  induction f with
  | nil =>
    constructor
    · intro h
      cases h
    · rintro ⟨t, h, -⟩
      cases h
  | cons b below rest _ ih =>
    rw [roots, List.mem_cons, ih]
    constructor
    · rintro (rfl | ⟨t, h, he⟩)
      · exact ⟨_, .here, rfl⟩
      · exact ⟨t, h.along, he⟩
    · rintro ⟨t, h, he⟩
      cases h with
      | here => exact .inl rfl
      | down h => exact absurd rfl h.ne_nil
      | along h => exact .inr ⟨t, h, he⟩

theorem flatMap_roots {f : Forest α} {list : α → List β} {h : α → β}
    (hl : ∀ t, f.Leads [t.label] t → list t.label = t.toList.map h) :
    f.roots.flatMap list = f.toList.map h := by
  induction f with
  | nil => rfl
  | cons a below rest _ ih =>
    rw [roots, List.flatMap_cons, hl ⟨a, below⟩ .here, ih fun t ht => hl t ht.along, ← List.map_append]
    rfl

theorem Keyed.nodup_roots {key : α → κ} {f : Forest α} {t : Tree α} {path : List α} (hf : f.Keyed key)
    (h : f.Leads path t) : (t.below.roots.map key).Nodup :=
  hf.sublist ((((roots_sublist _).trans (List.sublist_cons_self _ _)).trans h.sublist).map key)

section

variable [DecidableEq κ]

variable {key : α → κ} {k : κ}

theorem putFor_append (others last : List α) {first : List α} (h : ∀ a ∈ first, key a ≠ k) :
    putFor key k others (first ++ last) = first ++ putFor key k others last := by
  induction first with
  | nil => rfl
  | cons a first ih =>
    obtain ⟨ha, h⟩ := List.forall_mem_cons.mp h
    rw [List.cons_append, putFor, if_neg ha, ih h, List.cons_append]

theorem putFor_eq_self (others : List α) {row : List α} (h : ∀ a ∈ row, key a ≠ k) :
    putFor key k others row = row := by
  simpa [putFor] using putFor_append others [] h

theorem map_putFor (others row : List α) :
    (putFor key k others row).map key = putFor (fun a => a) k (others.map key) (row.map key) := by
  induction row with
  | nil => rfl
  | cons a row ih =>
    rw [putFor, List.map_cons, putFor]
    split
    · rw [List.map_append]
    · rw [List.map_cons, ih]

theorem Leads.roots_splice {f : Forest α} {t : Tree α} {path : List α} (hf : f.Keyed key)
    (h : f.Leads path t) (hk : key t.label = k) :
    (f.splice fun a => key a == k).roots = putFor key k t.below.roots f.roots := by
  induction h with
  | @here a below rest =>
    have hb : ∀ b ∈ below.toList, (key b == k) = false := fun b hb => by
      simpa using hk ▸ hf.ne_below hb
    have hr : ∀ b ∈ rest.toList, (key b == k) = false := fun b hb => by
      simpa using hk ▸ hf.ne_rest hb
    simp [splice, roots, putFor, hk, splice_eq_self hb, splice_eq_self hr]
  | @down below path t a rest h ih =>
    have ha : key a ≠ k := hk ▸ (hf.ne_below h.mem).symm
    have hr : ∀ b ∈ rest.toList, key b ≠ k := fun b hb => hk ▸ (hf.ne_of_below_of_rest h.mem hb).symm
    have hrow : ∀ b ∈ rest.roots, key b ≠ k := fun b hb => hr b ((roots_sublist _).subset hb)
    simp [splice, roots, putFor, ha, putFor_eq_self _ hrow,
      splice_eq_self fun b hb => beq_eq_false_iff_ne.mpr (hr b hb)]
  | @along rest path t a below h ih =>
    have ha : key a ≠ k := hk ▸ (hf.ne_rest h.mem).symm
    simp [splice, roots, putFor, ha, ih hf.rest hk]

end

-- ---------------------------------------------------------------------------
-- Parents and children
-- ---------------------------------------------------------------------------

section

variable {f : Forest α} {up : Option α} {e : Edge α} {a c : α} {row : List α}

theorem edges_append (f g : Forest α) (up : Option α) :
    (f ++ g).edges up = f.edges up ++ g.edges up := by
  induction f with
  | nil => rfl
  | cons a below rest _ ih =>
    have hcons : cons a below rest ++ g = cons a below (rest ++ g) := rfl
    rw [hcons, edges, edges, ih, List.cons_append, List.append_assoc]

theorem edges_map (h : α → β) (f : Forest α) (up : Option α) :
    (f.map h).edges (up.map h) = (f.edges up).map fun e => (h e.1, e.2.1.map h, e.2.2.map h) := by
  induction f generalizing up with
  | nil => rfl
  | cons a below rest ihb ihr =>
    have hb := ihb (some a)
    rw [Option.map_some] at hb
    rw [map, edges, edges, hb, ihr, List.map_cons, List.map_append, roots_map]

theorem mem_edges_leaves {as : List α} (h : e ∈ (leaves as).edges up) :
    ∃ a ∈ as, e = (a, up, []) := by
  induction as with
  | nil => cases h
  | cons a as ih =>
    rcases List.mem_cons.mp h with rfl | h
    · exact ⟨a, List.mem_cons_self .., rfl⟩
    · obtain ⟨b, hb, he⟩ := ih h
      exact ⟨b, List.mem_cons_of_mem _ hb, he⟩

theorem fst_mem_of_mem_edges (h : e ∈ f.edges up) : e.1 ∈ f.toList := by
  rw [← map_fst_edges f up]
  exact List.mem_map_of_mem h

theorem Keyed.edge_unique {key : α → κ} {e' : Edge α} (hf : f.Keyed key)
    (h : e ∈ f.edges up) (h' : e' ∈ f.edges up) (hk : key e.1 = key e'.1) : e = e' := by
  rw [Keyed, ← map_fst_edges f up, List.map_map] at hf
  exact List.inj_on_of_nodup_map hf h h' hk

theorem Keyed.leads_of_mem_edges {key : α → κ} (hf : f.Keyed key) (h : e ∈ f.edges up) :
    ∃ path t, f.Leads path t ∧ e = (t.label, path.dropLast.getLast?.or up, t.below.roots) := by
  obtain ⟨path, t, ht, he⟩ := exists_leads_of_mem (fst_mem_of_mem_edges h)
  exact ⟨path, t, ht, hf.edge_unique h (ht.mem_edges up) (by rw [he])⟩

theorem Keyed.ne_parent {key : α → κ} {path : List α} {t : Tree α} {above : α} (hf : f.Keyed key)
    (h : f.Leads path t) (ha : path.dropLast.getLast? = some above) :
    ∀ b ∈ t.toList, key b ≠ key above := by
  have hne : path.dropLast ≠ [] := fun hnil => by simp [hnil] at ha
  rw [← h.dropLast_append] at h
  obtain ⟨u, hu, ht⟩ := h.split hne (by simp)
  obtain rfl := Option.some.inj (hu.getLast?.symm.trans ha)
  exact fun b hb => (hu.keyed hf).ne_below (ht.sublist.subset hb)

theorem row_subset (h : e ∈ f.edges up) : e.2.2 ⊆ f.toList := by
  induction f generalizing up with
  | nil => cases h
  | cons b below rest ihb ihr =>
    rw [toList]
    rcases List.mem_cons.mp h with rfl | h
    · exact fun c hc =>
        List.mem_cons_of_mem _ (List.mem_append_left _ ((roots_sublist below).subset hc))
    · rcases List.mem_append.mp h with h | h
      · exact fun c hc => List.mem_cons_of_mem _ (List.mem_append_left _ (ihb h hc))
      · exact fun c hc => List.mem_cons_of_mem _ (List.mem_append_right _ (ihr h hc))

theorem edge_of_root (h : c ∈ f.roots) (up : Option α) : ∃ row, (c, up, row) ∈ f.edges up := by
  induction f with
  | nil => cases h
  | cons b below rest _ ih =>
    rcases List.mem_cons.mp h with rfl | h
    · exact ⟨_, List.mem_cons_self ..⟩
    · obtain ⟨row, hrow⟩ := ih h
      exact ⟨row, List.mem_cons_of_mem _ (List.mem_append_right _ hrow)⟩

theorem edge_of_child (h : e ∈ f.edges up) (hc : c ∈ e.2.2) :
    ∃ row, (c, some e.1, row) ∈ f.edges up := by
  induction f generalizing up with
  | nil => cases h
  | cons b below rest ihb ihr =>
    rcases List.mem_cons.mp h with rfl | h
    · obtain ⟨row, hrow⟩ := edge_of_root hc (some b)
      exact ⟨row, List.mem_cons_of_mem _ (List.mem_append_left _ hrow)⟩
    · rcases List.mem_append.mp h with h | h
      · obtain ⟨row, hrow⟩ := ihb h
        exact ⟨row, List.mem_cons_of_mem _ (List.mem_append_left _ hrow)⟩
      · obtain ⟨row, hrow⟩ := ihr h
        exact ⟨row, List.mem_cons_of_mem _ (List.mem_append_right _ hrow)⟩

theorem child_of_edge (h : (c, some a, row) ∈ f.edges up) :
    (up = some a ∧ c ∈ f.roots) ∨ ∃ above others, (a, above, others) ∈ f.edges up ∧ c ∈ others := by
  induction f generalizing up with
  | nil => cases h
  | cons b below rest ihb ihr =>
    rcases List.mem_cons.mp h with h | h
    · cases h
      exact .inl ⟨rfl, List.mem_cons_self ..⟩
    · rcases List.mem_append.mp h with h | h
      · rcases ihb h with ⟨he, hc⟩ | ⟨above, others, he, hc⟩
        · obtain rfl := Option.some.inj he
          exact .inr ⟨up, below.roots, List.mem_cons_self .., hc⟩
        · exact .inr ⟨above, others, List.mem_cons_of_mem _ (List.mem_append_left _ he), hc⟩
      · rcases ihr h with ⟨rfl, hc⟩ | ⟨above, others, he, hc⟩
        · exact .inl ⟨rfl, List.mem_cons_of_mem _ hc⟩
        · exact .inr ⟨above, others, List.mem_cons_of_mem _ (List.mem_append_right _ he), hc⟩

theorem edges_under (h : e ∈ f.edges up) :
    (e.1 ∈ f.roots ∧ e.2.1 = up ∧ ∀ up', (e.1, up', e.2.2) ∈ f.edges up') ∨
      (∃ a ∈ f.toList, e.2.1 = some a) ∧ ∀ up', e ∈ f.edges up' := by
  induction f generalizing up with
  | nil => cases h
  | cons b below rest ihb ihr =>
    rcases List.mem_cons.mp h with rfl | h
    · exact .inl ⟨List.mem_cons_self .., rfl, fun up' => List.mem_cons_self ..⟩
    · rcases List.mem_append.mp h with h | h
      · refine .inr ⟨?_, fun up' => List.mem_cons_of_mem _ (List.mem_append_left _ h)⟩
        rcases ihb h with ⟨-, he, -⟩ | ⟨⟨a, ha, he⟩, -⟩
        · exact ⟨b, List.mem_cons_self .., he⟩
        · exact ⟨a, List.mem_cons_of_mem _ (List.mem_append_left _ ha), he⟩
      · rcases ihr h with ⟨hc, he, hup⟩ | ⟨⟨a, ha, he⟩, hup⟩
        · exact .inl ⟨List.mem_cons_of_mem _ hc, he, fun up' =>
            List.mem_cons_of_mem _ (List.mem_append_right _ (hup up'))⟩
        · exact .inr ⟨⟨a, List.mem_cons_of_mem _ (List.mem_append_right _ ha), he⟩, fun up' =>
            List.mem_cons_of_mem _ (List.mem_append_right _ (hup up'))⟩

def onRow (h : List α → List α) (e : Edge α) : Edge α :=
  (e.1, e.2.1, h e.2.2)

theorem map_onRow_edges {h : List α → List α} (hh : ∀ row ⊆ f.toList, h row = row) (up : Option α) :
    (f.edges up).map (onRow h) = f.edges up := by
  conv_rhs => rw [← List.map_id (f.edges up)]
  refine List.map_congr_left fun e he => ?_
  rw [onRow, hh _ (row_subset he), id_eq]

theorem map_fst_onRow (h : List α → List α) (edges : List (Edge α)) :
    (edges.map (onRow h)).map Prod.fst = edges.map Prod.fst := by
  rw [List.map_map]
  rfl

theorem Keyed.mem_around {key : α → κ} {t : Tree α} {first last} (hf : f.Keyed key)
    (hedges : f.edges up =
      first ++ ((t.label, above, row) :: t.below.edges (some t.label)) ++ last)
    (he : e ∈ first ++ last) : e ∈ f.edges up ∧ ∀ b ∈ t.toList, key b ≠ key e.1 := by
  have hlist : f.toList = first.map Prod.fst ++ (t.toList ++ last.map Prod.fst) := by
    rw [← map_fst_edges f up, hedges]
    simp [map_fst_edges, Tree.toList]
  rw [Keyed, hlist, List.map_append, List.map_append] at hf
  have hnodup := (List.perm_append_comm_assoc _ _ _).nodup_iff.mp hf
  rw [← List.map_append, ← List.map_append, ← List.map_append, List.map_append] at hnodup
  refine ⟨?_, fun b hb hk => ?_⟩
  · rw [hedges]
    exact ((List.sublist_append_left ..).append (.refl _)).subset he
  · refine List.disjoint_of_nodup_append hnodup (List.mem_map_of_mem hb) ?_
    rw [hk]
    exact List.mem_map_of_mem (List.mem_map_of_mem he)

end

-- ---------------------------------------------------------------------------
-- One node
-- ---------------------------------------------------------------------------

section

variable [DecidableEq κ] {key : α → κ} {k : κ} {t : Tree α} {path : List α}

def without (key : α → κ) (k : κ) (row : List α) : List α := row.filter fun a => !(key a == k)

theorem without_eq_self {row : List α} (h : ∀ a ∈ row, key a ≠ k) : without key k row = row :=
  List.filter_eq_self.mpr fun a ha => by simpa using h a ha

/-- The edges of a node with a key of its own and of what is below it, and those before and after.
Removing the tree, and putting its children in its place, takes these edges out; changing the row
below it replaces them. -/
theorem Leads.exists_edges_around {f : Forest α} (hf : f.Keyed key) (h : f.Leads path t)
    (hk : key t.label = k) (up : Option α) : ∃ before after,
      f.edges up = before ++ ((t.label, path.dropLast.getLast?.or up, t.below.roots) ::
        t.below.edges (some t.label)) ++ after ∧
      (f.remove fun a => key a == k).edges up = (before ++ after).map (onRow (without key k)) ∧
      (f.splice fun a => key a == k).edges up = before.map (onRow (putFor key k t.below.roots)) ++
        t.below.edges (path.dropLast.getLast?.or up) ++
        after.map (onRow (putFor key k t.below.roots)) ∧
      ∀ g, (f.changeBelow (fun a => key a == k) g).edges up = before ++
        ((t.label, path.dropLast.getLast?.or up, (g t.label t.below).roots) ::
          (g t.label t.below).edges (some t.label)) ++ after := by
  -- rows without the key stay as they are
  have hwithout {f : Forest α} (h : ∀ b ∈ f.toList, key b ≠ k) (up : Option α) :
      (f.edges up).map (onRow (without key k)) = f.edges up :=
    map_onRow_edges (fun row hrow => without_eq_self fun b hb => h b (hrow hb)) up
  have hput {f : Forest α} (h : ∀ b ∈ f.toList, key b ≠ k) (others : List α) (up : Option α) :
      (f.edges up).map (onRow (putFor key k others)) = f.edges up :=
    map_onRow_edges (fun row hrow => putFor_eq_self _ fun b hb => h b (hrow hb)) up
  induction h generalizing up with
  | @here a below rest =>
    have hb : ∀ b ∈ below.toList, key b ≠ k := fun b hb => hk ▸ hf.ne_below hb
    have hr : ∀ b ∈ rest.toList, key b ≠ k := fun b hb => hk ▸ hf.ne_rest hb
    have hb' : ∀ b ∈ below.toList, (key b == k) = false := fun b h => by simpa using hb b h
    have hr' : ∀ b ∈ rest.toList, (key b == k) = false := fun b h => by simpa using hr b h
    refine ⟨[], rest.edges up, by simp [edges], ?_, ?_, fun g => ?_⟩
    · simp [remove, hk, remove_eq_self hr', hwithout hr]
    · simp [splice, hk, splice_eq_self hb', splice_eq_self hr', edges_append, hput hr]
    · simp [changeBelow, hk, changeBelow_eq_self hr', edges]
  | @down below path t a rest h ih =>
    have ha : key a ≠ k := hk ▸ (hf.ne_below h.mem).symm
    have hr : ∀ b ∈ rest.toList, key b ≠ k := fun b hb => hk ▸ (hf.ne_of_below_of_rest h.mem hb).symm
    have hr' : ∀ b ∈ rest.toList, (key b == k) = false := fun b h => by simpa using hr b h
    obtain ⟨before, after, h1, h2, h3, h4⟩ := ih hf.below hk (some a)
    rw [getLast?_dropLast_cons a h.ne_nil]
    refine ⟨(a, up, below.roots) :: before, after ++ rest.edges up, ?_, ?_, ?_, fun g => ?_⟩
    · simp [edges, h1]
    · simp [remove, ha, remove_eq_self hr', edges, h2, hwithout hr, onRow, roots_remove, without]
    · simp [splice, ha, splice_eq_self hr', edges, h3, hput hr, onRow, h.roots_splice hf.below hk]
    · simp [changeBelow, ha, changeBelow_eq_self hr', edges, h4, roots_changeBelow]
  | @along rest path t a below h ih =>
    have ha : key a ≠ k := hk ▸ (hf.ne_rest h.mem).symm
    have hb : ∀ b ∈ below.toList, key b ≠ k := fun b hb => hk ▸ hf.ne_of_below_of_rest hb h.mem
    have hb' : ∀ b ∈ below.toList, (key b == k) = false := fun b h => by simpa using hb b h
    have hrow : ∀ b ∈ below.roots, key b ≠ k := fun b h => hb b ((roots_sublist _).subset h)
    obtain ⟨before, after, h1, h2, h3, h4⟩ := ih hf.rest hk up
    refine ⟨(a, up, below.roots) :: (below.edges (some a) ++ before), after, ?_, ?_, ?_, fun g => ?_⟩
    · simp [edges, h1]
    · simp [remove, ha, remove_eq_self hb', edges, h2, hwithout hb, onRow, without_eq_self hrow]
    · simp [splice, ha, splice_eq_self hb', edges, h3, hput hb, onRow, putFor_eq_self _ hrow]
    · simp [changeBelow, ha, changeBelow_eq_self hb', edges, h4]

variable {f : Forest α} {up : Option α} {e : Edge α} {g : α → Forest α → Forest α}

theorem Leads.mem_edges_remove (hf : f.Keyed key) (h : f.Leads path t) (hk : key t.label = k)
    (he : e ∈ (f.remove fun a => key a == k).edges up) : ∃ row, (e.1, e.2.1, row) ∈ f.edges up ∧
      (∀ b ∈ t.toList, key b ≠ key e.1) ∧ e.2.2 = without key k row := by
  obtain ⟨before, after, h1, h2, -⟩ := h.exists_edges_around hf hk up
  rw [h2] at he
  obtain ⟨e', he', rfl⟩ := List.mem_map.mp he
  obtain ⟨hmem, hother⟩ := hf.mem_around h1 he'
  exact ⟨e'.2.2, hmem, hother, rfl⟩

theorem Leads.mem_edges_splice (hf : f.Keyed key) (h : f.Leads path t) (hk : key t.label = k)
    (he : e ∈ (f.splice fun a => key a == k).edges up) :
    (∃ row, (e.1, e.2.1, row) ∈ f.edges up ∧ (∀ b ∈ t.toList, key b ≠ key e.1) ∧
      e.2.2 = putFor key k t.below.roots row) ∨
    e ∈ t.below.edges (path.dropLast.getLast?.or up) := by
  obtain ⟨before, after, h1, -, h3, -⟩ := h.exists_edges_around hf hk up
  have hother (he : e ∈ (before ++ after).map (onRow (putFor key k t.below.roots))) :
      ∃ row, (e.1, e.2.1, row) ∈ f.edges up ∧ (∀ b ∈ t.toList, key b ≠ key e.1) ∧
        e.2.2 = putFor key k t.below.roots row := by
    obtain ⟨e', he', rfl⟩ := List.mem_map.mp he
    obtain ⟨hmem, hother⟩ := hf.mem_around h1 he'
    exact ⟨e'.2.2, hmem, hother, rfl⟩
  rw [List.map_append] at hother
  rw [h3] at he
  rcases List.mem_append.mp he with he | he
  · rcases List.mem_append.mp he with he | he
    · exact .inl (hother (List.mem_append_left _ he))
    · exact .inr he
  · exact .inl (hother (List.mem_append_right _ he))

theorem Leads.mem_edges_changeBelow (hf : f.Keyed key) (h : f.Leads path t) (hk : key t.label = k)
    (he : e ∈ (f.changeBelow (fun a => key a == k) g).edges up) :
    (e ∈ f.edges up ∧ ∀ b ∈ t.toList, key b ≠ key e.1) ∨
    e = (t.label, path.dropLast.getLast?.or up, (g t.label t.below).roots) ∨
    e ∈ (g t.label t.below).edges (some t.label) := by
  obtain ⟨before, after, h1, -, -, h4⟩ := h.exists_edges_around hf hk up
  rw [h4] at he
  rcases List.mem_append.mp he with he | he
  · rcases List.mem_append.mp he with he | he
    · exact .inl (hf.mem_around h1 (List.mem_append_left _ he))
    · exact .inr (List.mem_cons.mp he)
  · exact .inl (hf.mem_around h1 (List.mem_append_right _ he))

end

end ChartPipeline.Forest
