import ChartPipeline.Forest
import Mathlib.Data.List.Nodup

/-!
# Positions in a forest

A position is the path from a root of the row down to a node, with the tree that starts there.
Where every node has a key of its own, the key determines the position, and the searches of a
forest find exactly that position.
-/

namespace ChartPipeline

def Tree.toList {α : Type} (t : Tree α) : List α := t.label :: t.below.toList

namespace Forest

variable {α κ : Type}

/-- The path leads from a root of the row down to the root of the tree, both ends included. -/
inductive Leads : Forest α → List α → Tree α → Prop
  | here : Leads (.cons a below rest) [a] ⟨a, below⟩
  | down : Leads below path t → Leads (.cons a below rest) (a :: path) t
  | along : Leads rest path t → Leads (.cons a below rest) path t

/-- The last element before the end of the path, or the given one if there is none. -/
def parentOn (up : α) : List α → α
  | a :: b :: rest => parentOn a (b :: rest)
  | _ => up

theorem Leads.ne_nil {f : Forest α} (h : Leads f path t) : path ≠ [] := by
  induction h with
  | here => simp
  | down => simp
  | along _ ih => exact ih

theorem parentOn_cons (up a : α) {path : List α} (h : path ≠ []) :
    parentOn up (a :: path) = parentOn a path := by
  cases path with
  | nil => exact absurd rfl h
  | cons b rest => rfl

theorem parentOn_append (up : α) (first : List α) {last : List α} (h : last ≠ []) :
    parentOn up (first ++ last) = parentOn (first.getLast?.getD up) last := by
  induction first generalizing up with
  | nil => rfl
  | cons a first ih =>
    rw [List.cons_append, parentOn_cons up a (by simp [h]), ih]
    cases first <;> simp [List.getLast?_cons]

theorem parentOn_eq (up : α) (path : List α) :
    parentOn up path = (path.dropLast.getLast?).getD up := by
  induction path generalizing up with
  | nil => rfl
  | cons a path ih =>
    cases path with
    | nil => rfl
    | cons b rest =>
      rw [parentOn_cons up a (by simp), ih, List.dropLast_cons_cons, List.getLast?_cons]
      rfl

theorem Leads.getLast? {f : Forest α} (h : Leads f path t) : path.getLast? = some t.label := by
  induction h with
  | here => rfl
  | down hb ih => rw [List.getLast?_cons, ih]; rfl
  | along _ ih => exact ih

theorem Leads.dropLast_append {f : Forest α} (h : Leads f path t) : path.dropLast ++ [t.label] = path :=
  List.dropLast_append_getLast? _ h.getLast?

theorem Leads.sublist {f : Forest α} (h : Leads f path t) :
    t.toList.Sublist f.toList := by
  induction h with
  | here => exact (List.sublist_append_left _ _).cons_cons _
  | down _ ih => exact (ih.trans (List.sublist_append_left _ _)).cons _
  | along _ ih => exact (ih.trans (List.sublist_append_right _ _)).cons _

theorem Leads.mem {f : Forest α} (h : Leads f path t) : t.label ∈ f.toList :=
  h.sublist.subset (List.mem_cons_self ..)

theorem exists_leads_of_mem {f : Forest α} {a : α} (h : a ∈ f.toList) :
    ∃ path t, Leads f path t ∧ t.label = a := by
  induction f with
  | nil => simp [toList] at h
  | cons b below rest ihb ihr =>
    simp only [toList, List.mem_cons, List.mem_append] at h
    obtain rfl | h | h := h
    · exact ⟨_, _, .here, rfl⟩
    · obtain ⟨path, t, ht, he⟩ := ihb h
      exact ⟨_, t, ht.down, he⟩
    · obtain ⟨path, t, ht, he⟩ := ihr h
      exact ⟨path, t, ht.along, he⟩

/-- Every node with those above it, from a root of the row down, in the order of `toList`. -/
def positions : Forest α → List (List α × α)
  | nil => []
  | cons a below rest =>
    ([], a) :: (below.positions.map (fun p => (a :: p.1, p.2)) ++ rest.positions)

theorem map_snd_positions (f : Forest α) : f.positions.map Prod.snd = f.toList := by
  induction f with
  | nil => rfl
  | cons a below rest ihb ihr => simp [positions, toList, ← ihb, ← ihr, Function.comp_def]

theorem mem_positions {f : Forest α} {above : List α} {a : α} :
    (above, a) ∈ f.positions ↔ ∃ below, Leads f (above ++ [a]) ⟨a, below⟩ := by
  induction f generalizing above with
  | nil => exact iff_of_false List.not_mem_nil fun ⟨_, h⟩ => nomatch h
  | cons b inner rest ihb ihr =>
    simp only [positions, List.mem_cons, List.mem_append, List.mem_map]
    constructor
    · rintro (h | ⟨⟨up, c⟩, hc, h⟩ | h)
      · cases h
        exact ⟨_, .here⟩
      · cases h
        obtain ⟨below, h⟩ := ihb.mp hc
        exact ⟨below, h.down⟩
      · obtain ⟨below, h⟩ := ihr.mp h
        exact ⟨below, h.along⟩
    · rintro ⟨below, h⟩
      generalize hpath : above ++ [a] = path at h
      cases h with
      | here =>
        obtain ⟨rfl, -⟩ := List.append_eq_singleton_iff.mp hpath |>.resolve_right (by simp)
        exact .inl rfl
      | down h =>
        cases above with
        | nil =>
          obtain ⟨-, rfl⟩ := List.cons.inj hpath
          exact absurd rfl h.ne_nil
        | cons c above =>
          obtain ⟨rfl, rfl⟩ := List.cons.inj hpath
          exact .inr (.inl ⟨_, ihb.mpr ⟨below, h⟩, rfl⟩)
      | along h =>
        subst hpath
        exact .inr (.inr (ihr.mpr ⟨below, h⟩))

theorem toList_tree (t : Tree α) : (tree t.label t.below).toList = t.toList := by
  simp [Tree.toList, tree, toList]

theorem leads_tree (a : α) (below : Forest α) : (tree a below).Leads [a] ⟨a, below⟩ := .here

theorem leads_append {f g : Forest α} :
    (f ++ g).Leads path t ↔ f.Leads path t ∨ g.Leads path t := by
  induction f with
  | nil =>
    refine ⟨.inr, fun h => h.resolve_left fun h => ?_⟩
    cases h
  | cons a below rest _ ih =>
    have hcons : cons a below rest ++ g = cons a below (rest ++ g) := rfl
    rw [hcons]
    constructor
    · intro h
      cases h with
      | here => exact .inl .here
      | down h => exact .inl h.down
      | along h => exact (ih.mp h).imp_left .along
    · rintro (h | h)
      · cases h with
        | here => exact .here
        | down h => exact h.down
        | along h => exact (ih.mpr (.inl h)).along
      · exact (ih.mpr (.inr h)).along

theorem Leads.append {f : Forest α} (h : Leads f path t) (hb : Leads t.below more u) :
    Leads f (path ++ more) u := by
  induction h with
  | here => exact hb.down
  | down _ ih => exact (ih hb).down
  | along _ ih => exact (ih hb).along

theorem Leads.split {f : Forest α} {first last : List α} (h : Leads f (first ++ last) u)
    (hf : first ≠ []) (hl : last ≠ []) : ∃ t, Leads f first t ∧ Leads t.below last u := by
  generalize he : first ++ last = path at h
  induction h generalizing first with
  | @here a below rest =>
    have : first.length + last.length = 1 := by simpa using congrArg List.length he
    have := List.length_pos_iff.mpr hf
    have := List.length_pos_iff.mpr hl
    omega
  | @down below path t a rest h ih =>
    cases first with
    | nil => exact absurd rfl hf
    | cons b first =>
      obtain ⟨rfl, rfl⟩ := List.cons.inj he
      by_cases hn : first = []
      · subst hn
        exact ⟨_, .here, h⟩
      · obtain ⟨t, ht, hu⟩ := ih hn rfl
        exact ⟨t, ht.down, hu⟩
  | along _ ih =>
    obtain ⟨t, ht, hu⟩ := ih hf he
    exact ⟨t, ht.along, hu⟩

/-! ## Keys -/

def Keyed (key : α → κ) (f : Forest α) : Prop := (f.toList.map key).Nodup

namespace Keyed

variable {key : α → κ} {a : α} {inner after : Forest α}

theorem below (h : Keyed key (.cons a inner after)) : Keyed key inner :=
  h.sublist (((List.sublist_append_left _ _).cons _).map key)

theorem rest (h : Keyed key (.cons a inner after)) : Keyed key after :=
  h.sublist (((List.sublist_append_right _ _).cons _).map key)

theorem ne_below (h : Keyed key (.cons a inner after)) {b : α} (hb : b ∈ inner.toList) :
    key b ≠ key a := by
  have h := (List.nodup_cons.mp h).1
  exact fun he => h (he ▸ List.mem_map_of_mem (List.mem_append_left _ hb))

theorem ne_rest (h : Keyed key (.cons a inner after)) {b : α} (hb : b ∈ after.toList) :
    key b ≠ key a := by
  have h := (List.nodup_cons.mp h).1
  exact fun he => h (he ▸ List.mem_map_of_mem (List.mem_append_right _ hb))

theorem ne_of_below_of_rest (h : Keyed key (.cons a inner after)) {b c : α} (hb : b ∈ inner.toList)
    (hc : c ∈ after.toList) : key b ≠ key c := by
  have h := (List.nodup_cons.mp h).2
  rw [List.map_append] at h
  exact fun he => List.disjoint_of_nodup_append h (List.mem_map_of_mem hb)
    (he ▸ List.mem_map_of_mem hc)

end Keyed

theorem Leads.unique {key : α → κ} {f : Forest α} (hf : Keyed key f) (h : Leads f path t)
    (h' : Leads f path' t') (he : key t.label = key t'.label) : path = path' ∧ t = t' := by
  induction h generalizing path' with
  | here =>
    cases h' with
    | here => exact ⟨rfl, rfl⟩
    | down h' => exact absurd he.symm (hf.ne_below h'.mem)
    | along h' => exact absurd he.symm (hf.ne_rest h'.mem)
  | down h ih =>
    cases h' with
    | here => exact absurd he (hf.ne_below h.mem)
    | down h' =>
      obtain ⟨rfl, rfl⟩ := ih hf.below h' he
      exact ⟨rfl, rfl⟩
    | along h' => exact absurd he (hf.ne_of_below_of_rest h.mem h'.mem)
  | along h ih =>
    cases h' with
    | here => exact absurd he (hf.ne_rest h.mem)
    | down h' => exact absurd he.symm (hf.ne_of_below_of_rest h'.mem h.mem)
    | along h' => exact ih hf.rest h' he

/-! ## Searches -/

section

variable {p : α → Bool}

theorem find?_eq_none {f : Forest α} (h : ∀ a ∈ f.toList, p a = false) : f.find? p = none := by
  induction f with
  | nil => rfl
  | cons a below rest ihb ihr =>
    simp only [toList, List.mem_cons, List.mem_append] at h
    simp [find?, h a, ihb fun b hb => h b (.inr (.inl hb)), ihr fun b hb => h b (.inr (.inr hb))]

theorem path?_eq_none {f : Forest α} (h : ∀ a ∈ f.toList, p a = false) : f.path? p = none := by
  induction f with
  | nil => rfl
  | cons a below rest ihb ihr =>
    simp only [toList, List.mem_cons, List.mem_append] at h
    simp [path?, h a, ihb fun b hb => h b (.inr (.inl hb)), ihr fun b hb => h b (.inr (.inr hb))]

theorem leads_of_find? {f : Forest α} (h : f.find? p = some t) :
    p t.label = true ∧ ∃ path, Leads f path t := by
  induction f with
  | nil => simp [find?] at h
  | cons a below rest ihb ihr =>
    unfold find? at h
    split at h
    · cases h
      exact ⟨‹_›, _, .here⟩
    · rcases Option.or_eq_some_iff.mp h with h | ⟨-, h⟩
      · obtain ⟨hp, path, ht⟩ := ihb h
        exact ⟨hp, _, ht.down⟩
      · obtain ⟨hp, path, ht⟩ := ihr h
        exact ⟨hp, _, ht.along⟩

variable [DecidableEq κ] {key : α → κ} {k : κ}

theorem Leads.find?_path? {f : Forest α} (hf : Keyed key f) (h : Leads f path t)
    (hk : key t.label = k) :
    f.find? (fun a => key a == k) = some t ∧ f.path? (fun a => key a == k) = some path := by
  induction h with
  | here => simp [find?, path?, hk]
  | @down below path t a rest h ih =>
    have hn : key a ≠ k := hk ▸ (hf.ne_below h.mem).symm
    obtain ⟨h1, h2⟩ := ih hf.below hk
    simp [find?, path?, hn, h1, h2]
  | @along rest path t a below h ih =>
    have hn : key a ≠ k := hk ▸ (hf.ne_rest h.mem).symm
    have hb : ∀ b ∈ below.toList, (key b == k) = false := fun b hb => by
      simpa using hk ▸ hf.ne_of_below_of_rest hb h.mem
    obtain ⟨h1, h2⟩ := ih hf.rest hk
    simp [find?, path?, hn, find?_eq_none hb, path?_eq_none hb, h1, h2]

theorem map_fst_edges (f : Forest α) (up : Option α) : (f.edges up).map Prod.fst = f.toList := by
  induction f generalizing up with
  | nil => rfl
  | cons a below rest ihb ihr => simp [edges, toList, ihb, ihr]

theorem getLast?_dropLast_cons (a : α) {path : List α} (h : path ≠ []) (up : Option α) :
    ((a :: path).dropLast.getLast?).or up = (path.dropLast.getLast?).or (some a) := by
  rw [List.dropLast_cons_of_ne_nil h, List.getLast?_cons]
  cases path.dropLast.getLast? <;> rfl

theorem Leads.mem_edges {f : Forest α} (h : Leads f path t) (up : Option α) :
    (t.label, (path.dropLast.getLast?).or up, t.below.roots) ∈ f.edges up := by
  induction h generalizing up with
  | here => simp [edges]
  | @down below path t a rest h ih =>
    rw [getLast?_dropLast_cons a h.ne_nil]
    exact List.mem_cons_of_mem _ (List.mem_append_left _ (ih (some a)))
  | along _ ih => simp [edges, ih up]

theorem Leads.edges_subset {f : Forest α} (h : Leads f path t) (up : Option α) :
    t.below.edges (some t.label) ⊆ f.edges up := by
  induction h generalizing up with
  | here => exact fun e he => List.mem_cons_of_mem _ (List.mem_append_left _ he)
  | @down below path t a rest h ih =>
    exact fun e he => List.mem_cons_of_mem _ (List.mem_append_left _ (ih (some a) he))
  | along _ ih => exact fun e he => List.mem_cons_of_mem _ (List.mem_append_right _ (ih up he))

end

end Forest

end ChartPipeline
