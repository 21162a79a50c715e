import ChartPipeline.Proofs.Forest.Surgery

/-!
# Grafting

What a row put below a node adds to a forest: its nodes (`perm_graft`), and its edges, with the one
of the node changed (`mem_edges_graft`). A chain of nodes is a forest without branches, a `stem`.
-/

namespace ChartPipeline.Forest

variable {α β κ : Type} {p q : α → Bool}

abbrev graft (p : α → Bool) (f more : Forest α) : Forest α :=
  f.changeBelow p fun _ below => below ++ more

def stem : List α → Forest α
  | [] => nil
  | a :: rest => cons a (stem rest) nil

@[simp] theorem toList_stem (as : List α) : (stem as).toList = as := by
  induction as with
  | nil => rfl
  | cons a as ih => simp [stem, toList, ih]

@[simp] theorem roots_stem (as : List α) : (stem as).roots = as.head?.toList := by
  cases as <;> rfl

-- ---------------------------------------------------------------------------
-- Grafting twice
-- ---------------------------------------------------------------------------

theorem graft_cons (a : α) (below rest more : Forest α) : (cons a below rest).graft p more =
    cons a (if p a then below ++ more else below.graft p more) (rest.graft p more) := rfl

theorem graft_nil (f : Forest α) : f.graft p nil = f := by
  induction f with
  | nil => rfl
  | cons a below rest ihb ihr =>
    rw [graft_cons, ihb, ihr, append_nil]
    split <;> rfl

theorem graft_append (f g more : Forest α) : (f ++ g).graft p more = f.graft p more ++ g.graft p more := by
  induction f with
  | nil => rfl
  | cons a below rest _ ih => exact congrArg (cons a _) ih

theorem graft_graft {f : Forest α} (h : ∀ a ∈ f.toList, q a = false) (first more : Forest α) :
    (f.graft p first).graft q more = f.graft p (first.graft q more) := by
  induction f with
  | nil => rfl
  | cons a below rest ihb ihr =>
    simp only [toList, List.forall_mem_cons, List.forall_mem_append] at h
    obtain ⟨ha, hb, hr⟩ := h
    have hbelow : below.graft q more = below := changeBelow_eq_self hb
    rw [graft_cons, graft_cons, graft_cons, ha, if_neg (by simp), ihr hr]
    split
    · rw [graft_append, hbelow]
    · rw [ihb hb]

-- ---------------------------------------------------------------------------
-- Nodes
-- ---------------------------------------------------------------------------

theorem perm_graft [DecidableEq κ] {key : α → κ} {f : Forest α} {t : Tree α} {path : List α}
    (hf : f.Keyed key) (h : f.Leads path t) (more : Forest α) :
    (f.graft (fun a => key a == key t.label) more).toList.Perm (f.toList ++ more.toList) := by
  obtain ⟨before, after, hwhole, -, hchanged⟩ := h.exists_around hf rfl
  rw [graft, hchanged, hwhole, toList_append, Tree.toList, ← List.cons_append]
  simp only [List.append_assoc]
  exact ((List.perm_append_comm.append_left _).append_left before)

-- ---------------------------------------------------------------------------
-- Edges
-- ---------------------------------------------------------------------------

theorem mem_edges_stem {as : List α} {up : Option α} {e : α × Option α × List α}
    (h : e ∈ (stem as).edges up) : ∃ first a last, as = first ++ a :: last ∧
      e = (a, first.getLast?.or up, last.head?.toList) := by
  induction as generalizing up with
  | nil => cases h
  | cons b as ih =>
    rw [stem, edges, edges, List.append_nil, roots_stem] at h
    rcases List.mem_cons.mp h with rfl | h
    · exact ⟨[], b, as, rfl, rfl⟩
    · obtain ⟨first, a, last, rfl, rfl⟩ := ih h
      refine ⟨b :: first, a, last, rfl, ?_⟩
      rw [List.getLast?_cons]
      cases first.getLast? <;> rfl

/-- The edges after a graft: those of the new row, and those before, where the node has got the new
row. -/
theorem mem_edges_graft [DecidableEq κ] {key : α → κ} {k : κ} {f more : Forest α} {up : Option α}
    {e : α × Option α × List α} (hf : f.Keyed key)
    (h : e ∈ (f.graft (fun a => key a == k) more).edges up) :
    (∃ row, (e.1, e.2.1, row) ∈ f.edges up ∧
      e.2.2 = if key e.1 = k then row ++ more.roots else row) ∨
    ∃ a ∈ f.toList, key a = k ∧ e ∈ more.edges (some a) := by
  by_cases hk : ∃ a ∈ f.toList, key a = k
  · obtain ⟨a, ha, rfl⟩ := hk
    obtain ⟨path, t, ht, rfl⟩ := exists_leads_of_mem ha
    rcases ht.mem_edges_changeBelow hf rfl h with ⟨he, hother⟩ | rfl | he
    · exact .inl ⟨e.2.2, he, by rw [if_neg (hother _ (List.mem_cons_self ..)).symm]⟩
    · exact .inl ⟨t.below.roots, ht.mem_edges up, by rw [if_pos rfl, roots_append]⟩
    · rw [edges_append] at he
      rcases List.mem_append.mp he with he | he
      · have hne := (ht.keyed hf).ne_below (fst_mem_of_mem_edges he)
        exact .inl ⟨e.2.2, ht.edges_subset up he, by rw [if_neg hne]⟩
      · exact .inr ⟨t.label, ha, rfl, he⟩
  · have hother : ∀ a ∈ f.toList, key a ≠ k := fun a ha he => hk ⟨a, ha, he⟩
    rw [graft, changeBelow_eq_self fun a ha => by simpa using hother a ha] at h
    exact .inl ⟨e.2.2, h, by rw [if_neg (hother _ (fst_mem_of_mem_edges h))]⟩

end ChartPipeline.Forest
