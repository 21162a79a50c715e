import ChartPipeline.Proofs.Forest.Position
import Mathlib.Data.List.Flatten
import Mathlib.Data.List.Perm.Basic

/-!
# Levels of a forest

The nodes with a property cut a forest into layers: `shallow` is what lies above the cuts, and
`firsts` are the trees right at them. `levels` holds all cut trees, and every one of them stands
behind the one that it lies below (`Layered.ordered`). Together the layers hold every node once
(`perm_levels`).
-/

namespace ChartPipeline.Forest

variable {α : Type} {p : α → Bool}

def shallow (p : α → Bool) : Forest α → List α
  | nil => []
  | cons a below rest => a :: ((if p a then [] else below.shallow p) ++ rest.shallow p)

def firsts (p : α → Bool) : Forest α → List (Tree α)
  | nil => []
  | cons a below rest => (if p a then [⟨a, below⟩] else below.firsts p) ++ rest.firsts p

theorem mem_firsts {f : Forest α} {t : Tree α} :
    t ∈ f.firsts p ↔ p t.label = true ∧ ∃ path, Leads f path t ∧ ∀ a ∈ path.dropLast, p a = false := by
  induction f with
  | nil =>
    constructor
    · intro h
      cases h
    · rintro ⟨-, path, h, -⟩
      cases h
  | cons a below rest ihb ihr =>
    rw [firsts, List.mem_append, ihr]
    constructor
    · rintro (h | ⟨ht, path, hl, hp⟩)
      · split at h
        · obtain rfl := List.mem_singleton.mp h
          exact ⟨‹_›, _, .here, by simp⟩
        · rename_i ha
          obtain ⟨ht, path, hl, hp⟩ := ihb.mp h
          refine ⟨ht, a :: path, hl.down, ?_⟩
          rw [List.dropLast_cons_of_ne_nil hl.ne_nil]
          exact List.forall_mem_cons.mpr ⟨by simpa using ha, hp⟩
      · exact ⟨ht, path, hl.along, hp⟩
    · rintro ⟨ht, path, hl, hp⟩
      cases hl with
      | here => exact .inl (by simp_all)
      | down hl =>
        rw [List.dropLast_cons_of_ne_nil hl.ne_nil] at hp
        obtain ⟨ha, hp⟩ := List.forall_mem_cons.mp hp
        rw [if_neg (by simp [ha])]
        exact .inl (ihb.mpr ⟨ht, _, hl, hp⟩)
      | along hl => exact .inr ⟨ht, _, hl, hp⟩

-- ---------------------------------------------------------------------------
-- Every cut tree once
-- ---------------------------------------------------------------------------

theorem perm_flatten_joinLevels {γ : Type} (xs ys : List (List γ)) :
    (joinLevels xs ys).flatten.Perm (xs.flatten ++ ys.flatten) := by
  fun_induction joinLevels xs ys with
  | case1 ys => simp
  | case2 xs h => simp
  | case3 x xs y ys ih =>
    simp only [List.flatten_cons, List.append_assoc]
    refine List.Perm.append_left x ((ih.append_left y).trans ?_)
    rw [← List.append_assoc, ← List.append_assoc]
    exact List.perm_append_comm.append_right _

theorem perm_flatten_foldr_joinLevels {γ : Type} (xss : List (List (List γ))) :
    (xss.foldr joinLevels []).flatten.Perm (xss.flatMap List.flatten) := by
  induction xss with
  | nil => simp
  | cons xs xss ih => exact (perm_flatten_joinLevels _ _).trans (ih.append_left _)

theorem mem_levels {f : Forest α} {t : Tree α} :
    t ∈ (f.levels p).flatten ↔ p t.label = true ∧ ∃ path, Leads f path t := by
  induction f with
  | nil =>
    constructor
    · intro h
      cases h
    · rintro ⟨-, path, h⟩
      cases h
  | cons a below rest ihb ihr =>
    rw [levels, (perm_flatten_joinLevels _ _).mem_iff, List.mem_append, ihr]
    have hfirst : t ∈ (if p a then [⟨a, below⟩] :: below.levels p else below.levels p).flatten ↔
        (p a = true ∧ t = ⟨a, below⟩) ∨ t ∈ (below.levels p).flatten := by
      split <;> simp_all
    rw [hfirst, ihb]
    constructor
    · rintro ((⟨ha, rfl⟩ | ⟨ht, path, hl⟩) | ⟨ht, path, hl⟩)
      · exact ⟨ha, _, .here⟩
      · exact ⟨ht, _, hl.down⟩
      · exact ⟨ht, _, hl.along⟩
    · rintro ⟨ht, path, hl⟩
      cases hl with
      | here => exact .inl (.inl ⟨ht, rfl⟩)
      | down hl => exact .inl (.inr ⟨ht, _, hl⟩)
      | along hl => exact .inr ⟨ht, _, hl⟩

theorem perm_append_swap {γ : Type} (as bs cs ds : List γ) :
    ((as ++ bs) ++ (cs ++ ds)).Perm ((as ++ cs) ++ (bs ++ ds)) := by
  rw [List.append_assoc, List.append_assoc, ← List.append_assoc bs, ← List.append_assoc cs]
  exact (List.perm_append_comm.append_right ds).append_left as

theorem perm_levels (f : Forest α) :
    (f.shallow p ++ (f.levels p).flatten.flatMap fun t => t.below.shallow p).Perm f.toList := by
  induction f with
  | nil => exact .nil
  | cons a below rest ihb ihr =>
    -- what the first tree and the rest of the row contribute
    have hsplit : (((cons a below rest).levels p).flatten.flatMap fun t => t.below.shallow p).Perm
        (((if p a then below.shallow p else []) ++
          (below.levels p).flatten.flatMap fun t => t.below.shallow p) ++
            (rest.levels p).flatten.flatMap fun t => t.below.shallow p) := by
      refine ((perm_flatten_joinLevels _ _).flatMap_right _).trans ?_
      rw [List.flatMap_append]
      split <;> simp
    have hfirst : ((if p a then [] else below.shallow p) ++ ((if p a then below.shallow p else []) ++
        (below.levels p).flatten.flatMap fun t => t.below.shallow p)).Perm below.toList := by
      split <;> simpa using ihb
    rw [shallow, toList, List.cons_append]
    refine List.Perm.cons a ((hsplit.append_left _).trans ?_)
    exact (perm_append_swap _ _ _ _).trans (hfirst.append ihr)

theorem perm_label_levels (f : Forest α) :
    ((f.levels p).flatten.map Tree.label).Perm (f.toList.filter p) := by
  induction f with
  | nil => exact .nil
  | cons a below rest ihb ihr =>
    have hfirst : ((if p a then [⟨a, below⟩] :: below.levels p else below.levels p).flatten.map
        Tree.label).Perm ((a :: below.toList).filter p) := by
      split
      · rename_i ha
        rw [List.flatten_cons, List.singleton_append, List.map_cons, List.filter_cons_of_pos ha]
        exact .cons a ihb
      · rename_i ha
        rwa [List.filter_cons_of_neg ha]
    rw [levels, toList, ← List.cons_append, List.filter_append]
    refine ((perm_flatten_joinLevels _ _).map Tree.label).trans ?_
    rw [List.map_append]
    exact hfirst.append ihr

-- ---------------------------------------------------------------------------
-- Outer trees first
-- ---------------------------------------------------------------------------

/-- Every tree of the list is known when its turn comes. After a tree, the first cut trees below it
are known too. -/
def Ordered (p : α → Bool) (known : List (Tree α)) : List (Tree α) → Prop
  | [] => True
  | t :: rest => t ∈ known ∧ Ordered p (known ++ t.below.firsts p) rest

def Layered (p : α → Bool) (known : List (Tree α)) : List (List (Tree α)) → Prop
  | [] => True
  | level :: rest => level ⊆ known ∧ Layered p (level.flatMap fun t => t.below.firsts p) rest

theorem Layered.mono {known more : List (Tree α)} {levels : List (List (Tree α))}
    (h : Layered p known levels) (hs : known ⊆ more) : Layered p more levels := by
  cases levels with
  | nil => trivial
  | cons level rest => exact ⟨fun t ht => hs (h.1 ht), h.2⟩

theorem Layered.join {known known' : List (Tree α)} {xs ys : List (List (Tree α))}
    (hx : Layered p known xs) (hy : Layered p known' ys) :
    Layered p (known ++ known') (joinLevels xs ys) := by
  fun_induction joinLevels xs ys generalizing known known' with
  | case1 ys => exact hy.mono (List.subset_append_right _ _)
  | case2 xs h => exact hx.mono (List.subset_append_left _ _)
  | case3 x xs y ys ih =>
    refine ⟨List.append_subset.mpr ⟨?_, ?_⟩, ?_⟩
    · exact fun t ht => List.mem_append_left _ (hx.1 ht)
    · exact fun t ht => List.mem_append_right _ (hy.1 ht)
    · rw [List.flatMap_append]
      exact ih hx.2 hy.2

theorem layered_levels (f : Forest α) : Layered p (f.firsts p) (f.levels p) := by
  induction f with
  | nil => trivial
  | cons a below rest ihb ihr =>
    refine Layered.join ?_ ihr
    split
    · exact ⟨fun t ht => ht, by simpa using ihb⟩
    · exact ihb

theorem Ordered.append {known first last : List (Tree α)} (hf : first ⊆ known)
    (hl : Ordered p (known ++ first.flatMap fun t => t.below.firsts p) last) :
    Ordered p known (first ++ last) := by
  induction first generalizing known with
  | nil => simpa using hl
  | cons t first ih =>
    obtain ⟨ht, hf⟩ := List.cons_subset.mp hf
    refine ⟨ht, ih (fun u hu => List.mem_append_left _ (hf hu)) ?_⟩
    rw [List.append_assoc]
    exact hl

theorem Layered.ordered {known outer : List (Tree α)} {levels : List (List (Tree α))}
    (h : Layered p known levels) (hs : known ⊆ outer) : Ordered p outer levels.flatten := by
  induction levels generalizing known outer with
  | nil => trivial
  | cons level rest ih =>
    exact .append (fun t ht => hs (h.1 ht)) (ih h.2 (List.subset_append_right _ _))

end ChartPipeline.Forest
