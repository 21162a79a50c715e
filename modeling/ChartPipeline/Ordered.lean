/-!
# Insertion order

Lists of entries used as maps and as sets: a key keeps the place of its first insertion, whatever
is written to it later.
-/

namespace ChartPipeline

theorem nodup_concat {α : Type} {xs : List α} {x : α} (h : xs.Nodup) (hx : x ∉ xs) :
    (xs ++ [x]).Nodup := by
  refine List.nodup_append.mpr ⟨h, by simp, fun a ha b hb he => hx ?_⟩
  rwa [← List.mem_singleton.mp hb, ← he]

abbrev OrderedMap (κ β : Type) := List (κ × β)

namespace OrderedMap

variable {κ β : Type}

def keys (m : OrderedMap κ β) : List κ := m.map Prod.fst

@[simp] theorem keys_nil : keys ([] : OrderedMap κ β) = [] := rfl

@[simp] theorem keys_cons (entry : κ × β) (rest : OrderedMap κ β) :
    keys (entry :: rest) = entry.1 :: keys rest := rfl

variable [DecidableEq κ]

/-- Overwrites the value of a key in its place, or appends the entry. -/
def put (key : κ) (value : β) : OrderedMap κ β → OrderedMap κ β
  | [] => [(key, value)]
  | entry :: rest => if entry.1 = key then (key, value) :: rest else entry :: put key value rest

def find? (key : κ) : OrderedMap κ β → Option β
  | [] => none
  | entry :: rest => if entry.1 = key then some entry.2 else find? key rest

/-- Puts every entry of the second map into the first. -/
def union (m other : OrderedMap κ β) : OrderedMap κ β :=
  other.foldl (fun acc entry => acc.put entry.1 entry.2) m

@[simp] theorem find?_put_self (key : κ) (value : β) (m : OrderedMap κ β) :
    find? key (m.put key value) = some value := by
  induction m with
  | nil => simp [put, find?]
  | cons entry rest ih =>
    by_cases h : entry.1 = key
    · simp [put, find?, h]
    · simp [put, find?, h, ih]

theorem find?_put_of_ne {key other : κ} (h : other ≠ key) (value : β) (m : OrderedMap κ β) :
    find? other (m.put key value) = find? other m := by
  induction m with
  | nil => simp [put, find?, Ne.symm h]
  | cons entry rest ih =>
    by_cases he : entry.1 = key
    · subst he
      simp [put, find?, Ne.symm h]
    · simp [put, find?, he, ih]

theorem put_of_find?_eq_none {key : κ} {m : OrderedMap κ β} (h : find? key m = none) (value : β) :
    m.put key value = m ++ [(key, value)] := by
  induction m with
  | nil => rfl
  | cons entry rest ih =>
    rw [find?] at h
    split at h
    · cases h
    · rw [put, if_neg ‹_›, ih h]
      rfl

theorem mem_of_find? {key : κ} {value : β} {m : OrderedMap κ β} (h : find? key m = some value) :
    (key, value) ∈ m := by
  induction m with
  | nil => cases h
  | cons entry rest ih =>
    rw [find?] at h
    split at h
    · cases h
      exact List.mem_cons.mpr (.inl (Prod.ext (Eq.symm ‹_›) rfl))
    · exact List.mem_cons_of_mem _ (ih h)

theorem find?_of_mem {key : κ} {value : β} {m : OrderedMap κ β} (hm : m.keys.Nodup)
    (h : (key, value) ∈ m) : find? key m = some value := by
  induction m with
  | nil => cases h
  | cons entry rest ih =>
    obtain ⟨hentry, hrest⟩ := List.nodup_cons.mp hm
    rcases List.mem_cons.mp h with rfl | h
    · exact if_pos rfl
    · have hne : entry.1 ≠ key := fun he => hentry (he ▸ List.mem_map_of_mem h)
      rw [find?, if_neg hne, ih hrest h]

theorem notMem_of_find? {key : κ} {m : OrderedMap κ β} (h : find? key m = none) : key ∉ m.keys := by
  induction m with
  | nil => exact List.not_mem_nil
  | cons entry rest ih =>
    rw [find?] at h
    split at h
    · cases h
    · rename_i hne
      rw [keys_cons, List.mem_cons, not_or]
      exact ⟨Ne.symm hne, ih h⟩

theorem mem_put {key : κ} {value : β} {m : OrderedMap κ β} {entry : κ × β}
    (h : entry ∈ m.put key value) : entry = (key, value) ∨ entry ∈ m := by
  induction m with
  | nil => exact .inl (List.mem_singleton.mp h)
  | cons first rest ih =>
    rw [put] at h
    split at h
    · exact (List.mem_cons.mp h).imp_right (List.mem_cons_of_mem _)
    · rcases List.mem_cons.mp h with rfl | h
      · exact .inr List.mem_cons_self
      · exact (ih h).imp_right (List.mem_cons_of_mem _)

/-- A key is still found where entries are changed or left out, but keep their keys. -/
theorem find?_filterMap {γ : Type} {key : κ} {value : β} {result : γ} {m : OrderedMap κ β}
    {f : κ × β → Option (κ × γ)} (hf : ∀ x y, f x = some y → y.1 = x.1)
    (h : find? key m = some value) (hv : f (key, value) = some (key, result)) :
    find? key (m.filterMap f) = some result := by
  induction m with
  | nil => cases h
  | cons entry rest ih =>
    rw [find?] at h
    split at h
    · rename_i he
      cases h
      subst he
      rw [List.filterMap_cons_some hv, find?, if_pos rfl]
    · rename_i hne
      cases hentry : f entry with
      | none => rw [List.filterMap_cons_none hentry, ih h]
      | some other => rw [List.filterMap_cons_some hentry, find?, hf _ _ hentry, if_neg hne, ih h]

/-- A key that is there keeps its place, and a new one comes last. -/
theorem keys_put (key : κ) (value : β) (m : OrderedMap κ β) :
    (m.put key value).keys = if key ∈ m.keys then m.keys else m.keys ++ [key] := by
  induction m with
  | nil => simp [put]
  | cons entry rest ih =>
    by_cases h : entry.1 = key
    · simp [put, h]
    · by_cases hk : key ∈ keys rest
      · simp [put, h, ih, hk]
      · simp [put, h, ih, hk, Ne.symm h]

theorem nodup_keys_put (key : κ) (value : β) {m : OrderedMap κ β} (h : m.keys.Nodup) :
    (m.put key value).keys.Nodup := by
  rw [keys_put]
  split
  · exact h
  · exact nodup_concat h ‹_›

end OrderedMap

namespace OrderedSet

variable {α : Type} [DecidableEq α]

/-- Appends an element that is not there yet. -/
def add (xs : List α) (x : α) : List α := if x ∈ xs then xs else xs ++ [x]

@[simp] theorem mem_add {xs : List α} {x y : α} : y ∈ add xs x ↔ y ∈ xs ∨ y = x := by
  unfold add
  split
  · rename_i h
    exact ⟨Or.inl, fun hy => hy.elim id fun he => he ▸ h⟩
  · simp

theorem nodup_add {xs : List α} (h : xs.Nodup) (x : α) : (add xs x).Nodup := by
  unfold add
  split
  · exact h
  · exact nodup_concat h ‹_›

def union (xs ys : List α) : List α := ys.foldl add xs

@[simp] theorem mem_union {xs ys : List α} {x : α} : x ∈ union xs ys ↔ x ∈ xs ∨ x ∈ ys := by
  induction ys generalizing xs with
  | nil => simp [union]
  | cons y ys ih =>
    have h : union xs (y :: ys) = union (add xs y) ys := rfl
    rw [h, ih, mem_add, List.mem_cons, or_assoc]

theorem nodup_union {xs : List α} (h : xs.Nodup) (ys : List α) : (union xs ys).Nodup := by
  induction ys generalizing xs with
  | nil => exact h
  | cons y ys ih => exact ih (nodup_add h y)

def ofList (xs : List α) : List α := union [] xs

end OrderedSet

end ChartPipeline
