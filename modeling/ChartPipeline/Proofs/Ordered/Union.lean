import ChartPipeline.Ordered
import Mathlib.Data.List.Basic

/-!
# Unions in order

A union keeps what is there in its place and appends what is new in the order of the other side
(`OrderedSet.union_eq_append`). The keys of maps are united like sets (`OrderedMap.keys_union`), and
of two values of a key the last one counts (`OrderedMap.find?_union`). A map is known by its keys
and by what is found under them (`OrderedMap.ext`), so unions of maps follow the laws of sets.
-/

namespace ChartPipeline

namespace OrderedSet

variable {α : Type} [DecidableEq α] {xs ys : List α} {x y : α}

theorem add_of_mem (h : x ∈ xs) : add xs x = xs := if_pos h

theorem add_of_notMem (h : x ∉ xs) : add xs x = xs ++ [x] := if_neg h

theorem union_cons (xs ys : List α) (y : α) : union xs (y :: ys) = union (add xs y) ys := rfl

theorem union_add (xs ys : List α) (y : α) : union xs (add ys y) = add (union xs ys) y := by
  by_cases h : y ∈ ys
  · rw [add_of_mem h, add_of_mem (mem_union.mpr (.inr h))]
  · rw [add_of_notMem h, union, List.foldl_append]
    rfl

theorem union_assoc (xs ys zs : List α) : union (union xs ys) zs = union xs (union ys zs) := by
  induction zs generalizing ys with
  | nil => rfl
  | cons z zs ih => rw [union_cons, union_cons, ← union_add, ih]

theorem union_eq_self (h : ys ⊆ xs) : union xs ys = xs := by
  induction ys with
  | nil => rfl
  | cons y ys ih =>
    obtain ⟨hy, h⟩ := List.cons_subset.mp h
    rw [union_cons, add_of_mem hy, ih h]

theorem union_eq_append (h : ys.Nodup) : union xs ys = xs ++ ys.filter (· ∉ xs) := by
  induction ys generalizing xs with
  | nil => exact (List.append_nil xs).symm
  | cons y ys ih =>
    obtain ⟨hy, h⟩ := List.nodup_cons.mp h
    rw [union_cons, ih h]
    by_cases hmem : y ∈ xs
    · rw [add_of_mem hmem, List.filter_cons_of_neg (by simpa using hmem)]
    · have hrest : ys.filter (· ∉ xs ++ [y]) = ys.filter (· ∉ xs) := by
        refine List.filter_congr fun z hz => ?_
        have hne : z ≠ y := fun he => hy (he ▸ hz)
        simp [hne]
      rw [add_of_notMem hmem, hrest, List.filter_cons_of_pos (by simpa using hmem),
        List.append_assoc, List.singleton_append]

theorem add_eraseDups (xs : List α) (x : α) : add xs.eraseDups x = (xs ++ [x]).eraseDups := by
  rw [List.eraseDups_append]
  by_cases h : x ∈ xs <;> simp [add, h, List.removeAll, List.eraseDups_cons]

theorem union_eraseDups (xs ys : List α) : union xs.eraseDups ys = (xs ++ ys).eraseDups := by
  induction ys generalizing xs with
  | nil => rw [List.append_nil]; rfl
  | cons y ys ih => rw [union_cons, add_eraseDups, ih, List.append_assoc, List.singleton_append]

theorem ofList_eq_eraseDups (xs : List α) : ofList xs = xs.eraseDups := union_eraseDups [] xs

theorem mem_ofList : x ∈ ofList xs ↔ x ∈ xs := by
  rw [ofList_eq_eraseDups, List.mem_eraseDups]

variable {β : Type} [DecidableEq β] {f : α → β}

theorem add_map (hf : Function.Injective f) (xs : List α) (x : α) :
    add (xs.map f) (f x) = (add xs x).map f := by
  simp only [add, List.mem_map_of_injective hf]
  split
  · rfl
  · rw [List.map_append, List.map_singleton]

theorem union_map (hf : Function.Injective f) (xs ys : List α) :
    union (xs.map f) (ys.map f) = (union xs ys).map f := by
  induction ys generalizing xs with
  | nil => rfl
  | cons y ys ih => rw [List.map_cons, union_cons, union_cons, add_map hf, ih]

end OrderedSet

namespace OrderedMap

variable {κ β : Type} [DecidableEq κ] {key : κ}

/-- The value of a key in entries that may repeat it. -/
def last? (key : κ) : List (κ × β) → Option β
  | [] => none
  | (other, value) :: rest => (last? key rest).or (if other = key then some value else none)

theorem last?_append (first second : List (κ × β)) :
    last? key (first ++ second) = (last? key second).or (last? key first) := by
  induction first with
  | nil => simp [last?]
  | cons entry first ih => rw [List.cons_append, last?, last?, ih, Option.or_assoc]

theorem find?_put (other : κ) (value : β) (m : OrderedMap κ β) :
    find? key (m.put other value) = if other = key then some value else find? key m := by
  split
  · rename_i h
    subst h
    exact find?_put_self ..
  · exact find?_put_of_ne (Ne.symm ‹_›) ..

theorem find?_union (m other : OrderedMap κ β) :
    find? key (m.union other) = (last? key other).or (find? key m) := by
  induction other generalizing m with
  | nil => rfl
  | cons entry other ih =>
    have hunion : m.union (entry :: other) = (m.put entry.1 entry.2).union other := rfl
    rw [hunion, ih, find?_put, last?, Option.or_assoc]
    split <;> rfl

theorem keys_put_eq_add (key : κ) (value : β) (m : OrderedMap κ β) :
    (m.put key value).keys = OrderedSet.add m.keys key := keys_put key value m

theorem keys_union (m other : OrderedMap κ β) :
    (m.union other).keys = OrderedSet.union m.keys other.keys := by
  induction other generalizing m with
  | nil => rfl
  | cons entry other ih =>
    have hunion : m.union (entry :: other) = (m.put entry.1 entry.2).union other := rfl
    rw [hunion, ih, keys_put_eq_add, keys_cons, OrderedSet.union_cons]

theorem nodup_keys_union {m : OrderedMap κ β} (h : m.keys.Nodup) (other : OrderedMap κ β) :
    (m.union other).keys.Nodup := by
  rw [keys_union]
  exact OrderedSet.nodup_union h _

theorem mem_keys_put {other : κ} {value : β} {m : OrderedMap κ β} :
    key ∈ (m.put other value).keys ↔ key ∈ m.keys ∨ key = other := by
  rw [keys_put_eq_add, OrderedSet.mem_add]

theorem mem_keys_union {m other : OrderedMap κ β} :
    key ∈ (m.union other).keys ↔ key ∈ m.keys ∨ key ∈ other.keys := by
  rw [keys_union, OrderedSet.mem_union]

theorem mem_union {m other : OrderedMap κ β} {entry : κ × β} (h : entry ∈ m.union other) :
    entry ∈ m ∨ entry ∈ other := by
  induction other generalizing m with
  | nil => exact .inl h
  | cons first other ih =>
    rcases ih h with h | h
    · rcases mem_put h with rfl | h
      · exact .inr List.mem_cons_self
      · exact .inl h
    · exact .inr (List.mem_cons_of_mem _ h)

theorem find?_eq_none_of_notMem {m : OrderedMap κ β} (h : key ∉ m.keys) : find? key m = none := by
  induction m with
  | nil => rfl
  | cons entry m ih =>
    obtain ⟨hentry, hm⟩ := not_or.mp (mt List.mem_cons.mpr h)
    rw [find?, if_neg (Ne.symm hentry), ih hm]

theorem last?_eq_find? {m : OrderedMap κ β} (h : m.keys.Nodup) : last? key m = find? key m := by
  induction m with
  | nil => rfl
  | cons entry m ih =>
    obtain ⟨hentry, hm⟩ := List.nodup_cons.mp h
    rw [last?, find?, ih hm]
    split
    · rename_i he
      rw [← he, find?_eq_none_of_notMem hentry, Option.none_or]
    · rw [Option.or_none]

/-- Maps are the same if they have the same keys in the same order, and the same under each key. -/
theorem ext {m other : OrderedMap κ β} (hm : m.keys.Nodup) (hkeys : m.keys = other.keys)
    (h : ∀ key, find? key m = find? key other) : m = other := by
  induction m generalizing other with
  | nil => exact (List.map_eq_nil_iff.mp hkeys.symm).symm
  | cons entry m ih =>
    obtain ⟨⟨key, value⟩, other, rfl⟩ : ∃ first rest, other = first :: rest :=
      List.exists_cons_of_ne_nil (by rintro rfl; cases hkeys)
    rw [keys_cons, keys_cons, List.cons.injEq] at hkeys
    obtain ⟨rfl, hkeys⟩ := hkeys
    obtain ⟨hentry, hm⟩ := List.nodup_cons.mp hm
    have hvalue : some entry.2 = some value := by simpa [find?] using h entry.1
    obtain rfl := Option.some.inj hvalue
    refine congrArg (entry :: ·) (ih hm hkeys fun key => ?_)
    by_cases he : entry.1 = key
    · subst he
      rw [find?_eq_none_of_notMem hentry, find?_eq_none_of_notMem (hkeys ▸ hentry)]
    · simpa [find?, he] using h key

theorem union_nil (m : OrderedMap κ β) : m.union [] = m := rfl

theorem union_self {m : OrderedMap κ β} (hm : m.keys.Nodup) : m.union m = m := by
  refine ext (nodup_keys_union hm m) ?_ fun key => ?_
  · rw [keys_union, OrderedSet.union_eq_self fun _ h => h]
  · rw [find?_union, last?_eq_find? hm, Option.or_self]

theorem nil_union {m : OrderedMap κ β} (hm : m.keys.Nodup) :
    union ([] : OrderedMap κ β) m = m := by
  refine ext (nodup_keys_union (m := []) List.nodup_nil m) ?_ fun key => ?_
  · rw [keys_union, OrderedSet.union_eq_append hm]
    simp
  · rw [find?_union, last?_eq_find? hm]
    exact Option.or_none

theorem union_assoc {a b c : OrderedMap κ β} (ha : a.keys.Nodup) (hb : b.keys.Nodup) :
    (a.union b).union c = a.union (b.union c) := by
  refine ext (nodup_keys_union (nodup_keys_union ha b) c) ?_ fun key => ?_
  · simp only [keys_union, OrderedSet.union_assoc]
  · rw [find?_union, find?_union, find?_union, last?_eq_find? (nodup_keys_union hb c),
      find?_union, last?_eq_find? hb, Option.or_assoc]

end OrderedMap

end ChartPipeline
