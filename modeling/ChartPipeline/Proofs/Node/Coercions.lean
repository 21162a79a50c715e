import ChartPipeline.Assembly
import ChartPipeline.Proofs.Ordered.Union

/-!
# Which coercion counts

Of several requests for a field the last one counts, whether they are made by one model
(`find?_ofModel`) or merged from several ones (`find?_foldl_merge`). What data declares itself comes
last in the model that declares it (`find?_ofModel_declared`).
-/

namespace ChartPipeline

namespace Coercions

open OrderedMap (last? find?)

variable {field kind : String} {m : Model} {d : Data} {c : Coercions} {cs : List Coercions}

theorem nodup_keys_ofModel (m : Model) : (ofModel m).keys.Nodup :=
  OrderedMap.nodup_keys_union (m := []) List.nodup_nil _

theorem find?_ofModel_declared (hd : m.data = some d) (h : last? field d.parse = some kind) :
    find? field (ofModel m) = some kind := by
  have hparse : (m.data.map Data.parse).getD [] = d.parse := by rw [hd]; rfl
  rw [ofModel, OrderedMap.find?_union, requests, OrderedMap.last?_append, hparse, h]
  rfl

/-- The kind that the last of some coercions asks for that asks for any. -/
def lastAsked (field : String) (cs : List Coercions) : Option String :=
  (cs.filterMap (find? field)).getLast?

theorem lastAsked_cons (c : Coercions) (cs : List Coercions) :
    lastAsked field (c :: cs) = (lastAsked field cs).or (find? field c) := by
  unfold lastAsked
  cases h : find? field c with
  | none => rw [List.filterMap_cons_none h, Option.or_none]
  | some kind =>
    rw [List.filterMap_cons_some h, List.getLast?_cons]
    cases (cs.filterMap (find? field)).getLast? <;> rfl

theorem lastAsked_eq_some (hcs : cs ≠ []) (h : ∀ c ∈ cs, find? field c = some kind) :
    lastAsked field cs = some kind := by
  induction cs with
  | nil => exact absurd rfl hcs
  | cons c cs ih =>
    obtain ⟨hc, h⟩ := List.forall_mem_cons.mp h
    rw [lastAsked_cons, hc]
    cases cs with
    | nil => rfl
    | cons next cs => rw [ih (by simp) h, Option.some_or]

theorem find?_foldl_merge (h : ∀ c ∈ cs, c.keys.Nodup) :
    find? field (cs.foldl merge c) = (lastAsked field cs).or (find? field c) := by
  induction cs generalizing c with
  | nil => rfl
  | cons next cs ih =>
    obtain ⟨hnext, h⟩ := List.forall_mem_cons.mp h
    rw [List.foldl_cons, ih h, lastAsked_cons, Option.or_assoc, merge, OrderedMap.find?_union,
      OrderedMap.last?_eq_find? hnext]

theorem nodup_keys_foldl_merge (hc : c.keys.Nodup) (cs : List Coercions) :
    (cs.foldl merge c).keys.Nodup := by
  induction cs generalizing c with
  | nil => exact hc
  | cons next cs ih => exact ih (OrderedMap.nodup_keys_union hc next)

/-- What is below a source in the end: the coercions of the models that declare its data, where the
first ones have taken in those of the models that inherit it. -/
def besides (inherited : List Coercions) : List Coercions → List Coercions
  | [] => []
  | first :: rest => inherited.foldl merge first :: rest

theorem besides_declared {inherited own : List Coercions} (h : own = [] → inherited = [])
    (c : Coercions) : besides inherited (own ++ [c]) = besides inherited own ++ [c] := by
  cases own with
  | nil => rw [h rfl]; rfl
  | cons first rest => rfl

theorem besides_inherited {inherited own : List Coercions} {c₀ : Coercions}
    (h : besides inherited own = c₀ :: cs) (c : Coercions) :
    besides (inherited ++ [c]) own = c₀.merge c :: cs := by
  cases own with
  | nil => cases h
  | cons first rest =>
    obtain ⟨rfl, rfl⟩ := List.cons.inj h
    rw [besides, List.foldl_append]
    rfl

theorem mem_keys_foldl_merge :
    field ∈ (cs.foldl merge c).keys ↔ ∃ asked ∈ c :: cs, field ∈ asked.keys := by
  induction cs generalizing c with
  | nil => simp
  | cons next cs ih => simp [ih, merge, OrderedMap.mem_keys_union, or_assoc]

theorem mem_foldl_merge {entry : String × String} (h : entry ∈ cs.foldl merge c) :
    ∃ asked ∈ c :: cs, entry ∈ asked := by
  induction cs generalizing c with
  | nil => exact ⟨c, List.mem_cons_self, h⟩
  | cons next cs ih =>
    obtain ⟨asked, hasked, h⟩ := ih h
    rcases List.mem_cons.mp hasked with rfl | hasked
    · rcases OrderedMap.mem_union h with h | h
      · exact ⟨c, List.mem_cons_self, h⟩
      · exact ⟨next, by simp, h⟩
    · exact ⟨asked, by simp [hasked], h⟩

theorem nodup_keys_mergeAll (cs : List Coercions) : (mergeAll cs).keys.Nodup :=
  nodup_keys_foldl_merge (c := []) List.nodup_nil cs

theorem mem_keys_mergeAll_besides {inherited own : List Coercions}
    (hown : own = [] → inherited = []) :
    field ∈ (mergeAll (besides inherited own)).keys ↔ ∃ c ∈ inherited ++ own, field ∈ c.keys := by
  rw [mergeAll, mem_keys_foldl_merge]
  cases own with
  | nil => simp [hown rfl, besides]
  | cons first rest =>
    simp [besides, mem_keys_foldl_merge, or_and_right, exists_or, or_assoc, or_left_comm]

theorem mem_mergeAll_besides {inherited own : List Coercions} {entry : String × String}
    (h : entry ∈ mergeAll (besides inherited own)) : ∃ c ∈ inherited ++ own, entry ∈ c := by
  obtain ⟨c, hc, hentry⟩ := mem_foldl_merge h
  rcases List.mem_cons.mp hc with rfl | hc
  · cases hentry
  cases own with
  | nil => cases hc
  | cons first rest =>
    rcases List.mem_cons.mp hc with rfl | hc
    · obtain ⟨c, hc, hentry⟩ := mem_foldl_merge hentry
      refine ⟨c, ?_, hentry⟩
      rcases List.mem_cons.mp hc with rfl | hc
      · simp
      · exact List.mem_append_left _ hc
    · exact ⟨c, by simp [hc], hentry⟩

/-- A kind that all models ask for that declare the data is kept, unless there is only one such model
and the last one that inherits the data and asks for any kind asks for another one. -/
theorem find?_mergeAll_besides {inherited own : List Coercions} (hown : own ≠ [])
    (hkeys : ∀ c ∈ own ++ inherited, c.keys.Nodup) (h : ∀ c ∈ own, find? field c = some kind) :
    find? field (mergeAll (besides inherited own)) = some kind ↔
      2 ≤ own.length ∨ (lastAsked field inherited).getD kind = kind := by
  obtain ⟨first, rest, rfl⟩ := List.exists_cons_of_ne_nil hown
  obtain ⟨hown, hinherited⟩ := List.forall_mem_append.mp hkeys
  obtain ⟨hfirst, hrest⟩ := List.forall_mem_cons.mp hown
  obtain ⟨hkind, h⟩ := List.forall_mem_cons.mp h
  have hmerged : find? field (mergeAll (besides inherited (first :: rest))) =
      (lastAsked field rest).or ((lastAsked field inherited).or (some kind)) := by
    rw [besides, mergeAll, find?_foldl_merge, lastAsked_cons, find?_foldl_merge hinherited, hkind]
    · simp [find?]
    · exact List.forall_mem_cons.mpr ⟨nodup_keys_foldl_merge hfirst _, hrest⟩
  rw [hmerged]
  cases rest with
  | nil =>
    rw [show lastAsked field [] = none from rfl, Option.none_or]
    cases lastAsked field inherited <;> simp
  | cons second rest =>
    rw [lastAsked_eq_some (by simp) h, Option.some_or]
    simp

end Coercions

end ChartPipeline
