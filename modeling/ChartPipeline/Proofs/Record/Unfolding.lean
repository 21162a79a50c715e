import ChartPipeline.Record
import Mathlib.Data.List.Nodup

/-!
# Unfolding records

A record that reads from another one stands for everything that happened to the data before. To
unfold it is to follow the sources back to the record that has none, and to apply the transforms on
the way in order. Among records with names of their own there is only one way to do that.
-/

namespace ChartPipeline

structure Content where
  url : Option String
  values : Option (List Json)
  transforms : List Transform

def Content.then (c : Content) (ts : List Transform) : Content :=
  { c with transforms := c.transforms ++ ts }

@[simp] theorem Content.then_nil (c : Content) : c.then [] = c := by
  simp [Content.then]

@[simp] theorem Content.then_then (c : Content) (ts us : List Transform) :
    (c.then ts).then us = c.then (ts ++ us) := by
  simp [Content.then]

namespace Record

/-- What a record stands for, given the records that it may read from. -/
inductive Unfolds (records : List Record) : Record → Content → Prop
  | origin : r.source = none → Unfolds records r ⟨r.url, r.values, r.transform⟩
  | link : r.source = some s → p ∈ records → p.name = some s → Unfolds records p c →
      Unfolds records r (c.then r.transform)

def Offers (records : List Record) (name : String) (c : Content) : Prop :=
  ∃ p ∈ records, p.name = some name ∧ Unfolds records p c

variable {records more : List Record} {r p : Record} {c d : Content} {s : String}

theorem Unfolds.mono (h : Unfolds records r c) (hs : records ⊆ more) : Unfolds more r c := by
  induction h with
  | origin h => exact .origin h
  | link h hp hn _ ih => exact .link h (hs hp) hn ih

theorem Offers.mono (h : Offers records s c) (hs : records ⊆ more) : Offers more s c := by
  obtain ⟨p, hp, hn, hu⟩ := h
  exact ⟨p, hs hp, hn, hu.mono hs⟩

theorem Unfolds.named (h : Unfolds records r c) (n : Option String) :
    Unfolds records { r with name := n } c := by
  cases h with
  | origin h => exact .origin (r := { r with name := n }) h
  | link h hp hn hc => exact .link (r := { r with name := n }) h hp hn hc

theorem Unfolds.append (h : Unfolds records r c) (ts : List Transform) :
    Unfolds records { r with transform := r.transform ++ ts } (c.then ts) := by
  cases h with
  | origin h => exact .origin (r := { r with transform := r.transform ++ ts }) h
  | link h hp hn hc =>
    rw [Content.then_then]
    exact .link (r := { r with transform := r.transform ++ ts }) h hp hn hc

theorem isAlias_iff : r.isAlias = true ↔ ∃ s, r = ofSource s := by
  constructor
  · intro h
    cases r
    simp only [isAlias, Bool.and_eq_true, Option.isNone_iff_eq_none, List.isEmpty_iff,
      Option.isSome_iff_exists] at h
    obtain ⟨⟨⟨⟨⟨rfl, rfl⟩, s, rfl⟩, rfl⟩, rfl⟩, rfl⟩ := h
    exact ⟨s, rfl⟩
  · rintro ⟨s, rfl⟩
    rfl

theorem unfolds_ofSource : Unfolds records (ofSource s) c ↔ Offers records s c := by
  constructor
  · intro h
    cases h with
    | origin h => cases h
    | link h hp hn hc =>
      cases h
      rw [show (ofSource s).transform = [] from rfl, Content.then_nil]
      exact ⟨_, hp, hn, hc⟩
  · rintro ⟨p, hp, hn, hc⟩
    rw [← c.then_nil]
    exact .link (r := ofSource s) rfl hp hn hc

theorem filter_name_eq (hn : (records.filterMap name).Nodup) (hp : p ∈ records)
    (hs : p.name = some s) : records.filter (·.name == some s) = [p] := by
  induction records with
  | nil => cases hp
  | cons r records ih =>
    by_cases hr : r.name = some s
    · -- the first record has the name, so no later one has
      rw [List.filterMap_cons_some hr] at hn
      have hlater : ∀ x ∈ records, x.name ≠ some s := by
        intro x hx he
        exact (List.nodup_cons.mp hn).1 (List.mem_filterMap.mpr ⟨x, hx, he⟩)
      obtain rfl : p = r := (List.mem_cons.mp hp).resolve_right fun h => hlater p h hs
      rw [List.filter_cons_of_pos (by simp [hr]), List.filter_eq_nil_iff.mpr]
      intro q hq he
      exact hlater q hq (beq_iff_eq.mp he)
    · have hn : (records.filterMap name).Nodup := hn.sublist ((List.sublist_cons_self ..).filterMap _)
      rw [List.filter_cons_of_neg (by simpa using hr)]
      refine ih hn ((List.mem_cons.mp hp).resolve_left ?_)
      rintro rfl
      exact hr hs

theorem eq_of_name_eq (hn : (records.filterMap name).Nodup) {q : Record} (hp : p ∈ records)
    (hq : q ∈ records) (hps : p.name = some s) (hqs : q.name = some s) : p = q := by
  have hmem : q ∈ records.filter (·.name == some s) := List.mem_filter.mpr ⟨hq, by simp [hqs]⟩
  rw [filter_name_eq hn hp hps] at hmem
  exact (List.mem_singleton.mp hmem).symm

theorem Unfolds.unique (hn : (records.filterMap name).Nodup) (h : Unfolds records r c)
    (h' : Unfolds records r d) : c = d := by
  induction h generalizing d with
  | origin h =>
    cases h' with
    | origin => rfl
    | link h' => rw [h] at h'; cases h'
  | link h hp hs _ ih =>
    cases h' with
    | origin h' => rw [h] at h'; cases h'
    | link h' hp' hs' hd =>
      obtain rfl := Option.some.inj (h.symm.trans h')
      obtain rfl := eq_of_name_eq hn hp hp' hs hs'
      rw [ih hd]

/-- What is read under a name, where names are not repeated: one record, and what it stands for. -/
theorem Offers.exactly (h : Offers records s c) (hn : (records.filterMap name).Nodup) :
    ∃ r, records.filter (·.name == some s) = [r] ∧ ∀ d, Unfolds records r d ↔ d = c := by
  obtain ⟨p, hp, hs, hc⟩ := h
  exact ⟨p, filter_name_eq hn hp hs, fun d => ⟨fun hd => hd.unique hn hc, fun h => h ▸ hc⟩⟩

end Record

end ChartPipeline
