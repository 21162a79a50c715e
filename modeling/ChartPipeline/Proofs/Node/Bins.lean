import ChartPipeline.Node.Rows
import ChartPipeline.Proofs.Model.Derivation
import ChartPipeline.Proofs.Node.Coercions

/-!
# What a binning holds

The first definition that bins a field decides about its bin. A later one counts only where it has
the same parameters, and then only for the labels of the ranges (`Binning.find?_entries`).
-/

namespace ChartPipeline

variable {m : Model} {c : Channel} {d : FieldDef} {field numberFormat : String}
  {first : Channel × FieldDef}

def FieldDef.binOn? (d : FieldDef) (c : Channel) : Option BinParams :=
  d.bin.map fun params => { params with maxbins := some (params.maxbins.getD c.defaultMaxBins) }

namespace Model

def binner? (m : Model) (field : String) : Option (Channel × FieldDef) :=
  m.fieldDefs.find? fun entry => entry.2.isBinned && entry.2.field == some field

def Agree (field : String) (entry other : Channel × FieldDef) : Prop :=
  entry.2.field = some field ∧ other.2.field = some field ∧
    ∃ p q, entry.2.binOn? entry.1 = some p ∧ other.2.binOn? other.1 = some q ∧ p.same q = true

/-- A channel with a discrete scale bins the field as it is binned first. -/
def LabelsBin (m : Model) (field : String) : Prop :=
  ∃ first, m.binner? field = some first ∧ ∃ entry ∈ m.fieldDefs,
    m.isDiscrete entry.1 = true ∧ (entry = first ∨ Agree field first entry)

theorem of_binner? (h : m.binner? field = some first) :
    first ∈ m.fieldDefs ∧ first.2.isBinned = true ∧ first.2.field = some field := by
  have hfirst := List.find?_some h
  simp only [Bool.and_eq_true, beq_iff_eq] at hfirst
  exact ⟨List.mem_of_find?_eq_some h, hfirst⟩

theorem exists_binner? (hd : (c, d) ∈ m.fieldDefs) (hb : d.isBinned = true)
    (hf : d.field = some field) : ∃ first, m.binner? field = some first := by
  refine Option.isSome_iff_exists.mp (List.find?_isSome.mpr ⟨_, hd, ?_⟩)
  simp [hb, hf]

theorem derivedName_binner (h : m.binner? field = some first) (hc : first.2.isCount = false)
    (suffix : BinSuffix) :
    first.2.derivedName (some suffix) = (Derivation.bin suffix).name field := by
  obtain ⟨-, hbinned, hfield⟩ := of_binner? h
  exact FieldDef.derivedName_of_isBinned hc hbinned hfield suffix

theorem field_of_derivedName {other : String} {suffix suffix' : BinSuffix}
    (h : m.binner? other = some first)
    (hn : first.2.derivedName (some suffix) = (Derivation.bin suffix').name field) :
    other = field := by
  obtain ⟨-, hbinned, hfield⟩ := of_binner? h
  have hderived : (first.2.derivation? (some suffix)).isSome := by
    rw [FieldDef.derivation?, hbinned]
    split <;> rfl
  have hraw := FieldDef.derivation?_eq_bin.mp (FieldDef.derivation?_of_derivedName hderived hn)
  rw [← hraw.2.2.2, FieldDef.rawField, hfield, Option.getD_some]

end Model

namespace Binning

open Model (Agree)

variable {entries : OrderedMap String BinEntry} {e : BinEntry} {es : List BinEntry}

-- ---------------------------------------------------------------------------
-- Requests
-- ---------------------------------------------------------------------------

structure Tells (entry : Channel × FieldDef) (e : BinEntry) : Prop where
  field : entry.2.field = some e.field
  params : entry.2.binOn? entry.1 = some e.params
  start : e.start = entry.2.derivedName (some .start)
  «end» : e.end = entry.2.derivedName (some .end)
  range : e.range = entry.2.derivedName (some .range)

theorem of_request? (h : request? m c d = some e) :
    Tells (c, d) e ∧ e.labelled = m.isDiscrete c := by
  simp only [request?, bind, Option.bind_eq_some_iff] at h
  obtain ⟨p, hp, f, hf, h⟩ := h
  cases h
  exact ⟨⟨hf, by simp [FieldDef.binOn?, hp], rfl, rfl, rfl⟩, rfl⟩

theorem exists_request? (hb : d.isBinned = true) (hf : d.field = some field) :
    ∃ e, request? m c d = some e := by
  obtain ⟨params, hparams⟩ := Option.isSome_iff_exists.mp hb
  exact ⟨_, by rw [request?, hparams, hf]; rfl⟩

theorem any_request? (m : Model) (c : Channel) (d : FieldDef) (field : String) :
    (request? m c d).any (·.field == field) = (d.isBinned && d.field == some field) := by
  unfold request? FieldDef.isBinned
  cases d.bin with
  | none => rfl
  | some p =>
    cases d.field with
    | none => rfl
    | some f => rfl

theorem map_snd_requests (m : Model) : (requests m).map Prod.snd =
    m.fieldDefs.filterMap fun entry => request? m entry.1 entry.2 := by
  rw [requests, List.map_filterMap]
  refine congrArg (List.filterMap · _) (funext fun entry => ?_)
  rw [Option.map_map]
  exact Option.map_id'

theorem find?_requests (m : Model) (field : String) :
    ((requests m).map Prod.snd).find? (·.field == field) =
      (m.binner? field).bind fun first => request? m first.1 first.2 := by
  rw [map_snd_requests, List.find?_filterMap, Model.binner?]
  simp only [any_request?]

-- ---------------------------------------------------------------------------
-- Entries
-- ---------------------------------------------------------------------------

def supports (field : String) (first e : BinEntry) : Bool :=
  e.field == field && first.params.same e.params && e.labelled

theorem find?_add (field : String) (entries : OrderedMap String BinEntry) (e : BinEntry) :
    OrderedMap.find? field (add entries e) =
      ((OrderedMap.find? field entries).map fun first =>
        { first with labelled := first.labelled || supports field first e }).or
      (if e.field = field then some e else none) := by
  unfold add
  by_cases he : e.field = field
  · subst he
    cases hfirst : OrderedMap.find? e.field entries with
    | none => simp
    | some first =>
      dsimp only
      split
      · rename_i hsame
        simp [supports, hsame]
      · rename_i hsame
        simp [supports, hsame, hfirst]
  · have hother : OrderedMap.find? field (add entries e) = OrderedMap.find? field entries := by
      unfold add
      split
      · rw [OrderedMap.find?_put, if_neg he]
      · split
        · rw [OrderedMap.find?_put, if_neg he]
        · rfl
    unfold add at hother
    have hnone : ∀ first, supports field first e = false := by simp [supports, he]
    simp [hother, hnone, he]

/-- An entry stays, and may come to need labels. -/
theorem find?_foldl_add_of_some {first : BinEntry}
    (h : OrderedMap.find? field entries = some first) :
    OrderedMap.find? field (es.foldl add entries) =
      some { first with labelled := first.labelled || es.any (supports field first) } := by
  induction es generalizing entries first with
  | nil => simp [h]
  | cons e es ih =>
    have hadd := find?_add field entries e
    rw [h, Option.map_some, Option.some_or] at hadd
    rw [List.foldl_cons, ih hadd, List.any_cons, ← Bool.or_assoc]
    rfl

theorem find?_foldl_add (h : OrderedMap.find? field entries = none) :
    OrderedMap.find? field (es.foldl add entries) =
      (es.find? (·.field == field)).map fun first =>
        { first with labelled := first.labelled || es.any (supports field first) } := by
  induction es generalizing entries with
  | nil => exact h
  | cons e es ih =>
    have hadd := find?_add field entries e
    rw [h, Option.map_none, Option.none_or] at hadd
    rw [List.foldl_cons]
    by_cases he : e.field = field
    · rw [if_pos he] at hadd
      rw [find?_foldl_add_of_some hadd, List.find?_cons_of_pos (by simpa using he), Option.map_some,
        List.any_cons, supports]
      cases e.labelled <;> simp
    · rw [if_neg he] at hadd
      rw [ih hadd, List.find?_cons_of_neg (by simpa using he)]
      have hnone : ∀ first, supports field first e = false := by simp [supports, he]
      simp [hnone]

theorem nodup_keys_foldl_add (h : entries.keys.Nodup) (es : List BinEntry) :
    (es.foldl add entries).keys.Nodup := by
  induction es generalizing entries with
  | nil => exact h
  | cons e es ih =>
    refine ih ?_
    unfold add
    split
    · exact OrderedMap.nodup_keys_put _ _ h
    · split
      · exact OrderedMap.nodup_keys_put _ _ h
      · exact h

theorem nodup_keys_ofModel (m : Model) (numberFormat : String) :
    (ofModel m numberFormat).entries.keys.Nodup :=
  @nodup_keys_foldl_add [] List.nodup_nil _

theorem any_supports (h : Tells first e) (hf : e.field = field) :
    ((requests m).map Prod.snd).any (supports field e) = true ↔
      ∃ entry ∈ m.fieldDefs, m.isDiscrete entry.1 = true ∧ Agree field first entry := by
  rw [map_snd_requests, List.any_eq_true]
  constructor
  · rintro ⟨later, hlater, hsupports⟩
    obtain ⟨entry, hentry, hrequest⟩ := List.mem_filterMap.mp hlater
    obtain ⟨htells, hlabelled⟩ := of_request? hrequest
    simp only [supports, Bool.and_eq_true, beq_iff_eq] at hsupports
    obtain ⟨⟨hfield, hsame⟩, hlabels⟩ := hsupports
    refine ⟨entry, hentry, hlabelled ▸ hlabels, ?_, ?_, _, _, h.params, htells.params, hsame⟩
    · rw [h.field, hf]
    · rw [htells.field, hfield]
  · rintro ⟨entry, hentry, hdiscrete, -, hfield, p, q, hp, hq, hsame⟩
    have hbinned : entry.2.isBinned = true := by
      cases hbin : entry.2.bin with
      | none => simp [FieldDef.binOn?, hbin] at hq
      | some params => simp [FieldDef.isBinned, hbin]
    obtain ⟨later, hrequest⟩ := exists_request? (m := m) (c := entry.1) hbinned hfield
    obtain ⟨htells, hlabelled⟩ := of_request? hrequest
    refine ⟨later, List.mem_filterMap.mpr ⟨entry, hentry, hrequest⟩, ?_⟩
    obtain rfl := Option.some.inj (h.params.symm.trans hp)
    obtain rfl := Option.some.inj (htells.params.symm.trans hq)
    simp [supports, Option.some.inj (htells.field.symm.trans hfield), hsame, hlabelled, hdiscrete]

/-- The first definition that bins a field says how, and whether labels are needed depends on all
that agree with it. -/
theorem find?_entries (numberFormat : String) (h : m.binner? field = some first) :
    ∃ e, OrderedMap.find? field (ofModel m numberFormat).entries = some e ∧ e.field = field ∧
      Tells first e ∧ (e.labelled = true ↔ m.LabelsBin field) := by
  obtain ⟨hmem, hbinned, hfield⟩ := Model.of_binner? h
  obtain ⟨e, hrequest⟩ := exists_request? (m := m) (c := first.1) hbinned hfield
  obtain ⟨htells, hlabelled⟩ := of_request? hrequest
  have he : e.field = field := Option.some.inj (htells.field.symm.trans hfield)
  have hentry : OrderedMap.find? field (ofModel m numberFormat).entries = some { e with
      labelled := e.labelled || ((requests m).map Prod.snd).any (supports field e) } := by
    rw [ofModel, find?_foldl_add rfl, find?_requests, h, Option.bind_some, hrequest,
      Option.map_some]
  refine ⟨_, hentry, he, ⟨htells.field, htells.params, htells.start, htells.end, htells.range⟩, ?_⟩
  rw [Bool.or_eq_true, any_supports htells he, hlabelled]
  constructor
  · rintro (hdiscrete | ⟨entry, hentry, hdiscrete, hagree⟩)
    · exact ⟨first, h, first, hmem, hdiscrete, .inl rfl⟩
    · exact ⟨first, h, entry, hentry, hdiscrete, .inr hagree⟩
  · rintro ⟨other, hother, entry, hentry, hdiscrete, hagree⟩
    obtain rfl := Option.some.inj (h.symm.trans hother)
    rcases hagree with rfl | hagree
    · exact .inl hdiscrete
    · exact .inr ⟨entry, hentry, hdiscrete, hagree⟩

theorem exists_binner_of_find? {e : BinEntry}
    (h : OrderedMap.find? field (ofModel m numberFormat).entries = some e) :
    ∃ first, m.binner? field = some first ∧ Tells first e ∧
      (e.labelled = true ↔ m.LabelsBin field) := by
  cases hbinner : m.binner? field with
  | none =>
    rw [ofModel, find?_foldl_add rfl, find?_requests, hbinner] at h
    cases h
  | some first =>
    obtain ⟨e', he', -, htells, hlabelled⟩ := find?_entries numberFormat hbinner
    obtain rfl := Option.some.inj (h.symm.trans he')
    exact ⟨first, rfl, htells, hlabelled⟩

-- ---------------------------------------------------------------------------
-- Transforms
-- ---------------------------------------------------------------------------

theorem mem_transforms {t : Transform} : t ∈ (ofModel m numberFormat).transforms ↔
    ∃ field e, OrderedMap.find? field (ofModel m numberFormat).entries = some e ∧
      t ∈ entryTransforms numberFormat e := by
  rw [transforms, List.mem_flatMap]
  constructor
  · rintro ⟨⟨field, e⟩, he, ht⟩
    exact ⟨field, e, OrderedMap.find?_of_mem (nodup_keys_ofModel m numberFormat) he, ht⟩
  · rintro ⟨field, e, he, ht⟩
    exact ⟨_, OrderedMap.mem_of_find? he, ht⟩

theorem exists_bin_mem_entryTransforms (numberFormat : String) (e : BinEntry) :
    ∃ b : BinTransform, .bin b ∈ entryTransforms numberFormat e ∧ b.field = e.field ∧
      b.start = e.start ∧ b.end = e.end := by
  unfold entryTransforms
  cases e.params.extent with
  | none => exact ⟨_, List.mem_append_left _ (by simp; rfl), rfl, rfl, rfl⟩
  | some pair => exact ⟨_, List.mem_append_left _ (by simp; rfl), rfl, rfl, rfl⟩

theorem of_bin_mem_entryTransforms {b : BinTransform} (h : .bin b ∈ entryTransforms numberFormat e) :
    b.field = e.field ∧ b.start = e.start ∧ b.end = e.end := by
  unfold entryTransforms at h
  cases he : e.params.extent <;> cases hl : e.labelled <;> simp [he, hl] at h <;> subst h <;>
    exact ⟨rfl, rfl, rfl⟩

theorem formula_mem_entryTransforms {expr target : String} :
    .formula expr target ∈ entryTransforms numberFormat e ↔
      e.labelled = true ∧ expr = label numberFormat e.start e.end ∧ target = e.range := by
  unfold entryTransforms
  cases e.params.extent <;> cases e.labelled <;> simp

theorem exists_bin (numberFormat : String) (h : m.binner? field = some first)
    (hc : first.2.isCount = false) :
    ∃ b : BinTransform, .bin b ∈ (ofModel m numberFormat).transforms ∧ b.field = field ∧
      b.start = (Derivation.bin .start).name field ∧ b.end = (Derivation.bin .end).name field := by
  obtain ⟨e, he, hfield, htells, -⟩ := find?_entries numberFormat h
  obtain ⟨b, hb, hbfield, hstart, hend⟩ := exists_bin_mem_entryTransforms numberFormat e
  refine ⟨b, mem_transforms.mpr ⟨field, e, he, hb⟩, hbfield.trans hfield, ?_, ?_⟩
  · rw [hstart, htells.start, Model.derivedName_binner h hc]
  · rw [hend, htells.end, Model.derivedName_binner h hc]

/-- A count has one name, whatever the suffix. So where a field is first binned to be counted, both
ends of the bin are written to the column of the count, and none to the columns of the bin. -/
theorem ends_of_isCount {b : BinTransform} (hb : .bin b ∈ (ofModel m numberFormat).transforms)
    (h : m.binner? b.field = some first) (hc : first.2.isCount = true) :
    b.start = "count_*" ∧ b.end = "count_*" := by
  have hname (suffix : Option BinSuffix) : first.2.derivedName suffix = "count_*" := if_pos hc
  obtain ⟨field, e, he, hmem⟩ := mem_transforms.mp hb
  obtain ⟨hfield, hstart, hend⟩ := of_bin_mem_entryTransforms hmem
  obtain ⟨first', hfirst', htells, -⟩ := exists_binner_of_find? he
  have he : e.field = field :=
    Option.some.inj (htells.field.symm.trans (Model.of_binner? hfirst').2.2)
  rw [hfield, he, hfirst'] at h
  cases h
  exact ⟨hstart.trans (htells.start.trans (hname _)), hend.trans (htells.end.trans (hname _))⟩

theorem exists_label_iff (h : m.binner? field = some first) (hc : first.2.isCount = false) :
    (∃ expr, .formula expr ((Derivation.bin .range).name field) ∈
      (ofModel m numberFormat).transforms) ↔ m.LabelsBin field := by
  constructor
  · rintro ⟨expr, hexpr⟩
    obtain ⟨other, e, he, hexpr⟩ := mem_transforms.mp hexpr
    obtain ⟨hlabelled, -, hrange⟩ := formula_mem_entryTransforms.mp hexpr
    obtain ⟨first', hfirst', htells, hiff⟩ := exists_binner_of_find? he
    -- the name of the label tells the field
    rw [htells.range] at hrange
    obtain rfl := Model.field_of_derivedName hfirst' hrange.symm
    exact hiff.mp hlabelled
  · intro hlabels
    obtain ⟨e, he, -, htells, hiff⟩ := find?_entries numberFormat h
    refine ⟨_, mem_transforms.mpr ⟨field, e, he, formula_mem_entryTransforms.mpr ⟨?_, rfl, ?_⟩⟩⟩
    · exact hiff.mpr hlabels
    · rw [htells.range, Model.derivedName_binner h hc]

end Binning

end ChartPipeline
