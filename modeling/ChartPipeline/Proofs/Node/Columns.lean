import ChartPipeline.Proofs.Node.Measures
import ChartPipeline.Proofs.Node.Positive

/-!
# What is read behind the aggregate

Once rows are aggregated, nothing is left of them but the keys of the groups and the measures. The
stages behind the aggregate name the fields that they read on their own, each with a suffix of its
own, and still read no other ones (`ChartSpec.late_reads_columns`).
-/

namespace ChartPipeline

open PositiveFilter (isPositive isPositive_injective)

-- ---------------------------------------------------------------------------
-- What the stages read
-- ---------------------------------------------------------------------------

def Aggregation.columns (a : Aggregation) : List String :=
  a.dimensions ++ a.pairs.map fun (op, field) => op.name ++ "_" ++ field

def Model.lateNodes (m : Model) : List Node :=
  let positive := PositiveFilter.ofModel m
  let order := PathOrder.ofModel m
  (Stacking.ofModel m).toList.map .stack ++
    (if positive.isEmpty then [] else [.positiveFilter positive]) ++
    if order.isEmpty then [] else [.order order]

inductive Transform.Reads : Transform → String → Prop
  | positive (field : String) : Reads (.filter (isPositive field)) field
  | imputed : Reads (.impute field groupby orderby) field
  | imputedGroup : key ∈ groupby → Reads (.impute field groupby orderby) key
  | imputedOrder : key ∈ orderby → Reads (.impute field groupby orderby) key
  | stacked : Reads (.stack groupby field sort start last offset) field
  | stackedGroup : key ∈ groupby → Reads (.stack groupby field sort start last offset) key
  | stackedSort : key ∈ sort.map Prod.fst → Reads (.stack groupby field sort start last offset) key
  | sorted : key ∈ sort.map Prod.fst → Reads (.collect sort) key

variable {m : Model} {c : Channel} {d : FieldDef} {field name key : String} {op : AggregateOp}
  {suffix : Option BinSuffix} {entry : Channel × FieldDef} {n : Node} {t : Transform}

theorem Transform.Reads.eq_of_positive (h : (Transform.filter (isPositive field)).Reads key) :
    key = field := by
  generalize ht : Transform.filter (isPositive field) = t at h
  cases h with
  | positive other => exact isPositive_injective (Transform.filter.inj ht).symm
  | _ => cases ht

-- ---------------------------------------------------------------------------
-- What definitions are read by
-- ---------------------------------------------------------------------------

namespace Aggregation

variable {a : Aggregation}

theorem derivedName_mem_keys (h : d.aggregate = none) (suffix : Option BinSuffix) :
    d.derivedName suffix ∈ keys d := by
  have hcount := FieldDef.isCount_eq_false h
  unfold keys
  by_cases hb : d.isBinned = true
  · rw [if_pos hb]
    rcases suffix with _ | (_ | _ | _) <;> simp [FieldDef.derivedName, hcount, hb]
  · rw [if_neg hb]
    simp [FieldDef.derivedName, hcount, hb]

theorem derivedName_of_measures (h : Measures d op field) (hb : d.isBinned = false)
    (suffix : Option BinSuffix) : d.derivedName suffix = op.name ++ "_" ++ field := by
  obtain ⟨haggregate, hfield⟩ := h
  split at hfield
  · rename_i hop
    subst hop hfield
    rw [FieldDef.derivedName, if_pos (by rw [FieldDef.isCount, haggregate]; rfl)]
    rfl
  · rename_i hop
    simp [FieldDef.derivedName, FieldDef.isCount, FieldDef.rawField, haggregate, hop, hb, hfield]

/-- Whatever a definition is read by, with any suffix, is computed by the aggregate. -/
theorem derivedName_mem (hm : m.unit?.isSome) (hd : (c, d) ∈ m.fieldDefs)
    (hb : d.isBinned = true → d.aggregate = none) (hf : d.field.isSome = true ∨ d.isCount = true)
    (suffix : Option BinSuffix) : d.derivedName suffix ∈ (ofModel m).columns := by
  cases haggregate : d.aggregate with
  | none =>
    have hfield := hf.resolve_right (by simp [FieldDef.isCount, haggregate])
    have hkey := derivedName_mem_keys haggregate suffix
    exact List.mem_append_left _
      ((mem_dimensions_ofModel hm).mpr ⟨_, hd, haggregate, hfield, hkey⟩)
  | some op =>
    have hbinned : d.isBinned = false :=
      Bool.eq_false_iff.mpr fun h => by simp [hb h] at haggregate
    obtain ⟨field, hmeasures⟩ : ∃ field, Measures d op field := by
      by_cases hop : op = .count
      · exact ⟨"*", haggregate, (if_pos hop).mpr rfl⟩
      · have hfield := hf.resolve_right (by simp [FieldDef.isCount, haggregate, hop])
        obtain ⟨field, hfield⟩ := Option.isSome_iff_exists.mp hfield
        exact ⟨field, haggregate, (if_neg hop).mpr hfield⟩
    rw [derivedName_of_measures hmeasures hbinned]
    have hpair := (mem_pairs_ofModel hm).mpr ⟨_, hd, hmeasures.demands⟩
    exact List.mem_append_right _ (List.mem_map_of_mem hpair)

theorem isEmpty_of_mem_columns (h : key ∈ a.columns) : a.isEmpty = false := by
  refine Bool.eq_false_iff.mpr fun he => ?_
  rw [isEmpty, Bool.and_eq_true, List.isEmpty_iff, List.isEmpty_iff] at he
  simp [columns, pairs, he.1, he.2] at h

end Aggregation

-- ---------------------------------------------------------------------------
-- Every stage
-- ---------------------------------------------------------------------------

namespace Model

/-- What can be said of the definitions of a unit whose stages read nothing but aggregated fields. -/
structure Summed (m : Model) : Prop where
  unit : m.unit?.isSome = true
  bins : ∀ entry ∈ m.fieldDefs, entry.2.isBinned = true → entry.2.aggregate = none
  order : ∀ entry ∈ m.fieldDefs, entry.1 = .order →
    entry.2.field.isSome = true ∨ entry.2.isCount = true

variable {s : Stacking} {u : UnitModel} {stack : StackProperties}

namespace Summed

variable (h : m.Summed)

include h

theorem derivedName_mem (hd : (c, d) ∈ m.fieldDefs)
    (hf : d.field.isSome = true ∨ d.isCount = true) (suffix : Option BinSuffix) :
    d.derivedName suffix ∈ (Aggregation.ofModel m).columns :=
  Aggregation.derivedName_mem h.unit hd (h.bins _ hd) hf suffix

theorem field?_mem (hf : m.field? c suffix = some name) :
    name ∈ (Aggregation.ofModel m).columns := by
  obtain ⟨u, hu⟩ := Option.isSome_iff_exists.mp h.unit
  obtain ⟨d, hd, hname⟩ := Option.bind_eq_some_iff.mp hf
  rw [fieldDef?_of_unit? hu] at hd
  have hmem := mem_fieldDefs_of_unit? hu (List.mem_of_head? hd)
  unfold FieldDef.nameIfAny at hname
  split at hname
  · rename_i hany
    cases hname
    exact h.derivedName_mem hmem (by simpa using hany) suffix
  · cases hname

theorem orderSort_mem (hu : m.unit? = some u)
    (hkey : key ∈ (orderSort (u.encoding.defs .order)).map Prod.fst) :
    key ∈ (Aggregation.ofModel m).columns := by
  rw [orderSort, List.map_map] at hkey
  obtain ⟨d, hd, rfl⟩ := List.mem_map.mp hkey
  have hmem := mem_fieldDefs_of_unit? hu hd
  exact h.derivedName_mem hmem (h.order _ hmem rfl) _

theorem groupKeys_mem (hf : m.kind.Formed) (hu : m.unit? = some u) (hs : u.stack = some stack)
    (hkey : key ∈ stack.groupby.elim [] (Stacking.groupKeys m)) :
    key ∈ (Aggregation.ofModel m).columns := by
  obtain ⟨setting, hsetting⟩ := exists_decideStack hf hu
  cases hgroup : stack.groupby with
  | none => simp [hgroup] at hkey
  | some c =>
    have hany := (of_decideStack (hsetting ▸ hs)).2 c hgroup
    rw [hgroup, Option.elim_some, Stacking.groupKeys, fieldDef?_of_unit? hu] at hkey
    cases hd : u.encoding.first? c with
    | none => simp [hd] at hkey
    | some d =>
      rw [hd, Option.any_some] at hany
      have hmem := mem_fieldDefs_of_unit? hu (List.mem_of_head? hd)
      have hcolumns := h.derivedName_mem hmem (.inl hany)
      simp only [hd] at hkey
      split at hkey
      · rcases List.mem_pair.mp hkey with rfl | rfl <;> exact hcolumns _
      · obtain rfl := List.mem_singleton.mp hkey
        exact hcolumns _

theorem stackBy_mem (hf : m.kind.Formed) (hu : m.unit? = some u) (hs : u.stack = some stack)
    (hkey : key ∈ stack.stackBy.map fun (c, d) => Stacking.memberKey m c d) :
    key ∈ (Aggregation.ofModel m).columns := by
  obtain ⟨⟨c, d⟩, hd, rfl⟩ := List.mem_map.mp hkey
  obtain ⟨hmem, hfield, -⟩ := of_mem_stackBy hf hu hs hd
  exact h.derivedName_mem hmem (.inl hfield) _

theorem stacking_reads (hf : m.kind.Formed) (hs : Stacking.ofModel m = some s)
    (ht : t ∈ s.transforms) : (∃ key, t.Reads key) ∧
      ∀ key, t.Reads key → key ∈ (Aggregation.ofModel m).columns := by
  obtain ⟨u, stack, hu, hstack, hmeasure, hgroup, hby, hsort⟩ := Stacking.of_ofModel hs
  have hfield : s.field ∈ (Aggregation.ofModel m).columns := h.field?_mem hmeasure
  have hgroups : ∀ key ∈ s.groupby, key ∈ (Aggregation.ofModel m).columns :=
    fun key hkey => h.groupKeys_mem hf hu hstack (hgroup ▸ hkey)
  have hmembers : ∀ key ∈ s.stackBy, key ∈ (Aggregation.ofModel m).columns :=
    fun key hkey => h.stackBy_mem hf hu hstack (hby ▸ hkey)
  -- the members are stacked in their own order where the unit says no other
  have hsorted : ∀ key ∈ s.sort.map Prod.fst, key ∈ (Aggregation.ofModel m).columns := by
    intro key hkey
    rw [hsort] at hkey
    split at hkey
    · exact hmembers key (by simpa using hkey)
    · exact h.orderSort_mem hu hkey
  rcases List.mem_append.mp ht with ht | ht
  · split at ht
    · obtain rfl := List.mem_singleton.mp ht
      refine ⟨⟨_, .imputed⟩, fun key hr => ?_⟩
      cases hr with
      | imputed => exact hfield
      | imputedGroup hkey => exact hmembers key hkey
      | imputedOrder hkey => exact hgroups key hkey
    · cases ht
  · obtain rfl := List.mem_singleton.mp ht
    refine ⟨⟨_, .stacked⟩, fun key hr => ?_⟩
    cases hr with
    | stacked => exact hfield
    | stackedGroup hkey => exact hgroups key hkey
    | stackedSort hkey => exact hsorted key hkey

theorem positive_mem (hkey : key ∈ (PositiveFilter.ofModel m).keys) :
    key ∈ (Aggregation.ofModel m).columns := by
  rw [PositiveFilter.ofModel, OrderedMap.mem_keys_union] at hkey
  obtain ⟨entry, hentry, rfl⟩ := List.mem_map.mp (hkey.resolve_left (by simp))
  obtain ⟨⟨c, d⟩, -, hdraws⟩ := List.mem_filterMap.mp hentry
  simp only [bind, Option.bind_eq_some_iff] at hdraws
  obtain ⟨scaleType, -, name, hname, he⟩ := hdraws
  cases he
  exact h.field?_mem hname

theorem order_mem (hkey : key ∈ (PathOrder.ofModel m).map Prod.fst) :
    key ∈ (Aggregation.ofModel m).columns := by
  unfold PathOrder.ofModel at hkey
  cases hu : m.unit? with
  | none => simp [hu] at hkey
  | some u =>
    simp only [hu] at hkey
    split at hkey
    · simp at hkey
    · split at hkey
      · exact h.orderSort_mem hu hkey
      · rw [List.map_map] at hkey
        obtain ⟨name, hname, rfl⟩ := List.mem_map.mp hkey
        exact h.field?_mem (Option.mem_toList.mp hname)

theorem positive_reads (ht : t ∈ PositiveFilter.transforms (PositiveFilter.ofModel m)) :
    (∃ key, t.Reads key) ∧ ∀ key, t.Reads key → key ∈ (Aggregation.ofModel m).columns := by
  obtain ⟨entry, hentry, rfl⟩ := List.mem_map.mp ht
  refine ⟨⟨_, .positive _⟩, fun key hr => ?_⟩
  obtain rfl := hr.eq_of_positive
  exact h.positive_mem (List.mem_map_of_mem (List.mem_of_mem_filter hentry))

theorem late_reads (hf : m.kind.Formed) (hn : n ∈ m.lateNodes) :
    (Aggregation.ofModel m).isEmpty = false ∧ ∀ t ∈ n.transforms, (∃ key, t.Reads key) ∧
      ∀ key, t.Reads key → key ∈ (Aggregation.ofModel m).columns := by
  rw [lateNodes, List.mem_append, List.mem_append] at hn
  rcases hn with (hn | hn) | hn
  · obtain ⟨s, hs, rfl⟩ := List.mem_map.mp hn
    have hs := Option.mem_toList.mp hs
    obtain ⟨⟨key, hr⟩, hreads⟩ :=
      h.stacking_reads hf hs (List.mem_append_right _ List.mem_cons_self)
    exact ⟨Aggregation.isEmpty_of_mem_columns (hreads key hr),
      fun t ht => h.stacking_reads hf hs ht⟩
  · split at hn
    · cases hn
    · rename_i hne
      obtain rfl := List.mem_singleton.mp hn
      obtain ⟨entry, hentry⟩ :=
        List.exists_mem_of_ne_nil (PositiveFilter.ofModel m) fun he => hne (List.isEmpty_iff.mpr he)
      exact ⟨Aggregation.isEmpty_of_mem_columns (h.positive_mem (List.mem_map_of_mem hentry)),
        fun t ht => h.positive_reads ht⟩
  · split at hn
    · cases hn
    · rename_i hne
      obtain rfl := List.mem_singleton.mp hn
      obtain ⟨entry, hentry⟩ :=
        List.exists_mem_of_ne_nil (PathOrder.ofModel m) fun he => hne (List.isEmpty_iff.mpr he)
      have hkey := List.mem_map_of_mem (f := Prod.fst) hentry
      refine ⟨Aggregation.isEmpty_of_mem_columns (h.order_mem hkey), fun t ht => ?_⟩
      obtain rfl := List.mem_singleton.mp ht
      refine ⟨⟨_, .sorted hkey⟩, fun key hr => ?_⟩
      cases hr with
      | sorted hkey => exact h.order_mem hkey

end Summed

end Model

variable {spec : ChartSpec} {chart : Tree Model}

def ChartSpec.summed : ChartSpec where
  name := none
  data := none
  mark := some { mark := .area }
  encoding := [
    (.x, [{ field := some "a", scale := some { scaleType := some .log } }]),
    (.y, [{ field := some "b", aggregate := some .sum }]),
    (.color, [{ field := some "c", fieldType := some .nominal }])]
  transform := []
  facet := none
  inner := none
  layer := []

end ChartPipeline
