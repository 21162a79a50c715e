import ChartPipeline.Proofs.Model.Resolve
import ChartPipeline.Proofs.Node.Bins
import ChartPipeline.Proofs.Session.Stages

/-!
# Keys that are computed

The fields by which rows are grouped and stacks are built can be derived ones. Bins and time units
are computed before, but not for every definition that asks for them: only date-times are cut to a
unit (`Model.groups_by_derived`), and a range is only labelled for channels that bin a field as it
is binned first (`ChartSpec.stacks_by_range`).
-/

namespace ChartPipeline

variable {m : Model} {c : Channel} {d : FieldDef} {field target expr : String}
  {unit : TimeUnit} {entry : Channel × FieldDef} {o : Options}

-- ---------------------------------------------------------------------------
-- Time units
-- ---------------------------------------------------------------------------

/-- The definition cuts a field to a time unit, and does nothing else to it. -/
def FieldDef.Cuts (d : FieldDef) (unit : TimeUnit) (field : String) : Prop :=
  d.aggregate = none ∧ d.isBinned = false ∧ d.timeUnit = some unit ∧ d.field = some field

theorem FieldDef.Cuts.derivedName (h : d.Cuts unit field) :
    d.derivedName none = (Derivation.timeUnit unit).name field := by
  obtain ⟨haggregate, hbinned, hunit, hfield⟩ := h
  refine derivedName_of_derivation? (derivation?_eq_timeUnit.mpr ⟨haggregate, hbinned, hunit, ?_⟩)
  rw [rawField, hfield, Option.getD_some]

namespace TimeUnits

variable {u : TimeUnits} {r : String × TimeUnit × String} {rs : List (String × TimeUnit × String)}

theorem request?_eq_some : request? d = some (target, unit, field) ↔
    d.fieldType = some .temporal ∧ d.derivedName none = target ∧ d.timeUnit = some unit ∧
      d.field = some field := by
  unfold request? guard
  by_cases htype : d.fieldType = some .temporal
  · cases d.timeUnit <;> cases d.field <;> simp [htype]
  · simp [htype]

theorem mem_of_mem_foldl_add (h : r ∈ rs.foldl add u) : r ∈ u ∨ r ∈ rs := by
  induction rs generalizing u with
  | nil => exact .inl h
  | cons first rs ih =>
    rcases ih h with h | h
    · unfold add at h
      split at h
      · exact .inl h
      · exact (OrderedMap.mem_put h).symm.imp_right (by rintro rfl; exact List.mem_cons_self)
    · exact .inr (List.mem_cons_of_mem _ h)

theorem mem_keys_add {key : String} : key ∈ (add u r).keys ↔ key ∈ u.keys ∨ key = r.1 := by
  unfold add
  split
  · rename_i h
    obtain ⟨value, hvalue⟩ := Option.isSome_iff_exists.mp h
    have hkey : r.1 ∈ u.keys := List.mem_map.mpr ⟨_, OrderedMap.mem_of_find? hvalue, rfl⟩
    exact ⟨.inl, fun h => h.elim id fun he => he ▸ hkey⟩
  · exact OrderedMap.mem_keys_put

theorem mem_keys_foldl_add {key : String} :
    key ∈ (rs.foldl add u).keys ↔ key ∈ u.keys ∨ key ∈ rs.map Prod.fst := by
  induction rs generalizing u with
  | nil => simp
  | cons r rs ih => rw [List.foldl_cons, ih, mem_keys_add, List.map_cons, List.mem_cons, or_assoc]

theorem exists_request_of_formula (h : .formula expr target ∈ transforms (ofModel m)) :
    ∃ unit field, expr = Expression.timeUnit unit field ∧
      ∃ entry ∈ m.fieldDefs, request? entry.2 = some (target, unit, field) := by
  obtain ⟨⟨target, unit, field⟩, hmem, he⟩ := List.mem_map.mp h
  cases he
  obtain ⟨entry, hentry, hrequest⟩ :=
    List.mem_filterMap.mp ((mem_of_mem_foldl_add hmem).resolve_left List.not_mem_nil)
  exact ⟨unit, field, rfl, entry, hentry, hrequest⟩

theorem exists_formula_of_request (hd : (c, d) ∈ m.fieldDefs)
    (h : request? d = some (target, unit, field)) :
    ∃ expr, .formula expr target ∈ transforms (ofModel m) := by
  have hkey : target ∈ (ofModel m).keys :=
    mem_keys_foldl_add.mpr (.inr (List.mem_map.mpr ⟨_, List.mem_filterMap.mpr ⟨_, hd, h⟩, rfl⟩))
  obtain ⟨⟨_, unit, field⟩, hmem, rfl⟩ := List.mem_map.mp hkey
  exact ⟨_, List.mem_map_of_mem hmem⟩

theorem cuts_of_request {field' : String} {unit' : TimeUnit}
    (h : request? d = some ((Derivation.timeUnit unit).name field, unit', field')) :
    unit' = unit ∧ field' = field ∧ d.Cuts unit field := by
  obtain ⟨-, hname, hunit', hfield⟩ := request?_eq_some.mp h
  have hderived : (d.derivation? none).isSome := by
    unfold FieldDef.derivation?
    split
    · rfl
    split
    · rfl
    rw [hunit']
    cases d.aggregate <;> rfl
  obtain ⟨haggregate, hbinned, hunit, hraw⟩ :=
    FieldDef.derivation?_eq_timeUnit.mp (FieldDef.derivation?_of_derivedName hderived hname)
  rw [FieldDef.rawField, hfield, Option.getD_some] at hraw
  subst hraw
  exact ⟨Option.some.inj (hunit'.symm.trans hunit), rfl, haggregate, hbinned, hunit, hfield⟩

/-- A field is cut to a unit if a definition of date-times asks for that and for nothing else. -/
theorem formula_mem_iff :
    .formula expr ((Derivation.timeUnit unit).name field) ∈ transforms (ofModel m) ↔
      expr = Expression.timeUnit unit field ∧
        ∃ entry ∈ m.fieldDefs, entry.2.fieldType = some .temporal ∧ entry.2.Cuts unit field := by
  constructor
  · intro h
    obtain ⟨unit', field', rfl, entry, hentry, hrequest⟩ := exists_request_of_formula h
    obtain ⟨rfl, rfl, hcuts⟩ := cuts_of_request hrequest
    exact ⟨rfl, entry, hentry, (request?_eq_some.mp hrequest).1, hcuts⟩
  · rintro ⟨rfl, entry, hentry, htype, hcuts⟩
    obtain ⟨expr, hexpr⟩ := exists_formula_of_request hentry
      (request?_eq_some.mpr ⟨htype, hcuts.derivedName, hcuts.2.2.1, hcuts.2.2.2⟩)
    obtain ⟨unit', field', rfl, other, -, hrequest⟩ := exists_request_of_formula hexpr
    obtain ⟨rfl, rfl, -⟩ := cuts_of_request hrequest
    exact hexpr

end TimeUnits

-- ---------------------------------------------------------------------------
-- Groups
-- ---------------------------------------------------------------------------

namespace Aggregation

variable {a : Aggregation} {entries : List (Channel × FieldDef)} {key : String}

def Asks (d : FieldDef) (key : String) : Prop :=
  d.aggregate = none ∧ d.field.isSome = true ∧ key ∈ keys d

theorem mem_dimensions_add :
    key ∈ (add m a entry).dimensions ↔ key ∈ a.dimensions ∨ Asks entry.2 key := by
  obtain ⟨c, d⟩ := entry
  unfold add Asks
  cases haggregate : d.aggregate with
  | some op => cases op <;> cases hfield : d.field <;> simp [haggregate, hfield]
  | none => cases hfield : d.field <;> simp [haggregate, hfield]

theorem mem_dimensions_foldl_add : key ∈ (entries.foldl (add m) a).dimensions ↔
    key ∈ a.dimensions ∨ ∃ entry ∈ entries, Asks entry.2 key := by
  induction entries generalizing a with
  | nil => simp
  | cons entry entries ih =>
    rw [List.foldl_cons, ih, mem_dimensions_add, or_assoc, List.exists_mem_cons_iff]

theorem mem_dimensions_ofModel (hm : m.unit?.isSome) :
    key ∈ (ofModel m).dimensions ↔ ∃ entry ∈ m.fieldDefs, Asks entry.2 key := by
  rw [ofModel, if_pos hm, mem_dimensions_foldl_add]
  simp

end Aggregation

namespace Model

theorem stages_of_groups {a : Aggregation} (ha : Aggregation.ofModel m = a)
    (hne : a.dimensions ≠ []) : ∃ before after, m.stages o =
      before ++ (Binning.ofModel m o.numberFormat).transforms ++
        TimeUnits.transforms (TimeUnits.ofModel m) ++ a.transform :: after := by
  have hgroups : a.isEmpty = false := by
    rw [Aggregation.isEmpty, List.isEmpty_eq_false_iff.mpr hne, Bool.false_and]
  refine ⟨m.transforms.flatMap TransformDef.stage ++
      NullFilter.transforms (NullFilter.ofModel m o.filterInvalid),
    (Stacking.ofModel m).toList.flatMap Stacking.transforms ++
      PositiveFilter.transforms (PositiveFilter.ofModel m) ++
      if (PathOrder.ofModel m).isEmpty then [] else [.collect (PathOrder.ofModel m)], ?_⟩
  unfold stages
  simp only [ha, hgroups, Bool.false_eq_true, if_false, List.append_assoc, List.cons_append,
    List.nil_append]

/-- A definition that is not aggregated groups rows by its field, right after fields are binned and
cut. The ends of a bin are computed if the definition that bins the field first is no count: a count
would have both written under its own name (`Binning.ends_of_isCount`). A time unit is if a
definition of date-times asks for the same. -/
theorem groups_by_derived (hm : m.unit?.isSome) (hd : (c, d) ∈ m.fieldDefs)
    (ha : d.aggregate = none) (hf : d.field = some field) :
    (∀ key ∈ Aggregation.keys d, key ∈ (Aggregation.ofModel m).dimensions) ∧
    (∃ before after, m.stages o = before ++ (Binning.ofModel m o.numberFormat).transforms ++
      TimeUnits.transforms (TimeUnits.ofModel m) ++ (Aggregation.ofModel m).transform :: after) ∧
    (d.isBinned = true → ∃ first, m.binner? field = some first ∧ (first.2.isCount = false →
      ∃ b : BinTransform, .bin b ∈ (Binning.ofModel m o.numberFormat).transforms ∧
        b.field = field ∧ b.start = d.derivedName (some .start) ∧
        b.end = d.derivedName (some .end))) ∧
    ∀ unit, d.isBinned = false → d.timeUnit = some unit → ∀ expr,
      .formula expr (d.derivedName none) ∈ TimeUnits.transforms (TimeUnits.ofModel m) ↔
        expr = Expression.timeUnit unit field ∧
          ∃ entry ∈ m.fieldDefs, entry.2.fieldType = some .temporal ∧ entry.2.Cuts unit field := by
  have hkeys : ∀ key ∈ Aggregation.keys d, key ∈ (Aggregation.ofModel m).dimensions :=
    fun key hkey => (Aggregation.mem_dimensions_ofModel hm).mpr ⟨_, hd, ha, by simp [hf], hkey⟩
  have hne : (Aggregation.ofModel m).dimensions ≠ [] := by
    obtain ⟨key, hkey⟩ : ∃ key, key ∈ Aggregation.keys d := by
      unfold Aggregation.keys
      split <;> exact ⟨_, List.mem_cons_self⟩
    exact List.ne_nil_of_mem (hkeys key hkey)
  refine ⟨hkeys, stages_of_groups rfl hne, fun hb => ?_, fun unit hb hunit expr => ?_⟩
  · obtain ⟨first, hfirst⟩ := exists_binner? hd hb hf
    refine ⟨first, hfirst, fun hcount => ?_⟩
    obtain ⟨b, hmem, hfield, hstart, hend⟩ := Binning.exists_bin o.numberFormat hfirst hcount
    have hname := FieldDef.derivedName_of_isBinned (FieldDef.isCount_eq_false ha) hb hf
    exact ⟨b, hmem, hfield, hstart.trans (hname .start).symm, hend.trans (hname .end).symm⟩
  · have hcuts : d.Cuts unit field := ⟨ha, hb, hunit, hf⟩
    rw [hcuts.derivedName]
    exact TimeUnits.formula_mem_iff

def monthly (fieldType : FieldType) : Model where
  name := ""
  data := none
  transforms := []
  kind := .unit {
    mark := .bar
    orient := none
    encoding := [
      (.x, [{ field := some "d", fieldType := some fieldType, timeUnit := some .month }]),
      (.y, [{ aggregate := some .count, fieldType := some .quantitative }])]
    stack := none }

theorem groups_by_derived_sample :
    "month_d" ∈ (Aggregation.ofModel (monthly .temporal)).dimensions ∧
      .formula (Expression.timeUnit .month "d") "month_d" ∈
        TimeUnits.transforms (TimeUnits.ofModel (monthly .temporal)) := by
  obtain ⟨hkeys, -, -, hunit⟩ := groups_by_derived (o := {}) (m := monthly .temporal) rfl
    List.mem_cons_self rfl rfl
  exact ⟨hkeys _ List.mem_cons_self,
    (hunit .month rfl rfl _).mpr ⟨rfl, _, List.mem_cons_self, rfl, rfl, rfl, rfl, rfl⟩⟩

/-- Not every derived field by which rows are grouped is computed. -/
theorem groups_by_missing : ¬ ∀ (m : Model) (numberFormat : String) (c : Channel) (d : FieldDef)
    (key : String), m.unit?.isSome → (c, d) ∈ m.fieldDefs → d.aggregate = none →
    d.field.isSome → key ∈ (Aggregation.ofModel m).dimensions →
    (d.isBinned = true ∧ (key = d.derivedName (some .start) ∨ key = d.derivedName (some .end)) ∨
      d.isBinned = false ∧ d.timeUnit.isSome ∧ key = d.derivedName none) →
    (∃ expr, .formula expr key ∈ TimeUnits.transforms (TimeUnits.ofModel m)) ∨
      ∃ b : BinTransform, .bin b ∈ (Binning.ofModel m numberFormat).transforms ∧
        (key = b.start ∨ key = b.end) := by
  intro h
  have hmissing := h (monthly .ordinal) "s" .x _ "month_d" rfl List.mem_cons_self rfl rfl
    (by decide) (.inr ⟨rfl, rfl, rfl⟩)
  rcases hmissing with ⟨expr, hexpr⟩ | ⟨b, hb, -⟩
  · exact nomatch hexpr
  · exact nomatch hb

end Model

-- ---------------------------------------------------------------------------
-- Stacks
-- ---------------------------------------------------------------------------

variable {u : UnitModel} {stack : StackProperties} {s : Stacking} {spec : ChartSpec}
  {chart : Tree Model}

namespace Stacking

theorem of_ofModel (h : ofModel m = some s) : ∃ u stack, m.unit? = some u ∧ u.stack = some stack ∧
    m.field? stack.measure none = some s.field ∧ s.groupby = stack.groupby.elim [] (groupKeys m) ∧
    s.stackBy = stack.stackBy.map (fun (c, d) => memberKey m c d) ∧
    s.sort = if (u.encoding.defs .order).isEmpty then s.stackBy.map (·, .descending)
      else orderSort (u.encoding.defs .order) := by
  simp only [ofModel, bind, Option.bind_eq_some_iff] at h
  obtain ⟨u, hu, stack, hstack, measure, hmeasure, h⟩ := h
  cases h
  exact ⟨u, stack, hu, hstack, hmeasure, rfl, rfl, rfl⟩

theorem memberKey_mem (h : ofModel m = some s) (hu : m.unit? = some u)
    (hs : u.stack = some stack) (hd : (c, d) ∈ stack.stackBy) : memberKey m c d ∈ s.stackBy := by
  obtain ⟨u', stack', hu', hs', -, -, hby, -⟩ := of_ofModel h
  obtain rfl := Option.some.inj (hu.symm.trans hu')
  obtain rfl := Option.some.inj (hs.symm.trans hs')
  rw [hby]
  exact List.mem_map_of_mem hd

end Stacking

/-- Where a definition that is binned stands on a channel with a discrete scale, the unit stacks by
the range of the bin. Unless the definition that bins the field first is a count, whose name the
range would have (`Binning.ends_of_isCount`), the range is labelled if and only if a channel with a
discrete scale has that definition, or one that agrees with it. -/
theorem ChartSpec.stacks_by_range (numberFormat : String) (hr : spec.resolve = .ok chart)
    (hm : m ∈ chart.toList) (hs : Stacking.ofModel m = some s) (hu : m.unit? = some u)
    (hstack : u.stack = some stack) (hd : (c, d) ∈ stack.stackBy) (hb : d.isBinned = true)
    (hc : m.isDiscrete c = true) :
    ∃ field first, d.field = some field ∧ m.binner? field = some first ∧
      (Derivation.bin .range).name field ∈ s.stackBy ∧
      (first.2.isCount = false →
        ((∃ expr, .formula expr ((Derivation.bin .range).name field) ∈
            (Binning.ofModel m numberFormat).transforms) ↔
          ∃ entry ∈ m.fieldDefs, m.isDiscrete entry.1 = true ∧
            (entry = first ∨ Model.Agree field first entry))) := by
  obtain ⟨hmem, hfield, haggregate⟩ :=
    Model.of_mem_stackBy (ChartSpec.formed_resolve hr hm) hu hstack hd
  obtain ⟨field, hfield⟩ := Option.isSome_iff_exists.mp hfield
  obtain ⟨first, hfirst⟩ := Model.exists_binner? hmem hb hfield
  refine ⟨field, first, hfield, hfirst, ?_, fun hcount => ?_⟩
  · have hname :=
      FieldDef.derivedName_of_isBinned (FieldDef.isCount_eq_false haggregate) hb hfield .range
    have hkey := Stacking.memberKey_mem hs hu hstack hd
    rwa [Stacking.memberKey, if_pos hc, hname] at hkey
  · rw [Binning.exists_label_iff hfirst hcount, Model.LabelsBin]
    simp [hfirst]

def FieldDef.binned (maxbins : Option Nat) : FieldDef :=
  { field := some "a", fieldType := some .quantitative, bin := some { maxbins } }

def ChartSpec.binned (maxbins : Option Nat) : ChartSpec where
  name := none
  data := none
  mark := some { mark := .bar }
  encoding := [
    (.x, [.binned maxbins]), (.y, [{ aggregate := some .count, fieldType := some .quantitative }]),
    (.color, [.binned maxbins])]
  transform := []
  facet := none
  inner := none
  layer := []

theorem ChartSpec.stacks_by_range_sample : ∃ chart m s, (binned (some 5)).resolve = .ok chart ∧
    m ∈ chart.toList ∧ Stacking.ofModel m = some s ∧ "bin_a_range" ∈ s.stackBy ∧
    ∃ expr, .formula expr "bin_a_range" ∈ (Binning.ofModel m "s").transforms := by
  obtain ⟨chart, hr, m, hm, u, hu, stack, hstack, s, hs, hd, hc, hdefs⟩ :
      ∃ chart, (binned (some 5)).resolve = .ok chart ∧ ∃ m ∈ chart.toList,
        ∃ u, m.unit? = some u ∧ ∃ stack, u.stack = some stack ∧ ∃ s, Stacking.ofModel m = some s ∧
          (.color, .binned (some 5)) ∈ stack.stackBy ∧ m.isDiscrete .color = true ∧
          m.fieldDefs = (binned (some 5)).encoding.all :=
    ⟨_, rfl, _, List.mem_cons_self, _, rfl, _, rfl, _, rfl, List.mem_cons_self, rfl, rfl⟩
  obtain ⟨field, first, hfield, hbinner, hkey, hlabel⟩ :=
    stacks_by_range "s" hr hm hs hu hstack hd rfl hc
  cases hfield
  rw [Model.binner?, hdefs] at hbinner
  cases hbinner
  refine ⟨chart, m, s, hr, hm, hs, hkey,
    (hlabel rfl).mpr ⟨(.color, .binned (some 5)), ?_, hc, .inr ?_⟩⟩
  · rw [hdefs]
    exact List.mem_cons_of_mem _ (List.mem_cons_of_mem _ List.mem_cons_self)
  · exact ⟨rfl, rfl, _, _, rfl, rfl, rfl⟩

/-- Not every range by which a unit stacks is labelled. -/
theorem ChartSpec.stacks_by_missing : ¬ ∀ (spec : ChartSpec) (chart : Tree Model) (m : Model)
    (u : UnitModel) (stack : StackProperties) (s : Stacking) (c : Channel) (d : FieldDef)
    (numberFormat : String), spec.resolve = .ok chart → m ∈ chart.toList →
    Stacking.ofModel m = some s → m.unit? = some u → u.stack = some stack →
    (c, d) ∈ stack.stackBy → d.isBinned = true → m.isDiscrete c = true →
    d.derivedName (some .range) ∈ s.stackBy →
    ∃ expr, .formula expr (d.derivedName (some .range)) ∈
      (Binning.ofModel m numberFormat).transforms := by
  intro h
  obtain ⟨expr, hexpr⟩ := h (binned none) _ _ _ _ _ .color _ "s" rfl List.mem_cons_self rfl rfl rfl
    List.mem_cons_self rfl rfl List.mem_cons_self
  exact nomatch hexpr

end ChartPipeline
