import ChartPipeline.Proofs.Node.Coercions

/-!
# Which fields are coerced

A model coerces the fields that a filter, a definition or its data asks for
(`Coercions.mem_keys_ofModel`). A filter asks by the first of the values that it compares with, and
of a range only the lower bound counts: a range that is open below asks for nothing, whatever its
upper bound is (`Coercions.compared_iff`).
-/

namespace ChartPipeline

namespace Comparison

def values : Comparison → List FilterValue
  | .equal value => [value]
  | .range low high => low.toList ++ high.toList
  | .oneOf values => values

/-- There are values to compare with, and all of them are numbers, texts or date-times. -/
def Uniform (c : Comparison) : Prop :=
  c.values ≠ [] ∧ ((∀ v ∈ c.values, ∃ x, v = .number x) ∨ (∀ v ∈ c.values, ∃ s, v = .text s) ∨
    ∀ v ∈ c.values, ∃ d, v = .dateTime d)

def IsOpenBelow (c : Comparison) : Prop := ∃ high, c = .range none high

variable {c : Comparison} {value : FilterValue}

theorem mem_values_of_firstValue (h : c.firstValue = some value) : value ∈ c.values := by
  cases c with
  | equal => exact List.mem_singleton.mpr (Option.some.inj h).symm
  | range low high => exact List.mem_append_left _ (Option.mem_toList.mpr h)
  | oneOf values => exact List.mem_of_head? h

theorem exists_firstValue (h : c.values ≠ []) (hc : ¬ c.IsOpenBelow) :
    ∃ value, c.firstValue = some value := by
  cases c with
  | equal value => exact ⟨value, rfl⟩
  | range low high =>
    cases low with
    | none => exact absurd ⟨high, rfl⟩ hc
    | some low => exact ⟨low, rfl⟩
  | oneOf values =>
    obtain ⟨value, rest, rfl⟩ := List.exists_cons_of_ne_nil h
    exact ⟨value, rfl⟩

theorem Uniform.kindOfValue_isSome (h : c.Uniform) (hv : value ∈ c.values) :
    (Coercions.kindOfValue value).isSome = true := by
  obtain ⟨-, h | h | h⟩ := h <;> obtain ⟨_, rfl⟩ := h value hv <;> rfl

end Comparison

namespace Coercions

variable {m : Model} {f : FilterDef} {p : Predicate} {field : String} {d : FieldDef}

-- ---------------------------------------------------------------------------
-- Who asks
-- ---------------------------------------------------------------------------

/-- The predicate asks for a kind of its field: the first of its values is there and no truth
value. -/
def Kinded (p : Predicate) : Prop :=
  ∃ value, p.comparison.firstValue = some value ∧ ∀ b, value ≠ .bool b

inductive Asked (m : Model) (field : String) : Prop
  | compared {f : FilterDef} {p : Predicate} :
    .filter f ∈ m.transforms → .predicate p ∈ f.filters → Kinded p → p.field = field →
      Asked m field
  | temporal {entry : Channel × FieldDef} :
    entry ∈ m.fieldDefs → entry.2.field = some field → entry.2.fieldType = some .temporal →
      Asked m field
  | quantitative {entry : Channel × FieldDef} :
    entry ∈ m.fieldDefs → entry.2.field = some field → entry.2.fieldType = some .quantitative →
      entry.2.isCount = false → field ∉ calculated m.transforms → Asked m field
  | declared {data : Data} : m.data = some data → field ∈ data.parse.map Prod.fst → Asked m field

theorem exists_ofFilter_iff {filter : Filter} : (∃ kind, ofFilter filter = some (field, kind)) ↔
    ∃ p, filter = .predicate p ∧ Kinded p ∧ p.field = field := by
  cases filter with
  | expr => simp [ofFilter, Filter.predicate?]
  | predicate p =>
    cases hvalue : p.comparison.firstValue with
    | none => simp [ofFilter, Filter.predicate?, Kinded, hvalue]
    | some value => cases value <;> simp [ofFilter, Filter.predicate?, kindOfValue, Kinded, hvalue]

theorem exists_ofField_iff {calculated : List String} :
    (∃ kind, ofField calculated d = some (field, kind)) ↔ d.field = some field ∧
      (d.fieldType = some .temporal ∨
        d.fieldType = some .quantitative ∧ d.isCount = false ∧ field ∉ calculated) := by
  unfold ofField
  cases hfield : d.field with
  | none => simp
  | some own =>
    cases htype : d.fieldType with
    | none => simp
    | some fieldType =>
      by_cases hown : own = field
      · subst hown
        cases fieldType <;> simp
      · cases fieldType <;> simp [hown]

theorem mem_requests_of_ofField {entry : Channel × FieldDef} {kind : String}
    (hentry : entry ∈ m.fieldDefs)
    (h : ofField (calculated m.transforms) entry.2 = some (field, kind)) :
    (field, kind) ∈ requests m :=
  List.mem_append_left _ (List.mem_append_right _ (List.mem_filterMap.mpr ⟨entry, hentry, h⟩))

theorem exists_request_iff : (∃ kind, (field, kind) ∈ requests m) ↔ Asked m field := by
  constructor
  · rintro ⟨kind, h⟩
    rcases List.mem_append.mp h with h | h
    · rcases List.mem_append.mp h with h | h
      · obtain ⟨t, ht, h⟩ := List.mem_flatMap.mp h
        cases t with
        | filter f =>
          obtain ⟨filter, hp, h⟩ := List.mem_filterMap.mp h
          obtain ⟨p, rfl, hkinded, hfield⟩ := exists_ofFilter_iff.mp ⟨kind, h⟩
          exact .compared ht hp hkinded hfield
        | _ => cases h
      · obtain ⟨entry, hentry, h⟩ := List.mem_filterMap.mp h
        obtain ⟨hfield, htype | ⟨htype, hcount, hcalculated⟩⟩ := exists_ofField_iff.mp ⟨kind, h⟩
        · exact .temporal hentry hfield htype
        · exact .quantitative hentry hfield htype hcount hcalculated
    · cases hdata : m.data with
      | none => simp [hdata] at h
      | some data =>
        rw [hdata] at h
        exact .declared hdata (List.mem_map_of_mem h)
  · intro h
    cases h with
    | compared hf hp hkinded hfield =>
      obtain ⟨kind, h⟩ := exists_ofFilter_iff.mpr ⟨_, rfl, hkinded, hfield⟩
      have hmem : (field, kind) ∈ m.transforms.flatMap ofTransform :=
        List.mem_flatMap.mpr ⟨_, hf, List.mem_filterMap.mpr ⟨_, hp, h⟩⟩
      exact ⟨kind, List.mem_append_left _ (List.mem_append_left _ hmem)⟩
    | temporal hentry hfield htype =>
      obtain ⟨kind, h⟩ := exists_ofField_iff.mpr ⟨hfield, .inl htype⟩
      exact ⟨kind, mem_requests_of_ofField hentry h⟩
    | quantitative hentry hfield htype hcount hcalculated =>
      obtain ⟨kind, h⟩ := exists_ofField_iff.mpr ⟨hfield, .inr ⟨htype, hcount, hcalculated⟩⟩
      exact ⟨kind, mem_requests_of_ofField hentry h⟩
    | declared hdata hfield =>
      obtain ⟨⟨_, kind⟩, hmem, rfl⟩ := List.mem_map.mp hfield
      refine ⟨kind, List.mem_append_right _ ?_⟩
      rw [hdata]
      exact hmem

theorem mem_keys_ofModel : field ∈ (ofModel m).keys ↔ Asked m field := by
  rw [ofModel, OrderedMap.mem_keys_union, ← exists_request_iff]
  simp [OrderedMap.keys]

-- ---------------------------------------------------------------------------
-- Comparisons
-- ---------------------------------------------------------------------------

/-- Whatever is compared with values of one kind asks for it, except a range that is open below. -/
theorem kinded_iff (h : p.comparison.Uniform) : Kinded p ↔ ¬ p.comparison.IsOpenBelow := by
  constructor
  · rintro ⟨value, hvalue, -⟩ ⟨high, hopen⟩
    rw [hopen] at hvalue
    cases hvalue
  · intro hopen
    obtain ⟨value, hvalue⟩ := Comparison.exists_firstValue h.1 hopen
    refine ⟨value, hvalue, fun b he => ?_⟩
    have hkind := h.kindOfValue_isSome (Comparison.mem_values_of_firstValue hvalue)
    rw [he] at hkind
    cases hkind

/-- The field of a predicate over values of one kind is coerced, unless the predicate is a range
that is open below. That one asks for nothing, so the field is coerced if and only if something else
asks for it. -/
theorem compared_iff (hf : .filter f ∈ m.transforms) (hp : .predicate p ∈ f.filters)
    (hu : p.comparison.Uniform) : (Kinded p ↔ ¬ p.comparison.IsOpenBelow) ∧
      (¬ p.comparison.IsOpenBelow → p.field ∈ (ofModel m).keys) ∧
      (p.field ∈ (ofModel m).keys ↔ Asked m p.field) := by
  have hkinded := kinded_iff hu
  refine ⟨hkinded, fun hopen => ?_, mem_keys_ofModel⟩
  exact mem_keys_ofModel.mpr (.compared hf hp (hkinded.mpr hopen) rfl)

def ranged (low high : Option FilterValue) : Model where
  name := ""
  data := none
  transforms := [.filter (.one (.predicate {
    field := "a", timeUnit := none, comparison := .range low high }))]
  kind := .layer

theorem compared_iff_sample : "a" ∈ (ofModel (ranged (some (.text "b")) none)).keys := by
  have hu : (Comparison.range (some (.text "b")) none).Uniform :=
    ⟨by simp [Comparison.values], .inr (.inl fun v hv => ⟨"b", List.mem_singleton.mp hv⟩)⟩
  obtain ⟨-, hkey, -⟩ :=
    compared_iff (m := ranged (some (.text "b")) none) List.mem_cons_self List.mem_cons_self hu
  exact hkey (by rintro ⟨_, ⟨⟩⟩)

/-- Not every field that is compared with numbers is coerced. -/
theorem compared_missing : ¬ ∀ (m : Model) (f : FilterDef) (p : Predicate),
    .filter f ∈ m.transforms → .predicate p ∈ f.filters → p.comparison.Uniform →
    p.field ∈ (ofModel m).keys := by
  intro h
  have hmem := h (ranged none (some (.number 5))) _ _ List.mem_cons_self List.mem_cons_self
    ⟨by simp [Comparison.values], .inl fun v hv => ⟨5, List.mem_singleton.mp hv⟩⟩
  exact nomatch hmem

end Coercions

end ChartPipeline
