import ChartPipeline.Proofs.Model.Places

/-!
# Models of charts

What a chart says about a model decides its kind: a facet splits by rows or columns, and a unit
stacks as its mark and its encoding tell (`ChartSpec.formed_resolve`).
-/

namespace ChartPipeline

variable {e : Encoding} {c : Channel} {d : FieldDef} {stack : StackProperties} {mark : Mark}
  {setting : Option StackOffset} {chart : Tree Model} {m : Model}

def ModelKind.Formed : ModelKind → Prop
  | .unit u => ∃ setting, u.stack = (decideStack u.mark setting u.encoding).stack?
  | .facet f => f.row.isSome = true ∨ f.column.isSome = true
  | .layer => True

mutual
theorem ChartSpec.exists_chart_resolveAs : (spec : ChartSpec) → {default : String} →
    {t : Tree Model} → spec.resolveAs default = .ok t →
    ∀ m ∈ t.toList, m.kind.Formed ∧ ∃ chart ∈ spec.charts, m.data = chart.data
  | ⟨name, data, mark, encoding, transforms, facet, inner, layer⟩, default, t, h => by
    unfold ChartSpec.charts
    unfold ChartSpec.resolveAs at h
    dsimp only at h
    split at h
    · cases h
    · rename_i row column hchannels
      cases inner with
      | none => cases h
      | some inner =>
        obtain ⟨child, hchild, h⟩ := bind_eq_ok.mp h
        obtain rfl := Except.ok.inj h
        rw [Tree.toList, Forest.toList_tree]
        refine List.forall_mem_cons.mpr ⟨⟨?_, _, List.mem_cons_self, rfl⟩, fun m hm => ?_⟩
        · cases row with
          | some row => exact .inl rfl
          | none =>
            cases column with
            | some column => exact .inr rfl
            | none => exact absurd rfl (hchannels rfl)
        · obtain ⟨hformed, chart, hchart, hdata⟩ :=
            ChartSpec.exists_chart_resolveAs inner hchild m hm
          exact ⟨hformed, chart, List.mem_cons_of_mem _ (List.mem_append_left _ hchart), hdata⟩
    · split at h
      · cases mark with
        | none => cases h
        | some mark =>
          obtain rfl := Except.ok.inj h
          exact List.forall_mem_singleton.mpr ⟨⟨mark.stack, rfl⟩, _, List.mem_cons_self, rfl⟩
      · obtain ⟨below, hbelow, h⟩ := bind_eq_ok.mp h
        obtain rfl := Except.ok.inj h
        rw [Tree.toList]
        refine List.forall_mem_cons.mpr ⟨⟨trivial, _, List.mem_cons_self, rfl⟩, fun m hm => ?_⟩
        obtain ⟨hformed, chart, hchart, hdata⟩ := exists_chart_resolveLayers layer hbelow m hm
        exact ⟨hformed, chart, List.mem_cons_of_mem _ (List.mem_append_right _ hchart), hdata⟩
theorem exists_chart_resolveLayers : (layers : List ChartSpec) → {owner : String} →
    {index : Nat} → {f : Forest Model} → resolveLayers owner index layers = .ok f →
    ∀ m ∈ f.toList, m.kind.Formed ∧ ∃ chart ∈ chartsOf layers, m.data = chart.data
  | [], owner, index, f, h => by
    obtain rfl := Except.ok.inj h
    simp [Forest.toList]
  | layer :: rest, owner, index, f, h => by
    obtain ⟨child, hchild, h⟩ := bind_eq_ok.mp h
    obtain ⟨row, hrow, h⟩ := bind_eq_ok.mp h
    obtain rfl := Except.ok.inj h
    have hfirst := ChartSpec.exists_chart_resolveAs layer hchild
    rw [Tree.toList] at hfirst
    rw [chartsOf, Forest.toList, ← List.cons_append]
    refine List.forall_mem_append.mpr ⟨fun m hm => ?_, fun m hm => ?_⟩
    · obtain ⟨hformed, chart, hchart, hdata⟩ := hfirst m hm
      exact ⟨hformed, chart, List.mem_append_left _ hchart, hdata⟩
    · obtain ⟨hformed, chart, hchart, hdata⟩ := exists_chart_resolveLayers rest hrow m hm
      exact ⟨hformed, chart, List.mem_append_right _ hchart, hdata⟩
end

theorem ChartSpec.formed_resolve {spec : ChartSpec} (h : spec.resolve = .ok chart)
    (hm : m ∈ chart.toList) : m.kind.Formed :=
  (spec.exists_chart_resolveAs h m hm).1

theorem ChartSpec.data_name_eq_none {spec : ChartSpec} (hu : spec.isUnnamed = true)
    (h : spec.resolve = .ok chart) (hm : m ∈ chart.toList) : ∀ d ∈ m.data, d.name = none := by
  obtain ⟨-, inner, hinner, hdata⟩ := spec.exists_chart_resolveAs h m hm
  exact hdata ▸ (spec.of_isUnnamed hu inner hinner).2

-- ---------------------------------------------------------------------------
-- Members of stacks
-- ---------------------------------------------------------------------------

theorem Encoding.mem_all (h : d ∈ e.defs c) : (c, d) ∈ e.all := by
  unfold Encoding.defs at h
  cases hdefs : OrderedMap.find? c e with
  | none => simp [hdefs] at h
  | some defs =>
    rw [hdefs] at h
    exact List.mem_flatMap.mpr ⟨_, OrderedMap.mem_of_find? hdefs, List.mem_map_of_mem h⟩

/-- Members of a stack are told apart by fields that the encoding has, and that are not
aggregated. -/
theorem of_mem_stackBy (h : (c, d) ∈ stackBy e) :
    (c, d) ∈ e.all ∧ d.field.isSome = true ∧ d.aggregate = none := by
  obtain ⟨c', -, h⟩ := List.mem_flatMap.mp h
  obtain ⟨d', hd, he⟩ := List.mem_map.mp h
  cases he
  obtain ⟨hd, hkept⟩ := List.mem_filter.mp hd
  simp only [Bool.and_eq_true, Option.isNone_iff_eq_none] at hkept
  exact ⟨Encoding.mem_all hd, hkept⟩

theorem of_decideStack (h : (decideStack mark setting e).stack? = some stack) :
    stack.stackBy = stackBy e ∧
      ∀ c ∈ stack.groupby, (e.first? c).any (·.field.isSome) = true := by
  unfold decideStack at h
  split at h
  · rename_i hby _ _
    split at h
    · cases h
    · cases h
      refine ⟨hby.symm, fun c hc => ?_⟩
      split at hc
      · cases hc
        assumption
      · cases hc
  · cases h

namespace Model

theorem fieldDefs_of_unit? {u : UnitModel} (h : m.unit? = some u) :
    m.fieldDefs = u.encoding.all := by
  unfold unit? at h
  unfold fieldDefs
  split at h
  · rename_i hkind
    cases h
    rw [hkind]
  · cases h

theorem mem_fieldDefs_of_unit? {u : UnitModel} (hu : m.unit? = some u)
    (hd : d ∈ u.encoding.defs c) : (c, d) ∈ m.fieldDefs := by
  rw [fieldDefs_of_unit? hu]
  exact Encoding.mem_all hd

theorem fieldDef?_of_unit? {u : UnitModel} (hu : m.unit? = some u) (c : Channel) :
    m.fieldDef? c = u.encoding.first? c := by
  unfold unit? at hu
  unfold fieldDef?
  split at hu
  · rename_i hkind
    cases hu
    rw [hkind]
  · cases hu

theorem exists_decideStack {u : UnitModel} (hf : m.kind.Formed) (hu : m.unit? = some u) :
    ∃ setting, u.stack = (decideStack u.mark setting u.encoding).stack? := by
  unfold unit? at hu
  split at hu
  · rename_i hkind
    cases hu
    rw [hkind] at hf
    exact hf
  · cases hu

theorem of_mem_stackBy {u : UnitModel} (hf : m.kind.Formed) (hu : m.unit? = some u)
    (hs : u.stack = some stack) (hd : (c, d) ∈ stack.stackBy) :
    (c, d) ∈ m.fieldDefs ∧ d.field.isSome = true ∧ d.aggregate = none := by
  obtain ⟨setting, hsetting⟩ := exists_decideStack hf hu
  rw [(of_decideStack (hsetting ▸ hs)).1] at hd
  rw [fieldDefs_of_unit? hu]
  exact ChartPipeline.of_mem_stackBy hd

end Model

end ChartPipeline
