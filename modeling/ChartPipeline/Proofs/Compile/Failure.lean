import ChartPipeline.Compile
import ChartPipeline.Proofs.Model.Places
import ChartPipeline.Proofs.Model.Reading
import ChartPipeline.Proofs.Session.Finish

/-!
# Why charts do not compile

A chart fails where it cannot be resolved, or where a model that draws or facets finds no data. Once
all chains are there, nothing can go wrong any more (`ChartSpec.compile_error_iff`).
-/

namespace ChartPipeline

/-- The chart cannot be resolved, or in its tree of models there is one that draws or facets with
nothing but layers without data around it, and without data of its own. -/
inductive ChartSpec.Fails (spec : ChartSpec) : CompileError → Prop
  | unresolved : spec.resolve = .error cause → spec.Fails cause
  | stranded : spec.resolve = .ok chart →
      (Forest.tree chart.label chart.below).positions.find? Model.isStranded = some (above, m) →
      spec.Fails (.missingData (if m.name = "" then "<root>" else m.name))

theorem bind_eq_error {ε α β : Type} {x : Except ε α} {next : α → Except ε β} {cause : ε} :
    x >>= next = .error cause ↔ x = .error cause ∨ ∃ a, x = .ok a ∧ next a = .error cause := by
  cases x <;> simp [bind, Except.bind]

variable {o : Options} {cause : CompileError} {chart : Tree Model}

mutual
theorem ChartSpec.resolveAs_error : (spec : ChartSpec) → {default : String} →
    spec.resolveAs default = .error cause → ∃ invalid, cause = .invalidSpec invalid
  | ⟨name, data, mark, encoding, transforms, facet, inner, layer⟩, default, h => by
    unfold ChartSpec.resolveAs at h
    dsimp only at h
    split at h
    · cases h
      exact ⟨_, rfl⟩
    · cases inner with
      | none =>
        cases h
        exact ⟨_, rfl⟩
      | some inner =>
        rcases bind_eq_error.mp h with h | ⟨child, -, h⟩
        · exact ChartSpec.resolveAs_error inner h
        · cases h
    · split at h
      · cases mark with
        | none =>
          cases h
          exact ⟨_, rfl⟩
        | some mark => cases h
      · rcases bind_eq_error.mp h with h | ⟨below, -, h⟩
        · exact resolveLayers_error layer h
        · cases h
theorem resolveLayers_error : (layers : List ChartSpec) → {owner : String} → {index : Nat} →
    resolveLayers owner index layers = .error cause → ∃ invalid, cause = .invalidSpec invalid
  | [], owner, index, h => nomatch h
  | layer :: rest, owner, index, h => by
    rcases bind_eq_error.mp h with h | ⟨child, -, h⟩
    · exact ChartSpec.resolveAs_error layer h
    · rcases bind_eq_error.mp h with h | ⟨row, -, h⟩
      · exact resolveLayers_error rest h
      · cases h
end

theorem ChartSpec.Fails.invalidSpec_or_missingData {spec : ChartSpec} (h : spec.Fails cause) :
    (∃ invalid, cause = .invalidSpec invalid) ∨ ∃ name, cause = .missingData name := by
  cases h with
  | unresolved h => exact .inl (spec.resolveAs_error h)
  | stranded => exact .inr ⟨_, rfl⟩

/-- A tree of models compiles, unless some model is stranded. Then the first one is to blame. -/
theorem Options.compileTree_cases (o : Options) (chart : Tree Model) :
    ((Forest.tree chart.label chart.below).positions.find? Model.isStranded = none ∧
      ∃ c, (o.compileTree chart).2 = .ok c) ∨
    ∃ above m, (Forest.tree chart.label chart.below).positions.find? Model.isStranded =
        some (above, m) ∧ (o.compileTree chart).2 = .error (.missingData m.shownName) := by
  have hplaced := (Session.sound_start o).placed_addModels (f := .tree chart.label chart.below) .none
  have hstranded := Forest.find?_reading (.tree chart.label chart.below)
  rw [Session.addModels_tree] at hplaced
  rw [Options.compileTree]
  cases hadd : ({ options := o } : Session).addChart chart with
  | ok last =>
    rw [hadd] at hplaced
    cases hplaced with
    | ok hall hchained =>
      have hs := (hchained.grown (Session.sound_start o)).sound
      have hf := hchained.joinedForest (Session.sound_start o) (Session.joinedForest_start o)
      refine .inl ⟨?_, hf.exists_finish hs⟩
      rw [List.find?_eq_none.mpr fun m hm => by simpa using List.all_eq_true.mp hall m hm] at hstranded
      exact Option.map_eq_none_iff.mp hstranded.symm
  | error failure =>
    rw [hadd] at hplaced
    cases hplaced with
    | error hfind hcause _ =>
      obtain ⟨⟨above, m⟩, hfirst, rfl⟩ := Option.map_eq_some_iff.mp (hstranded.symm.trans hfind)
      exact .inr ⟨above, m, hfirst, congrArg Except.error hcause⟩

theorem ChartSpec.compile_eq_bind (spec : ChartSpec) (o : Options) :
    spec.compile o = spec.resolve >>= fun chart => (o.compileTree chart).2 := by
  rw [compile, compileTelling]
  cases spec.resolve <;> rfl

/-- A chart does not compile if and only if it fails in one of two ways, with the error that belongs
to it. So a chart that is resolved has only valid specs and known data, and coercions stand only
where sources are loaded. -/
theorem ChartSpec.compile_error_iff (spec : ChartSpec) (o : Options) :
    (∀ cause, spec.compile o = .error cause ↔ spec.Fails cause) ∧
    (∀ node, spec.compile o ≠ .error (.misplacedParse node)) ∧
    (∀ name, spec.compile o ≠ .error (.unknownData name)) ∧
    ∀ invalid, spec.compile o = .error (.invalidSpec invalid) ↔
      spec.resolve = .error (.invalidSpec invalid) := by
  have hfails (cause : CompileError) : spec.compile o = .error cause ↔ spec.Fails cause := by
    rw [compile_eq_bind, bind_eq_error]
    constructor
    · rintro (h | ⟨chart, hr, h⟩)
      · exact .unresolved h
      · rcases o.compileTree_cases chart with ⟨-, c, hok⟩ | ⟨above, m, hfirst, hmissing⟩
        · cases hok.symm.trans h
        · cases hmissing.symm.trans h
          exact .stranded hr hfirst
    · rintro (h | @⟨chart, above, m, hr, hfirst⟩)
      · exact .inl h
      · refine .inr ⟨chart, hr, ?_⟩
        rcases o.compileTree_cases chart with ⟨hnone, -⟩ | ⟨_, _, hfirst', hmissing⟩
        · cases hnone.symm.trans hfirst
        · cases hfirst'.symm.trans hfirst
          exact hmissing
  refine ⟨hfails, fun node h => ?_, fun name h => ?_, fun invalid => (hfails _).trans ?_⟩
  · rcases ((hfails _).mp h).invalidSpec_or_missingData with ⟨_, he⟩ | ⟨_, he⟩ <;> cases he
  · rcases ((hfails _).mp h).invalidSpec_or_missingData with ⟨_, he⟩ | ⟨_, he⟩ <;> cases he
  · constructor
    · rintro ⟨h⟩
      exact h
    · exact .unresolved

end ChartPipeline
