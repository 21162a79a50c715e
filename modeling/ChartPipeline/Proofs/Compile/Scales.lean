import ChartPipeline.Proofs.Compile.Names
import ChartPipeline.Proofs.Scale.Binding
import ChartPipeline.Proofs.Session.Invariant

/-!
# Scales over the records of a chart

Checkpoints and records are called by names of the same kind, and a reference is looked up among the
checkpoints first. Where a chart gives no names this does no harm: a record that has the name of a
checkpoint is the one that the checkpoint is bound to (`Session.Unnamed.record_eq`). So what scales
are bound to is never bound to anything else (`ChartSpec.scales_bind_to_records`).
-/

namespace ChartPipeline

open Assembly

variable {s : Session} {c : Compiled} {o : Options} {name record : String} {r : Record}

namespace Session

theorem JoinedForest.exists_bound (hf : s.JoinedForest) (hs : s.Sound) (hr : s.Registered)
    (hok : s.finish.2 = .ok c)
    (h : (name, record) ∈ c.outputs) : ∃ v ∈ s.graph.forest.toList,
      v.node.checkpointName? = some name ∧ .name v.id record ∈ s.steps := by
  obtain ⟨t, path, u, k, hmem, hroot, ht, hu, hk, -⟩ := hf.exists_kept hs hok h
  have hout := OrderedMap.find?_of_mem hr.keys hmem
  obtain ⟨-, -, -, n, -, hstep, hnode⟩ := hs.node?_of_kept hok hroot ht hu hk
  have hrecord : n = record := by
    obtain ⟨id, k', hmem', hk', -, hrecord⟩ := mem_bindings ((finish_ok hok).2 ▸ h)
    obtain rfl := Option.some.inj (hout.symm.trans (OrderedMap.find?_of_mem hr.keys hmem'))
    obtain rfl := Node.checkpoint.inj (Option.some.inj (hnode.symm.trans hk'))
    exact Option.some.inj hrecord
  obtain ⟨way, w, hw, -, rfl, -⟩ := hu.of_prune
  obtain ⟨⟨k', hk', hname⟩, -⟩ := hr.outputs hf hs hout
  rw [hs.wellFormed.node?_eq (ht.append hw)] at hk'
  refine ⟨w.label, (ht.append hw).mem, ?_, hrecord ▸ hstep⟩
  rw [Option.some.inj hk', Node.checkpointName?, hname]

theorem Unnamed.record_eq (hu : s.Unnamed) (hok : s.finish.2 = .ok c)
    (h : (name, record) ∈ c.outputs) (hr : r ∈ c.data) (hname : r.name = some name) :
    record = name := by
  obtain ⟨v, hv, hcheckpoint, hbound⟩ := hu.joinedForest.exists_bound hu.sound hu.registered hok h
  have hplace := hu.tellsPlace_of_mem hv hcheckpoint
  have hdata : c.data = recordsOf s.steps := (records_eq_ok.mp (finish_ok hok).1).2
  rw [hdata, (perm_recordsOf s.steps).mem_iff, List.mem_append] at hr
  rcases hr with hr | hr
  · obtain ⟨w, hw, name', hname', hl⟩ := hu.joinedForest.exists_labelled hu.sound hr
    obtain rfl := Option.some.inj (hname.symm.trans hname')
    obtain ⟨hstep, -⟩ := exists_of_labelIn hl
    rcases hu.label_cases hw hl with ⟨p, -, -, rfl⟩ | ⟨hw, hcheckpoint'⟩
    · exact absurd hplace (not_tellsPlace_sourceName _)
    · -- two checkpoints of one name are the same, and a node gets one name only
      obtain rfl := eq_of_nodup_filterMap hu.nodup hv hw hcheckpoint hcheckpoint'
      exact name_unique hu.sound.planted.nodup_stepsOf hbound hstep
  · obtain ⟨label, hl, field, source, rfl⟩ := hu.sound.exists_indexRecord hok hr
    exact absurd (Option.some.inj hname).symm (IsDefault.ne_label (.inr hplace) hl)

theorem Unnamed.coherent (hu : s.Unnamed) (hok : s.finish.2 = .ok c) : c.Coherent where
  outputs entry h := by
    obtain ⟨t, path, u, k, -, -, -, -, -, hrecord⟩ := hu.joinedForest.exists_kept hu.sound hok h
    exact hrecord
  target r hr name hname := by
    unfold Compiled.target
    cases hs : c.source? name with
    | none => rfl
    | some record => exact hu.record_eq hok (OrderedMap.mem_of_find? hs) hr hname

end Session

/-- If a chart without names of its own compiles, binding scales fails just where the domain of one of
them is none, or refers to something that is neither a bound checkpoint nor a record, and it tells
the first of these faults. Otherwise nothing changes but the names of the data that domains refer to.
They are names of records then, and binding the scales again does not change them any more. -/
theorem ChartSpec.scales_bind_to_records {spec : ChartSpec} (hu : spec.isUnnamed = true)
    (hok : spec.compile o = .ok c) (scales : List Scale) :
    ((∃ e, c.bindScales scales = .error e) ↔ ∃ s ∈ scales,
      (∃ value, s.domain = .other value) ∨ ∃ name ∈ s.domain.cited, ¬ c.Knows name) ∧
    (∀ e, c.bindScales scales = .error e ↔
      (scales.flatMap (Scale.faults c)).head? = some e) ∧
    ∀ bound, c.bindScales scales = .ok bound →
      bound = scales.map (Scale.redirect c.target) ∧
      (∀ s ∈ bound, ∀ name ∈ s.domain.cited, ∃ r ∈ c.data, r.name = some name) ∧
      c.bindScales bound = .ok bound := by
  obtain ⟨s, hs, hfinish⟩ := exists_unnamed hu hok
  have hc := hs.coherent hfinish
  refine ⟨Compiled.exists_bindScales_error, fun e => Compiled.bindScales_eq_error,
    fun bound hb => ⟨?_, hc.exists_cited hb, hc.bound_again hb⟩⟩
  exact (Compiled.bindScales_eq_ok.mp hb).2.symm

def Scale.overFacets : List Scale :=
  [⟨"x", .union [⟨"layer_0_main", "a"⟩, ⟨"row_source_0", "b"⟩]⟩, ⟨"y", .fields "main" ["a", "b"]⟩,
    ⟨"size", .signal "width"⟩]

theorem ChartSpec.scales_bind_to_records_sample : ∃ c bound, twoFacets.compile {} = .ok c ∧
    c.bindScales Scale.overFacets = .ok bound ∧
    bound.map (·.domain.cited) = [["source_0", "row_source_0"], ["source_0"], []] ∧
    c.bindScales bound = .ok bound ∧
    c.bindScales [⟨"x", .field ⟨"elsewhere", "a"⟩⟩, ⟨"y", .other .null⟩] =
      .error (.unknownData "elsewhere") := by
  obtain ⟨c, hok, hc⟩ : ∃ c, twoFacets.compile {} = .ok c ∧ (c.data.map Record.name, c.outputs) =
      ([some "source_0", some "row_source_0", some "row_source_0"],
        [("main", "source_0"), ("layer_0_main", "source_0"), ("layer_0_child_main", "source_0"),
          ("layer_1_main", "source_0"), ("layer_1_child_main", "source_0")]) :=
    exists_of_toOption (by decide +kernel)
  obtain ⟨hdata, houtputs⟩ := Prod.mk.inj hc
  have hknows (name : String) :
      c.Knows name ↔ name ∈ c.outputs.keys ∨ some name ∈ c.data.map Record.name := by
    rw [List.mem_map]
    rfl
  have hu : twoFacets.isUnnamed = true := by decide +kernel
  have hno : ¬ ∃ e, c.bindScales Scale.overFacets = .error e := by
    rw [(scales_bind_to_records hu hok _).1]
    simp [Scale.overFacets, ScaleDomain.cited, hknows, hdata, houtputs]
  have hfirst := (scales_bind_to_records hu hok
    [⟨"x", .field ⟨"elsewhere", "a"⟩⟩, ⟨"y", .other .null⟩]).2.1 (.unknownData "elsewhere")
  cases hb : c.bindScales Scale.overFacets with
  | error e => exact absurd ⟨e, hb⟩ hno
  | ok bound =>
    obtain ⟨hbound, -, hagain⟩ := (scales_bind_to_records hu hok _).2.2 bound hb
    refine ⟨c, bound, hok, hb, ?_, hagain, hfirst.mpr ?_⟩
    · rw [hbound]
      change [[c.target "layer_0_main", c.target "row_source_0"], [c.target "main"], []] = _
      simp only [Compiled.target, Compiled.source?, houtputs]
      decide
    · have hunknown : ¬ c.Knows "elsewhere" := by simp [hknows, hdata, houtputs]
      simp [Scale.faults, ScaleDomain.faults, ScaleDomain.cited, Compiled.faultsOf, hunknown]

end ChartPipeline
