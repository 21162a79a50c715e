import ChartPipeline.Proofs.Compile.Coercions

/-!
# What the readers of a source ask for

In a chart that compiles, the records without a source are those of the declared data, in the order
of their first declaration. Each is loaded with the coercions that the models ask for that read its
data, and with no others (`ChartSpec.collects_readers`).
-/

namespace ChartPipeline

open Coercions (mergeAll besides)

/-- The record loads the data, with the kinds that some of the models ask for. -/
structure Record.Collects (r : Record) (d : Data) (readers : Model → Prop) : Prop where
  url : r.url = d.url
  values : r.values = d.values
  nodup : r.coercions.keys.Nodup
  keys : ∀ field, field ∈ r.coercions.keys ↔
    ∃ m, readers m ∧ field ∈ (Coercions.ofModel m).keys
  kinds : ∀ field kind, (field, kind) ∈ r.coercions →
    ∃ m, readers m ∧ (field, kind) ∈ Coercions.ofModel m

variable {o : Options} {c : Compiled} {chart : Tree Model} {readers : List (Model × Data)}
  {s : Session} {d : Data} {r : Record}

theorem Session.Coerced.collects (hc : s.Coerced readers) (hurl : r.url = d.url)
    (hvalues : r.values = d.values) (h : r.coercions =
      mergeAll (besides ((Model.inheriting d readers).map .ofModel)
        ((Model.declaring d readers).map .ofModel))) :
    r.Collects d fun m => (m, d) ∈ readers := by
  have hown : (Model.declaring d readers).map Coercions.ofModel = [] →
      (Model.inheriting d readers).map Coercions.ofModel = [] := by
    simpa only [List.map_eq_nil_iff] using hc.inheriting_eq_nil
  have hread {c : Coercions} (hc : c ∈ (Model.inheriting d readers).map Coercions.ofModel ++
      (Model.declaring d readers).map Coercions.ofModel) :
      ∃ m, (m, d) ∈ readers ∧ Coercions.ofModel m = c := by
    rw [← List.map_append] at hc
    obtain ⟨m, hm, rfl⟩ := List.mem_map.mp hc
    exact ⟨m, Model.mem_inheriting_append_declaring.mp hm, rfl⟩
  refine ⟨hurl, hvalues, h ▸ Coercions.nodup_keys_mergeAll _, fun field => ?_, fun field kind he => ?_⟩
  · rw [h, Coercions.mem_keys_mergeAll_besides hown]
    constructor
    · rintro ⟨c, hc, hfield⟩
      obtain ⟨m, hm, rfl⟩ := hread hc
      exact ⟨m, hm, hfield⟩
    · rintro ⟨m, hm, hfield⟩
      refine ⟨_, ?_, hfield⟩
      rw [← List.map_append]
      exact List.mem_map_of_mem (Model.mem_inheriting_append_declaring.mpr hm)
  · obtain ⟨c, hc, he⟩ := Coercions.mem_mergeAll_besides (h ▸ he)
    obtain ⟨m, hm, rfl⟩ := hread hc
    exact ⟨m, hm, he⟩

/-- If a chart compiles, the records without a source are one for each of the data that its models
declare, in order, and each collects what the models ask for that read its data. -/
theorem ChartSpec.collects_readers {spec : ChartSpec} (hr : spec.resolve = .ok chart)
    (hok : spec.compile o = .ok c) :
    List.Forall₂ (fun d r => r.Collects d fun m => (Forest.tree chart.label chart.below).Reads m d)
      (OrderedSet.ofList (chart.toList.filterMap Model.data)) (c.data.filter (·.source.isNone)) := by
  obtain ⟨s, hc, hall, hrecords⟩ := exists_sources hr hok
  refine hrecords.imp fun d r ⟨hurl, hvalues, hcoercions⟩ => ?_
  have hreads : (fun m => (Forest.tree chart.label chart.below).Reads m d) =
      fun m => (m, d) ∈ (Call.chart chart).added := by
    funext m
    rw [mem_added hall, Forest.mem_reading_iff]
  rw [hreads]
  exact hc.collects hurl hvalues hcoercions

/-- Both the layer that declares its dates and the chart in it ask for a kind of the same field, and
of no other one. -/
theorem ChartSpec.collects_readers_sample : ∃ c r, overriding.compile {} = .ok c ∧
    c.data.filter (·.source.isNone) = [r] ∧ ∀ field, field ∈ r.coercions.keys ↔ field = "a" := by
  obtain ⟨chart, hr, hsources, hasked, m, hm, hfield⟩ : ∃ chart, overriding.resolve = .ok chart ∧
      OrderedSet.ofList (chart.toList.filterMap Model.data) = [.dated] ∧
      (∀ entry ∈ (Forest.tree chart.label chart.below).reading none,
        (Coercions.ofModel entry.1).keys = ["a"]) ∧
      ∃ m, (m, some .dated) ∈ (Forest.tree chart.label chart.below).reading none ∧
        "a" ∈ (Coercions.ofModel m).keys :=
    ⟨_, rfl, rfl, by decide +kernel, _, List.mem_cons_self, by decide +kernel⟩
  obtain ⟨c, hok, -⟩ := coercions_overriding
  have hrecords := collects_readers hr hok
  rw [hsources] at hrecords
  generalize hfilter : c.data.filter (·.source.isNone) = records at hrecords
  cases hrecords with
  | @cons _ r _ _ hone hnone =>
    cases hnone
    refine ⟨c, r, hok, hfilter, fun field => (hone.keys field).trans ⟨?_, ?_⟩⟩
    · rintro ⟨m, hm, hfield⟩
      rw [hasked _ (Forest.mem_reading_iff.mpr hm)] at hfield
      exact List.mem_singleton.mp hfield
    · rintro rfl
      exact ⟨m, Forest.mem_reading_iff.mp hm, hfield⟩

end ChartPipeline
