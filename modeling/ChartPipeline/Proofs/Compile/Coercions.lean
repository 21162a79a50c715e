import ChartPipeline.Compile
import ChartPipeline.Proofs.Assembly.Conservation
import ChartPipeline.Proofs.Compile.Provenance
import ChartPipeline.Proofs.Model.Reading
import ChartPipeline.Proofs.Session.Coerced

/-!
# Declared and inferred coercions

The record of a source carries what all its readers ask for (`Session.Coerced.sources`). A kind that
the data declares itself is kept, unless the models that inherit the data override it
(`ChartSpec.declared_coercion_iff`).
-/

namespace ChartPipeline

open Assembly
open Coercions (besides lastAsked mergeAll)
open Forest (Leads)
open OrderedMap (find? last?)

def Record.coercions (r : Record) : Coercions := (r.format.bind DataFormat.parse).getD []

variable {s : Session} {readers : List (Model × Data)} {c : Compiled} {o : Options}

theorem Forest.roots_prune {α : Type} {drops : α → α → Bool} {up : α} {f : Forest α}
    (h : ∀ a ∈ f.roots, drops up a = false) : (f.prune drops up).roots = f.roots := by
  induction f with
  | nil => rfl
  | cons a below rest _ ih =>
    obtain ⟨ha, h⟩ := List.forall_mem_cons.mp h
    rw [prune, if_neg (by simp [ha]), roots, ih h, roots]

theorem Session.JoinedForest.seedOf_prune (hf : s.JoinedForest) {t : Tree Vertex}
    (ht : s.graph.forest.Leads [t.label] t) :
    seedOf ⟨t.label, t.below.prune Graph.drops t.label⟩ = seedOf t := by
  have hrow : (t.below.prune Graph.drops t.label).roots = t.below.roots := by
    refine Forest.roots_prune fun v hv => ?_
    obtain ⟨u, hu, rfl⟩ := Forest.mem_roots.mp hv
    have hparse := (hf.joined_of_leads (ht.append hu)).parse
    have hsource := (hf.joined_of_leads ht).source
    refine Graph.drops_of_isParse (hparse.trans ?_) _
    exact hsource
  simp only [seedOf, seedRecord, hrow]

theorem map_filterMap_of_isSome {α β γ : Type} {f : α → Option β} (g : β → Option γ) {l : List α}
    (h : ∀ a ∈ l, (f a).isSome) : (l.filterMap f).map g = l.map fun a => (f a).bind g := by
  induction l with
  | nil => rfl
  | cons a l ih =>
    obtain ⟨ha, h⟩ := List.forall_mem_cons.mp h
    obtain ⟨b, hb⟩ := Option.isSome_iff_exists.mp ha
    rw [List.filterMap_cons_some hb, List.map_cons, List.map_cons, ih h, hb, Option.bind_some]

namespace Session

theorem JoinedForest.origins (hf : s.JoinedForest) (hs : s.Sound) (hok : s.finish.2 = .ok c) :
    (c.data.filter (·.source.isNone)).map (fun r => some { r with name := none, transform := [] }) =
      s.sources.map fun e => (s.graph.tree? e.2).bind seedOf := by
  have hw := hs.wellFormed
  have hroots := hs.sourceRoots
  have htree {root : NodeId} (hroot : root ∈ s.roots) : ∃ t, s.graph.tree? root = some t ∧
      (s.graph.optimize s.roots).tree? root = some ⟨t.label, t.below.prune Graph.drops t.label⟩ ∧
      s.graph.forest.Leads [t.label] t := by
    obtain ⟨t, _, ht, rfl, -⟩ := hroots.tree?_eq hroot
    exact ⟨t, ht, (hw.optimize _).tree?_eq (Graph.leads_root hw hroots hroot ht),
      hw.leads_of_parentless ht (hroots.parentless _ hroot)⟩
  rw [Graph.map_origins (hw.optimize s.roots) (hroots.optimize hw) (finish_ok hok).1, Graph.treesAt,
    map_filterMap_of_isSome]
  · refine (List.map_map (f := Prod.snd) (l := s.sources)).trans ?_
    refine List.map_congr_left fun e he => ?_
    obtain ⟨t, ht, hpruned, hl⟩ := htree (List.mem_map_of_mem he)
    rw [Function.comp_apply, hpruned, ht]
    exact hf.seedOf_prune hl
  · intro root hroot
    obtain ⟨t, -, ht, -⟩ := htree hroot
    rw [ht]
    rfl

theorem coercions_seedRecord (source : Source) (name : String) (below : Forest Vertex) :
    (seedRecord source name below).coercions =
      mergeAll (below.roots.filterMap (·.node.coercions?)) := by
  have hnone : ({ source with name := some name } : Source).record.coercions = [] := by
    unfold Source.record Record.coercions
    dsimp only
    split <;> rfl
  rw [seedRecord, Record.withCoercions]
  split
  · rename_i h
    rw [hnone, List.isEmpty_iff.mp h]
  · rfl

theorem exists_forall₂ {α β γ : Type} {ε : Type} {key : γ → α} {F : β → ε} {P : γ → β → Prop}
    {entries : List (α × NodeId)} {G : α × NodeId → ε} {records : List β}
    (h : records.map F = entries.map G)
    (hentry : ∀ e ∈ entries, ∃ d, key d = e.1 ∧ ∀ r, F r = G e → P d r) :
    ∃ ds, ds.map key = entries.map Prod.fst ∧ List.Forall₂ P ds records := by
  induction entries generalizing records with
  | nil =>
    obtain rfl := List.map_eq_nil_iff.mp h
    exact ⟨[], rfl, .nil⟩
  | cons e entries ih =>
    obtain ⟨r, records, rfl, hr, h⟩ := List.map_eq_cons_iff.mp h
    obtain ⟨⟨d, hd, hone⟩, hentry⟩ := List.forall_mem_cons.mp hentry
    obtain ⟨ds, hds, hrest⟩ := ih h hentry
    exact ⟨d :: ds, by rw [List.map_cons, hd, hds]; rfl, .cons (hone r hr) hrest⟩

/-- In the end there is a record for each source, with the coercions that are below it. -/
theorem Coerced.sources (hc : s.Coerced readers) (hs : s.Sound) (hf : s.JoinedForest)
    (hok : s.finish.2 = .ok c) : ∃ sources : List Data, sources.map Data.identity = s.sources.keys ∧
      List.Forall₂ (fun d r => r.url = d.url ∧ r.values = d.values ∧
        r.coercions = mergeAll (besides ((Model.inheriting d readers).map .ofModel)
          ((Model.declaring d readers).map .ofModel))) sources (c.data.filter (·.source.isNone)) := by
  refine exists_forall₂ (hf.origins hs hok) fun ⟨key, id⟩ he => ?_
  obtain ⟨d, t, rfl, ht, hlabel⟩ := hs.leads_source he
  have hparses := hs.wellFormed.parses_eq ht
  have htree := hs.wellFormed.tree?_eq ht
  rw [hlabel] at hparses htree
  refine ⟨d, rfl, fun r hr => ?_⟩
  rw [htree, Option.bind_some] at hr
  have hdata := Graph.seedOf_data t
  rw [← hr, hlabel] at hdata
  obtain ⟨hurl, hvalues⟩ := Prod.mk.inj (Option.some.inj hdata)
  refine ⟨hurl, hvalues, ?_⟩
  have hcoercions := coercions_seedRecord (.ofData d) "" t.below
  rw [← hparses, hc.parses d id he] at hcoercions
  rw [seedOf, hlabel] at hr
  have hformat := congrArg Record.format (Option.some.inj hr)
  rw [← hcoercions, Record.coercions, Record.coercions]
  exact congrArg (fun format => (Option.bind format DataFormat.parse).getD []) hformat

theorem Chained.started (h : Chained { options := o } readers s) :
    s.Sound ∧ s.JoinedForest ∧ s.Coerced readers := by
  have hempty : Coerced { options := o } [] := ⟨by simp, by simp, fun _ _ h => nomatch h⟩
  exact ⟨(h.grown (sound_start o)).sound, h.joinedForest (sound_start o) (joinedForest_start o),
    h.coerced (sound_start o) (joinedForest_start o) hempty⟩

end Session

-- ---------------------------------------------------------------------------
-- Charts
-- ---------------------------------------------------------------------------

theorem ChartSpec.exists_session {spec : ChartSpec} {chart : Tree Model}
    (hr : spec.resolve = .ok chart) (hok : spec.compile o = .ok c) : ∃ s : Session,
      Session.Chained { options := o } (Call.chart chart).added s ∧ s.finish.2 = .ok c ∧
      ((Forest.tree chart.label chart.below).reading none).all Model.stands := by
  obtain ⟨s, hs, hfinish⟩ := compile_ok hr hok
  have hplaced := (Session.sound_start o).placed_addModels (f := .tree chart.label chart.below) .none
  rw [hs] at hplaced
  cases hplaced with
  | ok hall hchained => exact ⟨s, hchained, hfinish, hall⟩

theorem mem_added {chart : Tree Model} {m : Model} {d : Data}
    (hall : ((Forest.tree chart.label chart.below).reading none).all Model.stands) :
    (m, d) ∈ (Call.chart chart).added ↔
      (m, some d) ∈ (Forest.tree chart.label chart.below).reading none := by
  rw [Call.added, Model.placed,
    List.takeWhile_eq_self_iff.mpr fun m hm => List.all_eq_true.mp hall m hm, List.mem_filterMap]
  constructor
  · rintro ⟨⟨m', x⟩, hmem, he⟩
    obtain ⟨d', rfl, hsame⟩ := Option.map_eq_some_iff.mp he
    cases hsame
    exact hmem
  · exact fun hmem => ⟨_, hmem, rfl⟩

theorem mem_added_and_isSome {chart : Tree Model} {m : Model} {d : Data}
    (hall : ((Forest.tree chart.label chart.below).reading none).all Model.stands) :
    (m, d) ∈ (Call.chart chart).added ∧ m.data.isSome = true ↔
      m ∈ chart.toList ∧ m.data = some d := by
  rw [← Forest.toList_tree, ← Forest.map_fst_reading _ none, mem_added hall]
  constructor
  · rintro ⟨hmem, hdata⟩
    exact ⟨List.mem_map_of_mem hmem, (Forest.eq_data_of_mem_reading hmem hdata).symm⟩
  · rintro ⟨hm, hd⟩
    have hdata : m.data.isSome = true := by rw [hd]; rfl
    obtain ⟨⟨_, x⟩, hmem, rfl⟩ := List.mem_map.mp hm
    rw [Forest.eq_data_of_mem_reading hmem hdata, hd] at hmem
    exact ⟨hmem, hdata⟩

theorem filterMap_data_added
    (hall : ((Forest.tree chart.label chart.below).reading none).all Model.stands) :
    (Call.chart chart).added.filterMap (·.1.data) = chart.toList.filterMap Model.data := by
  rw [← Forest.toList_tree, ← Forest.map_fst_reading _ none, Call.added, Model.placed,
    List.takeWhile_eq_self_iff.mpr fun m hm => List.all_eq_true.mp hall m hm, List.filterMap_filterMap,
    List.filterMap_map]
  refine List.filterMap_congr fun p hp => ?_
  obtain ⟨m, x⟩ := p
  cases hdata : m.data with
  | none => cases x <;> simp [hdata]
  | some d =>
    have hx := Forest.eq_data_of_mem_reading hp (by rw [hdata]; rfl)
    simp [hx, hdata]

/-- If a chart compiles, there is a record for each of the data that its models declare, in order,
with the coercions that are below its source. -/
theorem ChartSpec.exists_sources {spec : ChartSpec} {chart : Tree Model}
    (hr : spec.resolve = .ok chart) (hok : spec.compile o = .ok c) : ∃ s : Session,
      s.Coerced (Call.chart chart).added ∧
      ((Forest.tree chart.label chart.below).reading none).all Model.stands ∧
      List.Forall₂ (fun d r => r.url = d.url ∧ r.values = d.values ∧ r.coercions =
          mergeAll (besides ((Model.inheriting d (Call.chart chart).added).map .ofModel)
            ((Model.declaring d (Call.chart chart).added).map .ofModel)))
        (OrderedSet.ofList (chart.toList.filterMap Model.data))
        (c.data.filter (·.source.isNone)) := by
  obtain ⟨s, hchained, hfinish, hall⟩ := exists_session hr hok
  obtain ⟨hs, hf, hc⟩ := hchained.started
  obtain ⟨sources, hids, hrecords⟩ := hc.sources hs hf hfinish
  have hsources : sources = OrderedSet.ofList (chart.toList.filterMap Model.data) := by
    refine List.map_injective_iff.mpr Data.identity_injective ?_
    rw [hids, hchained.keys_sources, filterMap_data_added hall]
    exact OrderedSet.union_map Data.identity_injective [] _
  exact ⟨s, hc, hall, hsources ▸ hrecords⟩

/-- If a chart compiles, there is a record for each of the data that its models declare, in order,
and in that a kind that the data declares for a field is kept if and only if several models declare
the data, or the last model that inherits the data and asks for a kind of the field asks for the
same. -/
theorem ChartSpec.declared_coercion_iff {spec : ChartSpec} {chart : Tree Model}
    (hr : spec.resolve = .ok chart) (hok : spec.compile o = .ok c) :
    List.Forall₂ (fun d r => r.url = d.url ∧ r.values = d.values ∧
        ∀ field kind, last? field d.parse = some kind →
          (find? field r.coercions = some kind ↔
            2 ≤ (Model.declaring d (Call.chart chart).added).length ∨
            (lastAsked field ((Model.inheriting d (Call.chart chart).added).map .ofModel)).getD kind =
              kind))
      (OrderedSet.ofList (chart.toList.filterMap Model.data)) (c.data.filter (·.source.isNone)) := by
  obtain ⟨s, hc, hall, hrecords⟩ := exists_sources hr hok
  refine ((List.forall₂_and_left ..).mpr ⟨fun d hd => OrderedSet.mem_ofList.mp hd, hrecords⟩).imp ?_
  rintro d r ⟨hd, hurl, hvalues, hcoercions⟩
  obtain ⟨m, hm⟩ := List.mem_filterMap.mp hd
  refine ⟨hurl, hvalues, fun field kind hkind => ?_⟩
  rw [hcoercions, Coercions.find?_mergeAll_besides, List.length_map]
  · have hmem := Model.mem_declaring.mpr ((mem_added_and_isSome hall).mpr hm)
    simpa using List.ne_nil_of_mem hmem
  · intro c hc
    rw [← List.map_append] at hc
    obtain ⟨m, -, rfl⟩ := List.mem_map.mp hc
    exact Coercions.nodup_keys_ofModel m
  · intro c hc
    obtain ⟨m, hm, rfl⟩ := List.mem_map.mp hc
    obtain ⟨-, hdata⟩ := (mem_added_and_isSome hall).mp (Model.mem_declaring.mp hm)
    exact Coercions.find?_ofModel_declared hdata hkind

def Data.dated : Data :=
  { url := some "a.csv", format := some { parse := some [("a", "date")] } }

def ChartSpec.overriding : ChartSpec where
  name := none
  data := some .dated
  mark := none
  encoding := []
  transform := []
  facet := none
  inner := none
  layer := [
    { name := none, data := none, mark := some { mark := .point }
      encoding := [(.x, [{ field := some "a", fieldType := some .quantitative }])]
      transform := [], facet := none, inner := none, layer := [] }]

theorem exists_of_toOption {ε α β : Type} {x : Except ε α} {f : α → β} {b : β}
    (h : x.toOption.map f = some b) : ∃ a, x = .ok a ∧ f a = b := by
  cases x with
  | error => cases h
  | ok a => exact ⟨a, rfl, Option.some.inj h⟩

theorem ChartSpec.coercions_overriding : ∃ c, overriding.compile {} = .ok c ∧
    (c.data.filter (·.source.isNone)).map Record.coercions = [[("a", "number")]] :=
  exists_of_toOption (by decide +kernel)

theorem ChartSpec.declared_coercion_iff_sample : ∃ c r, overriding.compile {} = .ok c ∧
    c.data.filter (·.source.isNone) = [r] ∧ find? "a" r.coercions ≠ some "date" := by
  obtain ⟨chart, hr, hsources, hown, hasked⟩ : ∃ chart, overriding.resolve = .ok chart ∧
      OrderedSet.ofList (chart.toList.filterMap Model.data) = [.dated] ∧
      (Model.declaring .dated (Call.chart chart).added).length = 1 ∧
      lastAsked "a" ((Model.inheriting .dated (Call.chart chart).added).map .ofModel) =
        some "number" :=
    ⟨_, rfl, rfl, by decide +kernel, by decide +kernel⟩
  obtain ⟨c, hok, -⟩ := coercions_overriding
  have hrecords := declared_coercion_iff hr hok
  rw [hsources] at hrecords
  generalize hfilter : c.data.filter (·.source.isNone) = records at hrecords
  cases hrecords with
  | @cons _ r _ _ hone hnone =>
    cases hnone
    refine ⟨c, r, hok, hfilter, fun hkept => ?_⟩
    have hiff := (hone.2.2 "a" "date" rfl).mp hkept
    rw [hown, hasked] at hiff
    exact absurd hiff (by decide)

/-- What data declares is not kept in all charts. -/
theorem ChartSpec.declared_coercion_overridden : ¬ ∀ (spec : ChartSpec) (chart : Tree Model)
    (o : Options) (c : Compiled), spec.resolve = .ok chart → spec.compile o = .ok c →
    ∀ m ∈ chart.toList, ∀ d, m.data = some d → ∃ r ∈ c.data, r.source = none ∧ r.url = d.url ∧
      ∀ field kind, last? field d.parse = some kind → find? field r.coercions = some kind := by
  intro h
  obtain ⟨c, hok, hone⟩ := coercions_overriding
  obtain ⟨chart, hr, m, hm, d, hd, hparse⟩ : ∃ chart, overriding.resolve = .ok chart ∧
      ∃ m ∈ chart.toList, ∃ d, m.data = some d ∧ last? "a" d.parse = some "date" :=
    ⟨_, rfl, _, List.mem_cons_self, _, rfl, rfl⟩
  obtain ⟨r, hmem, hsource, -, hkeep⟩ := h _ _ _ _ hr hok m hm d hd
  have hrecord : r.coercions ∈ (c.data.filter (·.source.isNone)).map Record.coercions :=
    List.mem_map_of_mem (List.mem_filter.mpr ⟨hmem, by simp [hsource]⟩)
  rw [hone, List.mem_singleton] at hrecord
  have hkind := hkeep "a" "date" hparse
  rw [hrecord] at hkind
  exact absurd hkind (by decide)

end ChartPipeline
