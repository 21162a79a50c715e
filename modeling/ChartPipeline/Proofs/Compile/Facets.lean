import ChartPipeline.Proofs.Assembly.Facets
import ChartPipeline.Proofs.Compile.Coercions
import ChartPipeline.Proofs.Node.Keys

/-!
# What the rows and columns of a chart are split by

A facet splits its rows before it does anything else to them. So the records with the distinct
values of its rows and columns read what the models above the facet have computed, and nothing that
the facet computes itself (`ChartSpec.facet_reads_above`).
-/

namespace ChartPipeline

open Forest (Leads)
open Record (Unfolds)

variable {o : Options} {path above : List Model} {m : Model} {id : NodeId} {d : Data} {c : Compiled}
  {s : Session} {first : Channel × FieldDef} {field : String}

-- ---------------------------------------------------------------------------
-- What is computed
-- ---------------------------------------------------------------------------

def Transform.outputs : Transform → List String
  | .formula _ target => [target]
  | .bin b => [b.start, b.end]
  | .aggregate _ measures => measures.map fun (op, field) => (Derivation.aggregate op).name field
  | .stack _ _ _ start last _ => [start, last]
  | .filter _ | .extent _ _ | .impute _ _ _ | .collect _ => []

namespace Model

def outputs (o : Options) (m : Model) : List String := (m.stages o).flatMap Transform.outputs

theorem binning_subset_stages (o : Options) (m : Model) :
    (Binning.ofModel m o.numberFormat).transforms ⊆ m.stages o := by
  intro t ht
  simp [stages, ht]

theorem mem_outputs_of_binner (h : m.binner? field = some first) (hc : first.2.isCount = false) :
    (Derivation.bin .start).name field ∈ m.outputs o := by
  obtain ⟨b, hb, -, hstart, -⟩ := Binning.exists_bin o.numberFormat h hc
  refine List.mem_flatMap.mpr ⟨_, binning_subset_stages o m hb, ?_⟩
  rw [← hstart]
  exact List.mem_cons_self

-- ---------------------------------------------------------------------------
-- Where the chain of a facet begins
-- ---------------------------------------------------------------------------

theorem exists_chainNodes_of_facet (o : Options) (h : m.facet?.isSome) :
    ∃ rest, rest ≠ [] ∧ m.chainNodes o = .facet (.ofModel m) :: rest := by
  obtain ⟨raw, hraw⟩ : ∃ raw, (m.rawLinks o).filterMap Link.node? = .facet (.ofModel m) :: raw := by
    rw [rawLinks, facetLinks, if_pos h]
    exact ⟨_, rfl⟩
  refine ⟨_, ?_, by rw [chainNodes, hraw, List.cons_append]⟩
  simp

end Model

theorem Session.Reads.exists_facet (h : s.Reads o id d (above ++ [m])) (hm : m.facet?.isSome) :
    ∃ t d' way u, t.label.id ∈ s.roots ∧ s.graph.forest.Leads [t.label] t ∧
      t.label.node = .source (.ofData d') ∧ d'.identity = d.identity ∧ t.below.Leads way u ∧
      u.label.node = .facet (.ofModel m) ∧
      (t.label :: way).flatMap (·.node.transforms) = above.flatMap (Model.stages o) := by
  obtain ⟨t, d', way, u, hroot, htop, hsource, hd, hu, -, hway⟩ := h.exists_leads
  obtain ⟨rest, hrest, hchain⟩ := m.exists_chainNodes_of_facet o hm
  rw [Blurred, List.flatMap_append, List.flatMap_singleton, hchain, ← List.cons_append,
    List.map_append] at hway
  obtain ⟨before, _, rfl, hbefore, hway⟩ := List.map_eq_append_iff.mp hway
  obtain ⟨v, after, rfl, hv, hafter⟩ := List.map_eq_cons_iff.mp hway
  have hfacet : v.node = .facet (.ofModel m) := Node.eq_of_blurred_eq hv rfl
  have hne : after ≠ [] := by
    rintro rfl
    exact hrest (List.map_eq_nil_iff.mp hafter.symm)
  rw [← List.singleton_append, ← List.append_assoc] at hu
  obtain ⟨w, hw, -⟩ := hu.split (by simp) hne
  obtain rfl : v = w.label := by simpa using hw.getLast?
  refine ⟨t, d', _, w, hroot, htop, hsource, hd, hw, hfacet, ?_⟩
  rw [List.flatMap_cons, List.flatMap_append, Blurred.transforms hbefore, hsource,
    List.flatMap_singleton, hfacet]
  exact List.append_nil _

def FacetSplit.sides : List (String × Channel) := [("row_", .row), ("column_", .column)]

theorem FacetSplit.indexRecord_mem {side : String × Channel} (hside : side ∈ sides)
    (hfield : m.field? side.2 none = some field) (name : String) :
    indexRecord side.1 field name ∈
      ({ ofModel m with source := some name } : FacetSplit).records := by
  rcases List.mem_pair.mp hside with rfl | rfl
  · have hrow : (ofModel m).row = some field := hfield
    simp [records, hrow]
  · have hcolumn : (ofModel m).column = some field := hfield
    simp [records, hcolumn]

-- ---------------------------------------------------------------------------
-- Charts
-- ---------------------------------------------------------------------------

/-- If a chart compiles to records of different names, there is an index record for each side of
each facet. It reads the one record that stands for the data of the facet with the stages of the
models above it, from the owner of the data down. So the field that it groups by is computed there
if and only if one of those models computes it. -/
theorem ChartSpec.facet_reads_above {spec : ChartSpec} {chart t : Tree Model}
    (hr : spec.resolve = .ok chart) (hok : spec.compile o = .ok c)
    (hn : (c.data.filterMap Record.name).Nodup)
    (hl : (Forest.tree chart.label chart.below).Leads path t) (hf : t.label.facet?.isSome) :
    ∃ d above name r, Lineage path d (above ++ [t.label]) ∧
      c.data.filter (·.name == some name) = [r] ∧
      (∀ content, Unfolds c.data r content ↔
        content = ⟨d.url, d.values, above.flatMap (Model.stages o)⟩) ∧
      ∀ side ∈ FacetSplit.sides, ∀ field, t.label.field? side.2 none = some field →
        FacetSplit.indexRecord side.1 field name ∈ c.data ∧
        ((∃ content, Unfolds c.data r content ∧
            ∃ transform ∈ content.transforms, field ∈ transform.outputs) ↔
          ∃ m ∈ above, field ∈ m.outputs o) := by
  obtain ⟨s, hs, hfinish⟩ := compile_ok hr hok
  have hcontext : Session.Context { options := o } o [] none := fun _ hm => nomatch hm
  have hstart := Session.sound_start o
  have hsound := (hstart.addModels rfl hcontext hs).1.sound
  have hkind : t.label.kind ≠ .layer := fun hlayer => by simp [Model.facet?, hlayer] at hf
  obtain ⟨d, line, main, hline, hreads⟩ := hstart.exists_reads rfl hcontext hs hl hkind
  rw [List.nil_append] at hline
  obtain ⟨above, rfl⟩ : ∃ above, line = above ++ [t.label] :=
    ⟨_, (List.dropLast_append_getLast? _ (hline.getLast?.trans hl.getLast?)).symm⟩
  obtain ⟨source, d', way, u, hroot, htop, hsource, hd, hu, hfacet, hstages⟩ :=
    hreads.exists_facet hf
  obtain rfl := Data.identity_injective hd
  obtain ⟨hrecords, -⟩ := Session.finish_ok hfinish
  obtain ⟨name, r, hone, hunfold, hindex⟩ := Graph.splits_of_prune hsound.wellFormed
    hsound.sourceRoots hrecords hn hroot (hsound.wellFormed.tree?_eq htop) hsource hu hfacet
  rw [hstages] at hunfold
  refine ⟨d', above, name, r, hline, hone, hunfold, fun side hside field hfield =>
    ⟨hindex _ (FacetSplit.indexRecord_mem hside hfield name), ?_⟩⟩
  simp only [hunfold, exists_eq_left, Model.outputs, List.mem_flatMap]
  constructor
  · rintro ⟨transform, ⟨m, hm, ht⟩, hout⟩
    exact ⟨m, hm, transform, ht, hout⟩
  · rintro ⟨m, hm, transform, ht, hout⟩
    exact ⟨transform, ⟨m, hm, ht⟩, hout⟩

def ChartSpec.points : ChartSpec where
  name := none
  data := none
  mark := some { mark := .point }
  encoding := []
  transform := []
  facet := none
  inner := none
  layer := []

def ChartSpec.split (inner : ChartSpec) (data : Option Data) (facet : FacetDef) : ChartSpec where
  name := none
  data
  mark := none
  encoding := []
  transform := []
  facet := some facet
  inner := some inner
  layer := []

def ChartSpec.binnedTwice : ChartSpec :=
  (points.split none { column := some (.binned none) }).split (some { url := some "a.json" })
    { row := some (.binned none) }

theorem ChartSpec.facet_reads_above_sample : ∃ c name r, binnedTwice.compile {} = .ok c ∧
    FacetSplit.indexRecord "column_" "bin_a_start" name ∈ c.data ∧
    c.data.filter (·.name == some name) = [r] ∧
    ∃ content, Unfolds c.data r content ∧
      ∃ transform ∈ content.transforms, "bin_a_start" ∈ transform.outputs := by
  obtain ⟨c, hok, hnames⟩ : ∃ c, binnedTwice.compile {} = .ok c ∧
      c.data.filterMap Record.name =
        ["source_0", "row_source_0", "main", "column_main", "child_main"] :=
    exists_of_toOption (by decide +kernel)
  obtain ⟨chart, hr, rows, columns, below, hl, hfacet, hfield, hnone, hown, hbinner⟩ : ∃ chart,
      binnedTwice.resolve = .ok chart ∧ ∃ rows columns below,
        (Forest.tree chart.label chart.below).Leads [rows, columns] ⟨columns, below⟩ ∧
        columns.facet?.isSome ∧ columns.field? .column none = some "bin_a_start" ∧
        columns.data = none ∧ rows.data.isSome ∧ rows.binner? "a" = some (.row, .binned none) :=
    ⟨_, rfl, _, _, _, Leads.here.down, rfl, rfl, rfl, rfl, rfl⟩
  obtain ⟨d, above, name, r, hline, hone, -, hsides⟩ :=
    facet_reads_above hr hok (by rw [hnames]; decide) hl hfacet
  obtain ⟨hindex, hiff⟩ := hsides _ (List.mem_cons_of_mem _ List.mem_cons_self) _ hfield
  refine ⟨c, name, r, hok, hindex, hone,
    hiff.mpr ⟨rows, ?_, Model.mem_outputs_of_binner hbinner rfl⟩⟩
  -- the columns have no data of their own, and the rows around them have
  have hline : Lineage ([rows] ++ [columns]) d (above ++ [columns]) := hline
  rcases lineage_concat.mp hline with ⟨hd, -⟩ | ⟨-, line, hrows, he⟩
  · rw [hnone] at hd
    cases hd
  · have hrows : Lineage ([] ++ [rows]) d line := hrows
    rcases lineage_concat.mp hrows with ⟨-, rfl⟩ | ⟨hd, -⟩
    · simp [(List.append_inj' he rfl).1]
    · simp [hd] at hown

def ChartSpec.binnedRows : ChartSpec :=
  points.split (some { url := some "a.json" }) { row := some (.binned none) }

def Record.shown (r : Record) : Option String × Option String × List String :=
  (r.name, r.source, r.transform.flatMap Transform.outputs)

theorem ChartSpec.shown_binnedRows : ∃ c, binnedRows.compile {} = .ok c ∧
    c.data.map Record.shown = [(some "source_0", none, []),
      (some "row_source_0", some "source_0", []),
      (some "main", some "source_0", ["bin_a_start", "bin_a_end"])] :=
  exists_of_toOption (by decide +kernel)

/-- Not every field that an index record groups by is computed in what the record reads. -/
theorem ChartSpec.facet_reads_missing : ¬ ∀ (spec : ChartSpec) (o : Options) (c : Compiled)
    (chart t : Tree Model) (path : List Model) (side : String × Channel) (e : FieldDef)
    (field : String), spec.resolve = .ok chart → spec.compile o = .ok c →
    (c.data.filterMap Record.name).Nodup →
    (Forest.tree chart.label chart.below).Leads path t → t.label.facet?.isSome →
    side ∈ FacetSplit.sides → t.label.fieldDef? side.2 = some e →
    (e.isBinned = true ∨ e.timeUnit.isSome) → t.label.field? side.2 none = some field →
    ∃ name, FacetSplit.indexRecord side.1 field name ∈ c.data ∧ ∃ r ∈ c.data, r.name = some name ∧
      ∃ content, Unfolds c.data r content ∧
        ∃ transform ∈ content.transforms, field ∈ transform.outputs := by
  intro h
  obtain ⟨c, hok, hdata⟩ := shown_binnedRows
  have hnames : c.data.filterMap Record.name = ["source_0", "row_source_0", "main"] := by
    have hmap := congrArg (List.filterMap Prod.fst) hdata
    rwa [List.filterMap_map] at hmap
  obtain ⟨name, hindex, r, hr, hname, content, hunfolds, transform, htransform, hfield⟩ :=
    h binnedRows {} c _ _ _ ("row_", .row) _ "bin_a_start" rfl hok (by rw [hnames]; decide) .here
      rfl List.mem_cons_self rfl (.inl rfl) rfl
  have hindex := List.mem_map_of_mem (f := Record.shown) hindex
  have hr := List.mem_map_of_mem (f := Record.shown) hr
  simp only [hdata, Record.shown, FacetSplit.indexRecord, hname, List.mem_cons, Prod.mk.injEq,
    Option.some.injEq, List.not_mem_nil, or_false] at hindex hr
  -- the index record of the rows reads the source
  obtain rfl : name = "source_0" := by
    rcases hindex with ⟨-, h, -⟩ | ⟨-, h, -⟩ | ⟨-, h, -⟩
    · cases h
    · exact h
    · exact h
  -- which computes nothing
  rcases hr with ⟨-, hsource, hout⟩ | ⟨he, -⟩ | ⟨he, -⟩
  · cases hunfolds with
    | origin =>
      have hmem := List.mem_flatMap.mpr ⟨_, htransform, hfield⟩
      rw [hout] at hmem
      cases hmem
    | link h =>
      rw [hsource] at h
      cases h
  · exact absurd he (by decide)
  · exact absurd he (by decide)

end ChartPipeline
