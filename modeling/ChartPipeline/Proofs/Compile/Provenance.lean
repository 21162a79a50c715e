import ChartPipeline.Compile
import ChartPipeline.Proofs.Assembly.Optimized
import ChartPipeline.Proofs.Node.Identity
import ChartPipeline.Proofs.Session.Ends
import ChartPipeline.Proofs.Session.Finish

/-!
# Where the rows of a chart come from

When a chart compiles, the main checkpoint of each of its models is known by the name of a record.
That unfolds to the data that the model works on, with the stages of all models from the owner of
the data down.
-/

namespace ChartPipeline

open Assembly
open Forest (Leads kept lastKept)
open ChartPipeline.Graph (drops)
open Record (Unfolds)

variable {s s' : Session} {o : Options} {path : List Model} {m : Model} {id : NodeId} {d : Data}
  {line : List Model} {c : Compiled} {way : List Vertex} {u : Tree Vertex}

def Blurred (path : List Vertex) (nodes : List Node) : Prop :=
  path.map (fun v => v.node.blurred) = nodes.map Node.blurred

theorem Blurred.transforms (h : Blurred way (.parse [] :: line.flatMap (Model.chainNodes o))) :
    way.flatMap (·.node.transforms) = line.flatMap (Model.stages o) := by
  have hblur (nodes : List Node) :
      (nodes.map Node.blurred).flatMap Node.transforms = nodes.flatMap Node.transforms := by
    simp only [List.flatMap_map, Node.transforms_blurred]
  calc way.flatMap (·.node.transforms)
      = (way.map fun v => v.node.blurred).flatMap Node.transforms := by
        simp only [List.flatMap_map, Node.transforms_blurred]
    _ = (line.flatMap (Model.chainNodes o)).flatMap Node.transforms := by
        rw [h, hblur]
        rfl
    _ = line.flatMap (Model.stages o) := by
        simp only [List.flatMap_assoc, Model.transforms_chainNodes]

namespace Session

-- ---------------------------------------------------------------------------
-- Main checkpoints
-- ---------------------------------------------------------------------------

theorem Reads.exists_leads (h : s.Reads o id d line) : ∃ t d' way u,
    t.label.id ∈ s.roots ∧ s.graph.forest.Leads [t.label] t ∧
      t.label.node = .source (.ofData d') ∧ d'.identity = d.identity ∧
      t.below.Leads way u ∧ u.label.id = id ∧
      Blurred way (.parse [] :: line.flatMap (Model.chainNodes o)) := by
  obtain ⟨root, d', added, hroot, hd, ⟨whole, u, hl, hid, hwhole⟩, hadded⟩ := h
  obtain ⟨v, way, rfl, hv, rfl⟩ := List.map_eq_cons_iff.mp hwhole
  have hv := Vertex.eq_of_blurred_source hv
  have hblurred : Blurred way (.parse [] :: line.flatMap (Model.chainNodes o)) := by
    rw [Blurred, ← hadded, List.map_map]
    rfl
  have hne : way ≠ [] := by
    rintro rfl
    cases hblurred
  have hl : s.graph.forest.Leads ([v] ++ way) u := hl
  obtain ⟨t, ht, hu⟩ := hl.split (by simp) hne
  have hlast : v = t.label := by simpa using ht.getLast?
  subst hlast
  refine ⟨t, d', way, u, ?_, ht, by rw [hv], hd, hu, hid, hblurred⟩
  rw [hv]
  exact List.mem_map_of_mem hroot

-- ---------------------------------------------------------------------------
-- Outputs
-- ---------------------------------------------------------------------------

theorem Built.stands (hs : s.Sound) (hb : s.Built o path m) (hlast : path.getLast? = some m)
    (hok : s.finish.2 = .ok c) (hn : (c.data.filterMap Record.name).Nodup) :
    ∃ d line name r, Lineage path d line ∧ c.source? m.mainName = some name ∧
      c.data.filter (·.name == some name) = [r] ∧
      ∀ content, Unfolds c.data r content ↔
        content = ⟨d.url, d.values, line.flatMap (Model.stages o)⟩ := by
  obtain ⟨d, line, main, hline, hmain, hreads⟩ := hb
  obtain ⟨t, d', way, u, hroot, htop, hsource, hd, hu, rfl, hway⟩ := hreads.exists_leads
  have hroots := hs.sourceRoots
  -- the line ends with the model itself
  obtain ⟨above, rfl⟩ : ∃ above, line = above ++ [m] :=
    ⟨_, (List.dropLast_append_getLast? _ (hline.getLast?.trans hlast)).symm⟩
  -- no checkpoint above it in the chain is left
  have hchain : way.map (fun v => v.node.blurred) = (.parse [] :: above.flatMap (Model.chainNodes o) ++
      m.chainNodes o).map Node.blurred := by
    rw [hway, List.flatMap_append, List.flatMap_singleton, List.cons_append]
  obtain ⟨_, main, hends⟩ := endsWith_of_blurred hchain
  obtain ⟨before, rfl, -, hdrops⟩ := hends.drops_main
  have hlabel := Option.some.inj (hu.getLast?.symm.trans List.getLast?_concat)
  obtain ⟨u', hu', he⟩ := hu.exists_prune (by rw [hlabel, List.dropLast_concat]; exact hdrops t.label)
  have hcheckpoint : u.label.node = .checkpoint { name := m.mainName, required := true } := by
    rw [hlabel]
  obtain ⟨hrecords, houtputs⟩ := finish_ok hok
  obtain ⟨name, r, hnode, hone, hunfold⟩ := Graph.stands_of_prune hs.wellFormed hroots hrecords hn
    hroot (hs.wellFormed.tree?_eq htop) hsource hu' (he ▸ hcheckpoint)
  rw [he] at hnode
  -- the checkpoint is still below its source, so it was not detached
  have hw := hs.wellFormed.optimize s.roots
  have hpos := (Graph.leads_root hs.wellFormed hroots hroot (hs.wellFormed.tree?_eq htop)).append hu'
  have hapart : Graph.Apart s.graph := by simp [Graph.Apart, hs.attached]
  have hdetached := (hapart.optimize s.roots).isDetached_eq hw hpos hu'.ne_nil
  rw [he] at hdetached
  refine ⟨d, above ++ [m], name, r, hline, ?_, hone, fun content => ?_⟩
  · rw [Compiled.source?, houtputs]
    refine find?_bindings hmain hnode ?_
    rw [Graph.isDetached, detached_assemble]
    exact hdetached
  · rw [hunfold, List.flatMap_cons, hsource, hway.transforms, ← Data.identity_injective hd]
    rfl

end Session

-- ---------------------------------------------------------------------------
-- Charts
-- ---------------------------------------------------------------------------

theorem ChartSpec.compile_ok {spec : ChartSpec} {chart : Tree Model} (hr : spec.resolve = .ok chart)
    (h : spec.compile o = .ok c) :
    ∃ s, Session.addModels none (.tree chart.label chart.below) { options := o } = .ok s ∧
      s.finish.2 = .ok c := by
  rw [compile, compileTelling, hr] at h
  dsimp only at h
  unfold Options.compileTree at h
  cases hs : ({ options := o } : Session).addChart chart with
  | error failure =>
    rw [hs] at h
    cases h
  | ok one =>
    rw [hs] at h
    exact ⟨one.1, by rw [Session.addModels_tree, hs]; rfl, h⟩

/-- If a chart compiles to records of different names, and the main checkpoints of its models have
different names too, then every model but a layer without data has the name of exactly one record
for its main checkpoint. That unfolds to the data of the nearest model with data of its own, with
the stages of all models from there down. -/
theorem ChartSpec.compile_provenance {spec : ChartSpec} {chart : Tree Model} {t : Tree Model}
    (hr : spec.resolve = .ok chart) (hok : spec.compile o = .ok c)
    (hrecords : (c.data.filterMap Record.name).Nodup)
    (hmodels : (((Forest.tree chart.label chart.below).chained false).map Model.mainName).Nodup)
    (hl : (Forest.tree chart.label chart.below).Leads path t)
    (hchain : t.label.kind ≠ .layer ∨ ∃ m ∈ path, m.data ≠ none) :
    ∃ d line name r, Lineage path d line ∧ c.source? t.label.mainName = some name ∧
      c.data.filter (·.name == some name) = [r] ∧
      ∀ content, Unfolds c.data r content ↔
        content = ⟨d.url, d.values, line.flatMap (Model.stages o)⟩ := by
  obtain ⟨s, hs, hfinish⟩ := compile_ok hr hok
  have hcontext : Session.Context { options := o } o [] none := fun _ hm => nomatch hm
  obtain ⟨hgrown, hbuilt⟩ := (Session.sound_start o).addModels rfl hcontext hs
  rcases hbuilt hmodels path t hl with ⟨hlayer, hdata⟩ | ⟨-, hbuilt⟩
  · rcases hchain with hkind | ⟨m, hm, hown⟩
    · exact absurd hlayer hkind
    · exact absurd (hdata m hm) hown
  · exact hbuilt.stands hgrown.sound hl.getLast? hfinish hrecords

def ChartSpec.sample : ChartSpec where
  name := none
  data := some { name := some "table", values := some [] }
  mark := none
  encoding := []
  transform := [.calculate { expr := "datum.a", target := "b" }]
  facet := none
  inner := none
  layer := [
    { name := none, data := none, mark := some { mark := .point }, encoding := []
      transform := [.filter (.one (.expr "datum.b > 0"))], facet := none, inner := none
      layer := [] }]

theorem ChartSpec.compile_provenance_sample : ∃ c r, sample.compile {} = .ok c ∧
    c.source? "layer_0_main" = r.name ∧ r ∈ c.data ∧
    Unfolds c.data r ⟨none, some [], [.formula "datum.a" "b", .filter "datum.b > 0"]⟩ := by
  obtain ⟨chart, hr, hmodels⟩ : ∃ chart, sample.resolve = .ok chart ∧
      (((Forest.tree chart.label chart.below).chained false).map Model.mainName).Nodup :=
    ⟨_, rfl, by decide⟩
  cases hr
  have hnames : ((sample.compile {}).toOption.map fun c => c.data.filterMap Record.name) =
      some ["table", "layer_0_main"] := by decide +kernel
  cases hok : sample.compile {} with
  | error cause => simp [hok, Except.toOption] at hnames
  | ok c =>
    have hnames : c.data.filterMap Record.name = ["table", "layer_0_main"] := by
      simpa [hok, Except.toOption] using hnames
    obtain ⟨d, line, name, r, hline, hsource, hone, hunfold⟩ := compile_provenance rfl hok
      (by rw [hnames]; decide) hmodels (Leads.here.down) (.inr ⟨_, List.mem_cons_self, by simp⟩)
    -- the points have no data of their own, and the layer around them has
    have hline : Lineage ([_] ++ [_]) d line := hline
    rcases lineage_concat.mp hline with ⟨hd, -⟩ | ⟨-, above, habove, rfl⟩
    · cases hd
    have habove : Lineage ([] ++ [_]) d above := habove
    rcases lineage_concat.mp habove with ⟨hd, rfl⟩ | ⟨hd, -⟩
    · cases hd
      obtain ⟨hr, hname⟩ := List.mem_filter.mp (hone ▸ List.mem_singleton_self r)
      refine ⟨c, r, rfl, ?_, hr, (hunfold _).mpr rfl⟩
      rw [beq_iff_eq.mp hname]
      exact hsource
    · cases hd

end ChartPipeline
