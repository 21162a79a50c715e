import ChartPipeline.Proofs.Compile.Coercions
import ChartPipeline.Proofs.Model.Resolve
import ChartPipeline.Proofs.Session.Checkpoints
import ChartPipeline.Proofs.Session.Named
import ChartPipeline.Proofs.Session.Required

/-!
# The names of records

Where a chart gives no names, every record gets one, and two records get the same one only if they
hold the rows, or the columns, of two facets of the same record (`ChartSpec.name_eq_iff`).
-/

namespace ChartPipeline

open Assembly
open FacetSplit (indexRecord)

/-- Index records of the same direction over the same record. -/
def Record.Siblings (r q : Record) : Prop :=
  ∃ label ∈ FacetSplit.labels, ∃ source field field',
    r = indexRecord label field source ∧ q = indexRecord label field' source

/-- A name that is given where a chart gives none: that of a source, or of a checkpoint. -/
def IsDefault (name : String) : Prop :=
  (∃ i, name = "source_" ++ Nat.repr i) ∨ TellsPlace name

variable {s : Session} {c : Compiled} {o : Options} {t : Tree Vertex} {v w : Vertex}
  {name : String} {r q : Record} {steps : List Step}

-- ---------------------------------------------------------------------------
-- Kinds of names
-- ---------------------------------------------------------------------------

theorem TellsPlace.take (h : TellsPlace name) :
    name.toList.take 2 ∈ [['r', 'a'], ['m', 'a'], ['c', 'h'], ['l', 'a']] := by
  obtain ⟨place, text, htext, rfl⟩ := h
  rw [toList_joinName]
  cases place with
  | nil => rcases List.mem_pair.mp htext with rfl | rfl <;> decide
  | cons step place => cases step <;> simp [spelled_cons, Inside.text]

theorem take_sourceName (i : Nat) : ("source_" ++ Nat.repr i).toList.take 2 = ['s', 'o'] := by simp

theorem not_tellsPlace_sourceName (i : Nat) : ¬ TellsPlace ("source_" ++ Nat.repr i) := fun h => by
  have htake := h.take
  rw [take_sourceName] at htake
  exact absurd htake (by decide)

theorem IsDefault.ne_label {label source : String} (h : IsDefault name)
    (hl : label ∈ FacetSplit.labels) : name ≠ label ++ source := by
  rintro rfl
  have htake : (label ++ source).toList.take 2 ∈ [['c', 'o'], ['r', 'o']] := by
    rcases List.mem_pair.mp hl with rfl | rfl <;> simp
  rcases h with ⟨i, hi⟩ | h
  · rw [hi, take_sourceName] at htake
    exact absurd htake (by decide)
  · have hplace := h.take
    generalize (label ++ source).toList.take 2 = first at htake hplace
    rcases List.mem_pair.mp htake with rfl | rfl <;> exact absurd hplace (by decide)

theorem label_injective {label label' source source' : String} (hl : label ∈ FacetSplit.labels)
    (hl' : label' ∈ FacetSplit.labels) (h : label ++ source = label' ++ source') :
    label = label' ∧ source = source' := by
  rcases List.mem_pair.mp hl with rfl | rfl <;> rcases List.mem_pair.mp hl' with rfl | rfl
  · exact ⟨rfl, by simpa using h⟩
  · simpa using congrArg String.toList h
  · simpa using congrArg String.toList h
  · exact ⟨rfl, by simpa using h⟩

-- ---------------------------------------------------------------------------
-- Labels
-- ---------------------------------------------------------------------------

section

variable {α β : Type} {f : α → Option β} {l : List α} {a b : α} {x : β}

theorem eq_of_nodup_filterMap (h : (l.filterMap f).Nodup) (ha : a ∈ l) (hb : b ∈ l)
    (hfa : f a = some x) (hfb : f b = some x) : a = b := by
  by_contra hne
  have hsymm : Std.Symm fun a a' => ∀ y, f a = some y → ∀ z, f a' = some z → y ≠ z :=
    ⟨fun a b hab y hy z hz he => hab z hz y hy he.symm⟩
  exact (List.pairwise_filterMap.mp h).forall ha hb hne x hfa x hfb rfl

theorem nodup_filterMap (hl : l.Nodup)
    (h : ∀ a ∈ l, ∀ b ∈ l, ∀ x, f a = some x → f b = some x → a = b) : (l.filterMap f).Nodup := by
  refine List.pairwise_filterMap.mpr (hl.imp_of_mem fun {a b} ha hb hne x hx y hy he => hne ?_)
  exact h a ha b hb x hx (he ▸ hy)

end

namespace Session

/-- A session that no names were given to: its data has none, and its checkpoints have different
ones that tell the places of models. -/
structure Unnamed (s : Session) : Prop where
  sound : s.Sound
  joinedForest : s.JoinedForest
  registered : s.Registered
  data : ∀ (d : Data) (id : NodeId), (d.identity, id) ∈ s.sources → d.name = none
  nodup : s.graph.forest.checkpoints.Nodup
  tellsPlace : ∀ name ∈ s.graph.forest.checkpoints, TellsPlace name

theorem Unnamed.label_cases (hu : s.Unnamed) (hv : v ∈ s.trees.flatMap Tree.toList)
    (hl : labelIn s.steps v = some name) :
    (∃ p ∈ s.trees.zipIdx, v = p.1.label ∧ name = "source_" ++ Nat.repr p.2) ∨
      v ∈ s.graph.forest.toList ∧ v.node.checkpointName? = some name := by
  have hs := hu.sound
  obtain ⟨hname, hplace⟩ := hu.joinedForest.exists_label hs hv hl
  refine hplace.imp_left ?_
  rintro ⟨t, ht, rfl⟩
  have hunnamed : ∀ t ∈ s.trees, declaredName? t = none := by
    intro t ht
    obtain ⟨u, d, -, rfl, hnode, hentry⟩ := hs.exists_root ht
    rw [declaredName?, hnode]
    exact hu.data d _ hentry
  obtain ⟨i, hi⟩ := List.mem_iff_getElem?.mp ht
  have hmem := List.mk_mem_zipIdx_iff_getElem?.mpr hi
  exact ⟨_, hmem, rfl, name_unique hs.planted.nodup_stepsOf hname (hs.planted.numbered hunnamed _ hmem)⟩

theorem Unnamed.tellsPlace_of_mem (hu : s.Unnamed) (hv : v ∈ s.graph.forest.toList)
    (hname : v.node.checkpointName? = some name) : TellsPlace name :=
  hu.tellsPlace name (List.mem_filterMap.mpr ⟨v, hv, hname⟩)

theorem Unnamed.exists_names (hu : s.Unnamed) : ∃ names : List String,
    (emittedOf s.steps).map Record.name = names.map some ∧ names.Nodup ∧
      ∀ name ∈ names, IsDefault name := by
  obtain ⟨names, hnames, taken, hperm, htaken⟩ := hu.joinedForest.labelled hu.sound
  have hnodup : ((s.trees.flatMap Tree.toList).filterMap (labelIn s.steps)).Nodup := by
    refine nodup_filterMap (List.Nodup.of_map _ hu.sound.planted.nodup_ids) ?_
    intro v hv w hw name hl hl'
    rcases hu.label_cases hv hl with ⟨⟨t, i⟩, hp, rfl, rfl⟩ | ⟨hv, hname⟩ <;>
      rcases hu.label_cases hw hl' with ⟨⟨u, j⟩, hq, rfl, hsame⟩ | ⟨hw, hname'⟩
    · have ht := List.mk_mem_zipIdx_iff_getElem?.mp hp
      have hu := List.mk_mem_zipIdx_iff_getElem?.mp hq
      obtain rfl : i = j := sourceName_injective hsame
      obtain rfl := Option.some.inj (ht.symm.trans hu)
      rfl
    · exact absurd (hu.tellsPlace_of_mem hw hname') (not_tellsPlace_sourceName _)
    · exact absurd (hsame ▸ hu.tellsPlace_of_mem hv hname) (not_tellsPlace_sourceName _)
    · exact eq_of_nodup_filterMap hu.nodup hv hw hname hname'
  refine ⟨names, hnames, hperm.nodup_iff.mp (hnodup.sublist htaken), fun name hname => ?_⟩
  obtain ⟨v, hv, hl⟩ := List.mem_filterMap.mp (htaken.subset (hperm.symm.subset hname))
  rcases hu.label_cases hv hl with ⟨p, -, -, rfl⟩ | ⟨hv, hname⟩
  · exact .inl ⟨_, rfl⟩
  · exact .inr (hu.tellsPlace_of_mem hv hname)

end Session

-- ---------------------------------------------------------------------------
-- Records
-- ---------------------------------------------------------------------------

theorem Record.Siblings.symm (h : r.Siblings q) : q.Siblings r := by
  obtain ⟨label, hl, source, field, field', hr, hq⟩ := h
  exact ⟨label, hl, source, field', field, hq, hr⟩

theorem Record.Siblings.not_default (h : r.Siblings q) (hr : r.name = some name) :
    ¬ IsDefault name := by
  obtain ⟨label, hl, source, field, field', rfl, -⟩ := h
  rw [← Option.some.inj hr]
  exact fun hd => hd.ne_label hl rfl

theorem indexRecord_name_eq_iff {label label' source source' field field' : String}
    (hl : label ∈ FacetSplit.labels) (hl' : label' ∈ FacetSplit.labels) :
    (indexRecord label field source).name = (indexRecord label' field' source').name ↔
      (indexRecord label field source).Siblings (indexRecord label' field' source') := by
  constructor
  · intro h
    obtain ⟨rfl, rfl⟩ := label_injective hl hl' (Option.some.inj h)
    exact ⟨label, hl, source, field, field', rfl, rfl⟩
  · rintro ⟨_, -, _, _, _, hr, hq⟩
    rw [hr, hq]
    rfl

/-- Records with different default names, together with index records, share names only among the
index records of the same direction over the same record. -/
theorem pairwise_name_eq_iff {emitted indexed records : List Record} {names : List String}
    (hp : records.Perm (emitted ++ indexed)) (hnames : emitted.map Record.name = names.map some)
    (hn : names.Nodup) (hd : ∀ name ∈ names, IsDefault name)
    (hi : ∀ r ∈ indexed, ∃ label ∈ FacetSplit.labels, ∃ field source,
      r = indexRecord label field source) :
    (∀ r ∈ records, r.name ≠ none) ∧
      records.Pairwise fun r q => r.name = q.name ↔ r.Siblings q := by
  have hname : ∀ r ∈ emitted, ∃ name, r.name = some name ∧ IsDefault name := by
    intro r hr
    have hmem := hnames ▸ List.mem_map_of_mem (f := Record.name) hr
    obtain ⟨name, hname, he⟩ := List.mem_map.mp hmem
    exact ⟨name, he.symm, hd name hname⟩
  constructor
  · intro r hr
    rcases List.mem_append.mp (hp.subset hr) with hr | hr
    · obtain ⟨name, he, -⟩ := hname r hr
      simp [he]
    · obtain ⟨label, -, field, source, rfl⟩ := hi r hr
      simp [indexRecord]
  · have hsymm {r q : Record} (h : r.name = q.name ↔ r.Siblings q) :
        q.name = r.name ↔ q.Siblings r :=
      ⟨fun he => (h.mp he.symm).symm, fun hs => (h.mpr hs.symm).symm⟩
    refine (hp.pairwise_iff hsymm).mpr (List.pairwise_append.mpr ⟨?_, ?_, fun r hr q hq => ?_⟩)
    · have hdistinct : (emitted.map Record.name).Nodup :=
        hnames ▸ hn.map (Option.some_injective _)
      refine (List.pairwise_map.mp hdistinct).imp_of_mem fun {r q} hr _ hne => ?_
      obtain ⟨name, he, hdefault⟩ := hname r hr
      exact ⟨fun hsame => absurd hsame hne, fun hs => absurd hdefault (hs.not_default he)⟩
    · refine List.pairwise_of_forall_mem_list fun r hr q hq => ?_
      obtain ⟨label, hl, field, source, rfl⟩ := hi r hr
      obtain ⟨label', hl', field', source', rfl⟩ := hi q hq
      exact indexRecord_name_eq_iff hl hl'
    · obtain ⟨name, he, hdefault⟩ := hname r hr
      obtain ⟨label, hl, field, source, rfl⟩ := hi q hq
      refine ⟨fun hsame => ?_, fun hs => absurd hdefault (hs.not_default he)⟩
      exact absurd (Option.some.inj (he.symm.trans hsame)) (hdefault.ne_label hl)

-- ---------------------------------------------------------------------------
-- Charts
-- ---------------------------------------------------------------------------

theorem sublist_added (chart : Tree Model) :
    ((Call.chart chart).added.map Prod.fst).Sublist chart.toList := by
  have hplaced (models : List (Model × Option Data)) : ((models.filterMap fun r =>
      r.2.map (r.1, ·)).map Prod.fst).Sublist (models.map Prod.fst) := by
    induction models with
    | nil => exact .slnil
    | cons r models ih =>
      obtain ⟨m, d⟩ := r
      cases d with
      | none => exact ih.cons m
      | some d => exact ih.cons_cons m
  rw [← Forest.toList_tree, ← Forest.map_fst_reading _ none]
  exact (hplaced _).trans ((List.takeWhile_sublist _).map Prod.fst)

theorem ChartSpec.exists_resolve {spec : ChartSpec} (hok : spec.compile o = .ok c) :
    ∃ chart, spec.resolve = .ok chart := by
  rw [compile, compileTelling] at hok
  split at hok
  · exact ⟨_, ‹_›⟩
  · cases hok

theorem ChartSpec.exists_unnamed {spec : ChartSpec} (hu : spec.isUnnamed = true)
    (hok : spec.compile o = .ok c) : ∃ s : Session, s.Unnamed ∧ s.finish.2 = .ok c := by
  obtain ⟨chart, hr⟩ := exists_resolve hok
  obtain ⟨places, hplaces⟩ :=
    spread_resolve (fun chart hchart => (spec.of_isUnnamed hu chart hchart).1) hr
  obtain ⟨s, hchained, hfinish, hall⟩ := exists_session hr hok
  obtain ⟨hs, hf, hc⟩ := hchained.started
  -- the checkpoints are those of the models
  have hperm : s.graph.forest.checkpoints.Perm
      (Session.checkpointNames ((Call.chart chart).added.map Prod.fst)) :=
    hchained.perm_checkpoints (Session.sound_start o) (Session.joinedForest_start o)
  have hsub : (Session.checkpointNames ((Call.chart chart).added.map Prod.fst)).Sublist
      (chart.toList.flatMap fun m => suffixes.map m.nameOf) := (sublist_added chart).flatMap _
  have hnodup := hplaces.nodup_nameOf.sublist hsub
  have hstart : Session.Registered { options := o } := ⟨.nil, fun _ h => nomatch h⟩
  refine ⟨s, ⟨hs, hf, (hchained.standing (Session.sound_start o) hstart hnodup).1, fun d id h => ?_,
    hperm.nodup_iff.mpr hnodup, fun name hname => ?_⟩, hfinish⟩
  · obtain ⟨⟨m, d'⟩, hread, hd, hdata⟩ := (hc.keys d.identity).mp (List.mem_map_of_mem h)
    obtain rfl := Data.identity_injective hd
    obtain ⟨hm, hd⟩ := (mem_added_and_isSome hall).mp ⟨hread, hdata⟩
    exact data_name_eq_none hu hr hm _ hd
  · obtain ⟨m, hm, hname⟩ := List.mem_flatMap.mp (hsub.subset (hperm.subset hname))
    obtain ⟨text, htext, rfl⟩ := List.mem_map.mp hname
    exact hplaces.tellsPlace hm htext

/-- If a chart without names of its own compiles, all its records have names, and two of them have
the same name if and only if they are index records of the same direction over the same record. -/
theorem ChartSpec.name_eq_iff {spec : ChartSpec} (hu : spec.isUnnamed = true)
    (hok : spec.compile o = .ok c) : (∀ r ∈ c.data, r.name ≠ none) ∧
      c.data.Pairwise fun r q => r.name = q.name ↔ r.Siblings q := by
  obtain ⟨s, hs, hfinish⟩ := exists_unnamed hu hok
  obtain ⟨names, hnames, hnodup, hdefault⟩ := hs.exists_names
  have hdata : c.data = recordsOf s.steps := (records_eq_ok.mp (Session.finish_ok hfinish).1).2
  exact pairwise_name_eq_iff (hdata ▸ perm_recordsOf s.steps) hnames hnodup hdefault fun r hr =>
    hs.sound.exists_indexRecord hfinish hr

def ChartSpec.rows (field : String) : ChartSpec where
  name := none
  data := none
  mark := none
  encoding := []
  transform := []
  facet := some { row := some { field := some field, fieldType := some .nominal } }
  inner := some {
    name := none, data := none, mark := some { mark := .point }, encoding := [], transform := []
    facet := none, inner := none, layer := [] }
  layer := []

def ChartSpec.twoFacets : ChartSpec where
  name := none
  data := some { url := some "a.json" }
  mark := none
  encoding := []
  transform := []
  facet := none
  inner := none
  layer := [.rows "a", .rows "b"]

theorem ChartSpec.names_twoFacets : ∃ c, twoFacets.compile {} = .ok c ∧
    c.data.map Record.name = [some "source_0", some "row_source_0", some "row_source_0"] :=
  exists_of_toOption (by decide +kernel)

theorem ChartSpec.name_eq_iff_sample : ∃ c p r q, twoFacets.compile {} = .ok c ∧
    c.data = [p, r, q] ∧ r.Siblings q ∧ ¬ p.Siblings r := by
  obtain ⟨c, hok, hnames⟩ := names_twoFacets
  obtain ⟨-, hpairs⟩ := name_eq_iff (by decide +kernel) hok
  obtain ⟨p, records, hdata, hp, hnames⟩ := List.map_eq_cons_iff.mp hnames
  obtain ⟨r, records, rfl, hr, hnames⟩ := List.map_eq_cons_iff.mp hnames
  obtain ⟨q, rfl, hq⟩ := List.map_eq_singleton_iff.mp hnames
  rw [hdata, List.pairwise_cons, List.pairwise_pair] at hpairs
  refine ⟨c, p, r, q, hok, hdata, hpairs.2.mp (hr.trans hq.symm), fun hs => ?_⟩
  have hsame := (hpairs.1 r List.mem_cons_self).mpr hs
  rw [hp, hr] at hsame
  exact absurd hsame (by decide)

/-- Not all records have names of their own. -/
theorem ChartSpec.name_repeated : ¬ ∀ (spec : ChartSpec) (o : Options) (c : Compiled),
    spec.isUnnamed = true → spec.compile o = .ok c → (c.data.filterMap Record.name).Nodup := by
  intro h
  obtain ⟨c, hok, hnames⟩ := names_twoFacets
  have hnodup := h twoFacets {} c (by decide +kernel) hok
  have hlist : c.data.filterMap Record.name = ["source_0", "row_source_0", "row_source_0"] := by
    calc c.data.filterMap Record.name
        = (c.data.map Record.name).filterMap id := by rw [List.filterMap_map]; rfl
      _ = _ := by rw [hnames]; rfl
  rw [hlist] at hnodup
  exact absurd hnodup (by decide)

end ChartPipeline
