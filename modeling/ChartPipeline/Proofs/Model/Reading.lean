import ChartPipeline.Proofs.Session.Chains

/-!
# Which data the models of a chart read

A model reads the data of the nearest model that has some of its own, from itself upwards
(`Forest.mem_reading_iff`). The first model that finds none, and is no layer, is one with nothing but
layers without data above it (`Forest.find?_reading`).
-/

namespace ChartPipeline

variable {f : Forest Model} {inherited : Option Data} {m : Model} {d : Data} {path : List Model}

theorem exists_lineage_iff : (∃ line, Lineage path d line) ↔
    path.reverse.findSome? Model.data = some d := by
  induction path using List.reverseRecOn with
  | nil =>
    refine iff_of_false (fun ⟨line, h⟩ => ?_) (by simp)
    generalize hpath : ([] : List Model) = path at h
    cases h <;> simp at hpath
  | append_singleton path m ih =>
    rw [List.reverse_concat, List.findSome?_cons]
    cases hm : m.data with
    | some own => simp [lineage_concat, hm]
    | none => simpa [lineage_concat, hm] using ih

namespace Forest

/-- The model stands in the row, and the nearest model with data of its own, from there upwards, has
these. -/
def Reads (f : Forest Model) (m : Model) (d : Data) : Prop :=
  ∃ path t line, f.Leads path t ∧ t.label = m ∧ Lineage path d line

theorem reading_eq (f : Forest Model) (inherited : Option Data) :
    f.reading inherited = f.positions.map fun p =>
      (p.2, ((p.1 ++ [p.2]).reverse.findSome? Model.data).or inherited) := by
  induction f generalizing inherited with
  | nil => rfl
  | cons m below rest ihb ihr =>
    rw [reading, positions, ihb, ihr, List.map_cons, List.map_append, List.map_map]
    refine congrArg₂ _ ?_ (congrArg (· ++ _) (List.map_congr_left fun p _ => ?_))
    · cases hm : m.data <;> simp [hm]
    · have hfirst : ((m :: (p.1 ++ [p.2])).reverse.findSome? Model.data) =
          ((p.1 ++ [p.2]).reverse.findSome? Model.data).or m.data := by
        rw [List.reverse_cons, List.findSome?_append, List.findSome?_singleton]
      refine Prod.ext rfl ?_
      change Option.or _ (m.data <|> inherited) =
        ((m :: (p.1 ++ [p.2])).reverse.findSome? Model.data).or inherited
      rw [hfirst, Option.or_assoc, Option.orElse_eq_orElse, Option.orElse_eq_or]

theorem mem_reading_iff : (m, some d) ∈ f.reading none ↔ f.Reads m d := by
  rw [reading_eq, List.mem_map]
  constructor
  · rintro ⟨⟨above, n⟩, hn, he⟩
    simp only [Option.or_none, Prod.mk.injEq] at he
    obtain ⟨rfl, hd⟩ := he
    obtain ⟨below, hl⟩ := mem_positions.mp hn
    obtain ⟨line, hline⟩ := exists_lineage_iff.mpr hd
    exact ⟨_, _, line, hl, rfl, hline⟩
  · rintro ⟨path, t, line, hl, rfl, hline⟩
    have hd := exists_lineage_iff.mp ⟨line, hline⟩
    have hpath := hl.dropLast_append
    refine ⟨(path.dropLast, t.label), mem_positions.mpr ⟨t.below, by rwa [hpath]⟩, ?_⟩
    rw [hpath, hd, Option.some_or]

theorem map_fst_reading (f : Forest Model) (inherited : Option Data) :
    (f.reading inherited).map Prod.fst = f.toList := by
  rw [reading_eq, List.map_map, ← map_snd_positions]
  rfl

theorem eq_data_of_mem_reading {x : Option Data} (h : (m, x) ∈ f.reading inherited)
    (hm : m.data.isSome) : x = m.data := by
  rw [reading_eq] at h
  obtain ⟨p, -, he⟩ := List.mem_map.mp h
  obtain ⟨rfl, rfl⟩ := Prod.mk.inj he
  obtain ⟨d, hd⟩ := Option.isSome_iff_exists.mp hm
  simp [hd]

end Forest

namespace Model

/-- A model that draws or facets, where no data comes to it through the layers around it. -/
def isStranded : List Model × Model → Bool
  | (above, m) => !m.isLayer && m.data.isNone && above.all fun a => a.isLayer && a.data.isNone

theorem isStranded_nil (m : Model) : isStranded ([], m) = !stands (m, m.data) := by
  cases h : m.data <;> simp [isStranded, stands, h]

theorem isStranded_cons (m : Model) : isStranded ∘ (fun p => (m :: p.1, p.2)) =
    fun p => m.isLayer && m.data.isNone && isStranded p := by
  funext p
  simp only [Function.comp_apply, isStranded, List.all_cons]
  ac_rfl

end Model

theorem Forest.find?_reading_some (f : Forest Model) (d : Data) :
    (f.reading (some d)).find? (!Model.stands ·) = none := by
  rw [reading_eq, List.find?_eq_none]
  intro p hp
  obtain ⟨position, -, rfl⟩ := List.mem_map.mp hp
  simp [Model.stands]

theorem Forest.find?_reading (f : Forest Model) : (f.reading none).find? (!Model.stands ·) =
    (f.positions.find? Model.isStranded).map fun p => (p.2, none) := by
  induction f with
  | nil => rfl
  | cons m below rest ihb ihr =>
    have hdata : (m.data <|> none) = m.data := by simp
    rw [reading, positions, hdata, List.find?_cons, List.find?_cons, List.find?_append,
      List.find?_append, List.find?_map, Model.isStranded_cons, Model.isStranded_nil, ihr]
    cases hdata : m.data with
    | some d =>
      have hstands : (!Model.stands (m, some d)) = false := rfl
      simp only [hstands, find?_reading_some]
      simp [List.find?_eq_none.mpr]
    | none =>
      cases hstands : (!Model.stands (m, none)) with
      | true => rfl
      | false =>
        have hlayer : m.isLayer = true := by simpa [Model.stands] using hstands
        simp only [hlayer, ihb, Option.isNone_none, Bool.true_and]
        cases below.positions.find? Model.isStranded <;> rfl

end ChartPipeline
