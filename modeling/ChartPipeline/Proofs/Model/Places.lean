import ChartPipeline.Model
import ChartPipeline.Proofs.Forest.Position
import Mathlib.Data.List.Induction

/-!
# Default names

Where a chart gives no names, a model is named by its place: by the way from the root down to it. A
place can be read back from the names of its checkpoints (`spelled_injective`), so no two models of
such a chart have a name in common, and no two checkpoints (`ChartSpec.default_names_nodup`).
-/

namespace ChartPipeline

inductive Inside where
  | child
  | layer (index : Nat)
deriving DecidableEq

def Inside.text : Inside → String
  | .child => "child"
  | .layer index => "layer_" ++ Nat.repr index

/-- The name of a model at a place, if neither it nor a model around it has another one. -/
def placeName (place : List Inside) : String :=
  place.foldl (fun owner step => joinName owner step.text) ""

def spelled (place : List Inside) : List Char :=
  place.flatMap fun step => step.text.toList ++ ['_']

variable {place inner more : List Inside} {places later : List (List Inside)} {step : Inside}
  {m : Model} {models : List Model} {t : Tree Model} {a b : String} {x y : List Char}

-- ---------------------------------------------------------------------------
-- Reading places back
-- ---------------------------------------------------------------------------

theorem spelled_cons (step : Inside) (place : List Inside) :
    spelled (step :: place) = step.text.toList ++ '_' :: spelled place := by
  simp [spelled]

theorem placeName_concat (place : List Inside) (step : Inside) :
    placeName (place ++ [step]) = joinName (placeName place) step.text := by
  simp [placeName]

theorem text_ne_empty (step : Inside) : step.text ≠ "" := by
  cases step with
  | child => decide
  | layer index => simp [Inside.text]

theorem toList_joinName (place : List Inside) (text : String) :
    (joinName (placeName place) text).toList = spelled place ++ text.toList := by
  induction place using List.reverseRecOn generalizing text with
  | nil => rfl
  | append_singleton place step ih =>
    have hne : placeName (place ++ [step]) ≠ "" := by
      rw [placeName_concat, joinName]
      split
      · exact text_ne_empty step
      · simp
    rw [joinName, if_neg hne, placeName_concat]
    simp [ih, spelled]

theorem digits_injective {i j : Nat}
    (h : Nat.toDigits 10 i ++ '_' :: x = Nat.toDigits 10 j ++ '_' :: y) : i = j ∧ x = y := by
  have hdigits (n : Nat) (rest : List Char) :
      (Nat.toDigits 10 n ++ '_' :: rest).takeWhile Char.isDigit = Nat.toDigits 10 n := by
    rw [List.takeWhile_append_of_pos fun c hc =>
      Nat.isDigit_of_mem_toDigits (by decide) (by decide) hc]
    simp
  have hsame := congrArg (List.takeWhile Char.isDigit) h
  rw [hdigits, hdigits] at hsame
  have hij := congrArg (Nat.ofDigitChars 10 · 0) hsame
  simp only [Nat.ofDigitChars_ten_toDigits] at hij
  subst hij
  exact ⟨rfl, by simpa using h⟩

def suffixes : List String := ["raw", "main"]

theorem spelled_cons_ne (ha : a ∈ suffixes) (step : Inside) (b : String) :
    a.toList ≠ spelled (step :: place) ++ b.toList := by
  rcases List.mem_pair.mp ha with rfl | rfl <;> cases step <;> simp [spelled_cons, Inside.text]

/-- Different places are written differently. -/
theorem spelled_injective (ha : a ∈ suffixes) (hb : b ∈ suffixes)
    (h : spelled place ++ a.toList = spelled inner ++ b.toList) : place = inner ∧ a = b := by
  induction place generalizing inner with
  | nil =>
    cases inner with
    | nil => exact ⟨rfl, String.toList_injective h⟩
    | cons step inner => exact absurd h (spelled_cons_ne ha step b)
  | cons step place ih =>
    cases inner with
    | nil => exact absurd h.symm (spelled_cons_ne hb step a)
    | cons other inner =>
      have hcons : step = other ∧ spelled place ++ a.toList = spelled inner ++ b.toList := by
        cases step <;> cases other <;> simp [spelled_cons, Inside.text, Nat.repr] at h
        · exact ⟨rfl, h⟩
        · obtain ⟨rfl, hrest⟩ := digits_injective h
          exact ⟨rfl, hrest⟩
      obtain ⟨rfl, hrest⟩ := hcons
      exact (ih hrest).imp_left (congrArg (step :: ·))

-- ---------------------------------------------------------------------------
-- Charts without names
-- ---------------------------------------------------------------------------

mutual
def ChartSpec.isUnnamed : ChartSpec → Bool
  | ⟨name, data, _, _, _, _, inner, layer⟩ =>
    name.isNone && data.all (·.name.isNone) && (match inner with
      | some inner => inner.isUnnamed
      | none => true) && areUnnamed layer
termination_by structural spec => spec
def areUnnamed : List ChartSpec → Bool
  | [] => true
  | layer :: rest => layer.isUnnamed && areUnnamed rest
termination_by structural layers => layers
end

mutual
def ChartSpec.charts : ChartSpec → List ChartSpec
  | ⟨name, data, mark, encoding, transforms, facet, inner, layer⟩ =>
    ⟨name, data, mark, encoding, transforms, facet, inner, layer⟩ :: ((match inner with
      | some inner => inner.charts
      | none => []) ++ chartsOf layer)
termination_by structural spec => spec
def chartsOf : List ChartSpec → List ChartSpec
  | [] => []
  | layer :: rest => layer.charts ++ chartsOf rest
termination_by structural layers => layers
end

/-- Models are named by different places inside a place. -/
structure Spread (place : List Inside) (models : List Model) (places : List (List Inside)) :
    Prop where
  names : models.map Model.name = places.map fun inner => placeName (place ++ inner)
  nodup : places.Nodup

namespace Spread

theorem nil (place : List Inside) : Spread place [] [] := ⟨rfl, .nil⟩

theorem up (h : Spread (place ++ [step]) models places) :
    Spread place models (places.map (step :: ·)) where
  names := by simp [h.names]
  nodup := h.nodup.map fun _ _ he => (List.cons.inj he).2

theorem cons (h : Spread place models places) (hm : m.name = placeName place)
    (hne : [] ∉ places) : Spread place (m :: models) ([] :: places) where
  names := by simp [h.names, hm]
  nodup := List.nodup_cons.mpr ⟨hne, h.nodup⟩

theorem append {more : List Model} (h : Spread place models places)
    (h' : Spread place more later) (hd : places.Disjoint later) :
    Spread place (models ++ more) (places ++ later) where
  names := by simp [h.names, h'.names]
  nodup := h.nodup.append h'.nodup hd

end Spread

theorem bind_eq_ok {ε α β : Type} {x : Except ε α} {next : α → Except ε β} {b : β} :
    x >>= next = .ok b ↔ ∃ a, x = .ok a ∧ next a = .ok b := by
  cases x <;> simp [bind, Except.bind]

mutual
theorem ChartSpec.spread_resolveAs : (spec : ChartSpec) → {place : List Inside} →
    {t : Tree Model} → (∀ chart ∈ spec.charts, chart.name = none) →
    spec.resolveAs (placeName place) = .ok t → ∃ places, Spread place t.toList places
  | ⟨name, data, mark, encoding, transforms, facet, inner, layer⟩, place, t, hu, h => by
    unfold ChartSpec.charts at hu
    rw [List.forall_mem_cons, List.forall_mem_append] at hu
    obtain ⟨rfl, hinner, hlayer⟩ := hu
    unfold ChartSpec.resolveAs at h
    dsimp only [Option.map_none, Option.getD_none] at h
    split at h
    · cases h
    · cases inner with
      | none => cases h
      | some inner =>
        obtain ⟨child, hchild, h⟩ := bind_eq_ok.mp h
        obtain rfl := Except.ok.inj h
        have hchild : inner.resolveAs (placeName (place ++ [.child])) = .ok child :=
          placeName_concat place .child ▸ hchild
        obtain ⟨places, hplaces⟩ := ChartSpec.spread_resolveAs inner hinner hchild
        rw [Tree.toList, Forest.toList_tree]
        exact ⟨_, hplaces.up.cons rfl (by simp)⟩
    · split at h
      · cases mark with
        | none => cases h
        | some mark =>
          obtain rfl := Except.ok.inj h
          exact ⟨_, (Spread.nil place).cons rfl (by simp)⟩
      · obtain ⟨below, hbelow, h⟩ := bind_eq_ok.mp h
        obtain rfl := Except.ok.inj h
        obtain ⟨places, hplaces, hlayers⟩ := spread_resolveLayers layer hlayer hbelow
        refine ⟨_, hplaces.cons rfl fun hnil => ?_⟩
        obtain ⟨later, rest, -, he⟩ := hlayers [] hnil
        cases he
theorem spread_resolveLayers : (layers : List ChartSpec) → {place : List Inside} → {index : Nat} →
    {f : Forest Model} → (∀ chart ∈ chartsOf layers, chart.name = none) →
    resolveLayers (placeName place) index layers = .ok f →
    ∃ places, Spread place f.toList places ∧ ∀ inner ∈ places, ∃ later rest, index ≤ later ∧
      inner = .layer later :: rest
  | [], place, index, f, hu, h => by
    obtain rfl := Except.ok.inj h
    exact ⟨[], .nil place, by simp⟩
  | layer :: rest, place, index, f, hu, h => by
    rw [chartsOf, List.forall_mem_append] at hu
    obtain ⟨hfirst, hrest⟩ := hu
    obtain ⟨child, hchild, h⟩ := bind_eq_ok.mp h
    obtain ⟨row, hrow, h⟩ := bind_eq_ok.mp h
    obtain rfl := Except.ok.inj h
    have hchild : layer.resolveAs (placeName (place ++ [.layer index])) = .ok child :=
      placeName_concat place (.layer index) ▸ hchild
    obtain ⟨places, hplaces⟩ := ChartSpec.spread_resolveAs layer hfirst hchild
    obtain ⟨later, hlater, hlayers⟩ := spread_resolveLayers rest hrest hrow
    refine ⟨_, hplaces.up.append hlater fun p hp hp' => ?_, fun p hp => ?_⟩
    · -- the rest of the layers has higher numbers
      obtain ⟨inner, -, rfl⟩ := List.mem_map.mp hp
      obtain ⟨i, _, hi, he⟩ := hlayers _ hp'
      obtain ⟨rfl, -⟩ : index = i ∧ _ := by simpa using he
      omega
    · rcases List.mem_append.mp hp with hp | hp
      · obtain ⟨inner, -, rfl⟩ := List.mem_map.mp hp
        exact ⟨index, inner, Nat.le_refl _, rfl⟩
      · obtain ⟨i, rest, hi, he⟩ := hlayers p hp
        exact ⟨i, rest, by omega, he⟩
end

mutual
theorem ChartSpec.of_isUnnamed : (spec : ChartSpec) → spec.isUnnamed = true →
    ∀ chart ∈ spec.charts, chart.name = none ∧ ∀ d ∈ chart.data, d.name = none
  | ⟨name, data, mark, encoding, transforms, facet, inner, layer⟩, hu => by
    unfold ChartSpec.isUnnamed at hu
    simp only [Bool.and_eq_true, Option.isNone_iff_eq_none] at hu
    obtain ⟨⟨⟨rfl, hdata⟩, hinner⟩, hlayer⟩ := hu
    unfold ChartSpec.charts
    rw [List.forall_mem_cons, List.forall_mem_append]
    refine ⟨⟨rfl, by simpa [Option.all_eq_true] using hdata⟩, ?_, of_areUnnamed layer hlayer⟩
    cases inner with
    | none => simp
    | some inner => exact ChartSpec.of_isUnnamed inner hinner
theorem of_areUnnamed : (layers : List ChartSpec) → areUnnamed layers = true →
    ∀ chart ∈ chartsOf layers, chart.name = none ∧ ∀ d ∈ chart.data, d.name = none
  | [], hu => by simp [chartsOf]
  | layer :: rest, hu => by
    obtain ⟨hfirst, hrest⟩ := (Bool.and_eq_true _ _).mp hu
    rw [chartsOf, List.forall_mem_append]
    exact ⟨ChartSpec.of_isUnnamed layer hfirst, of_areUnnamed rest hrest⟩
end

theorem ChartSpec.spread_resolve {spec : ChartSpec} (hu : ∀ chart ∈ spec.charts, chart.name = none)
    (h : spec.resolve = .ok t) : ∃ places, Spread [] t.toList places :=
  spec.spread_resolveAs hu h

/-- A name that is made from that of a model with a default name. -/
def TellsPlace (name : String) : Prop :=
  ∃ place, ∃ text ∈ suffixes, name = joinName (placeName place) text

theorem joinName_placeName_inj (ha : a ∈ suffixes) (hb : b ∈ suffixes)
    (h : joinName (placeName place) a = joinName (placeName inner) b) : place = inner ∧ a = b := by
  have hspelled := congrArg String.toList h
  rw [toList_joinName, toList_joinName] at hspelled
  exact spelled_injective ha hb hspelled

theorem placeName_injective (h : placeName place = placeName inner) : place = inner :=
  (joinName_placeName_inj (a := "raw") (b := "raw") (by decide) (by decide) (h ▸ rfl)).1

namespace Spread

theorem tellsPlace (h : Spread [] models places) (hm : m ∈ models) (ha : a ∈ suffixes) :
    TellsPlace (m.nameOf a) := by
  have hname := h.names ▸ List.mem_map_of_mem (f := Model.name) hm
  obtain ⟨place, -, he⟩ := List.mem_map.mp hname
  exact ⟨place, a, ha, by rw [Model.nameOf, ← he]; rfl⟩

theorem nodup_names (h : Spread place models places) : (models.map Model.name).Nodup := by
  rw [h.names]
  exact h.nodup.map fun _ _ he => List.append_cancel_left (placeName_injective he)

theorem nodup_nameOf (h : Spread [] models places) :
    (models.flatMap fun m => suffixes.map m.nameOf).Nodup := by
  have hplaces : (models.flatMap fun m => suffixes.map m.nameOf) =
      places.flatMap fun place => suffixes.map (joinName (placeName place)) := by
    have hnames : ((models.map Model.name).flatMap fun name => suffixes.map (joinName name)) =
        (places.map placeName).flatMap fun name => suffixes.map (joinName name) := by
      rw [h.names]
      rfl
    rwa [List.flatMap_map, List.flatMap_map] at hnames
  rw [hplaces, List.nodup_flatMap]
  refine ⟨fun place _ => ?_, h.nodup.imp fun {place inner} hne name hp hi => hne ?_⟩
  · exact List.Nodup.map_on (fun a ha b hb he => (joinName_placeName_inj ha hb he).2) (by decide)
  · obtain ⟨a, ha, rfl⟩ := List.mem_map.mp hp
    obtain ⟨b, hb, he⟩ := List.mem_map.mp hi
    exact (joinName_placeName_inj hb ha he).1.symm

end Spread

/-- If no chart has a name of its own, all models have different names, and so have all their
checkpoints. -/
theorem ChartSpec.default_names_nodup {spec : ChartSpec} {t : Tree Model}
    (hu : ∀ chart ∈ spec.charts, chart.name = none) (h : spec.resolve = .ok t) :
    (t.toList.map Model.name).Nodup ∧
      (t.toList.flatMap fun m => [m.nameOf "raw", m.nameOf "main"]).Nodup := by
  obtain ⟨places, hplaces⟩ := spec.spread_resolve hu h
  exact ⟨hplaces.nodup_names, hplaces.nodup_nameOf⟩

def nestedLayers : ChartSpec :=
  let unit : ChartSpec := ⟨none, none, some ⟨.point, none, none⟩, [], [], none, none, []⟩
  let facet : ChartSpec :=
    ⟨none, some { name := some "a" }, none, [], [], some ⟨some {}, none⟩, some unit, []⟩
  ⟨none, none, none, [], [], none, none, [⟨none, none, none, [], [], none, none, [facet]⟩, unit]⟩

theorem ChartSpec.default_names_nodup_sample :
    ∃ t, nestedLayers.resolve = .ok t ∧ t.toList.map Model.name =
        ["", "layer_0", "layer_0_layer_0", "layer_0_layer_0_child", "layer_1"] ∧
      (t.toList.flatMap fun m => [m.nameOf "raw", m.nameOf "main"]).Nodup :=
  ⟨_, rfl, rfl, (ChartSpec.default_names_nodup
    (show ∀ chart ∈ nestedLayers.charts, chart.name = none by decide) rfl).2⟩

end ChartPipeline
