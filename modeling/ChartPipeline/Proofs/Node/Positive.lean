import ChartPipeline.Proofs.Graph.Optimize
import ChartPipeline.Proofs.Json.Printing
import ChartPipeline.Proofs.Node.Coercions
import ChartPipeline.Proofs.Text.Quoted
import ChartPipeline.Session

/-!
# Fields that need positive values

Rows without a positive value in a field are dropped if the last channel that draws the field does
so on a logarithmic scale (`Model.filters_positive_iff`). The channels before it do not count.
-/

namespace ChartPipeline

open OrderedMap (last? find?)

variable {m : Model} {c : Channel} {field other : String} {f : PositiveFilter}

namespace OrderedMap

variable {κ β : Type} [DecidableEq κ]

theorem last?_eq_getLast? (key : κ) (m : List (κ × β)) : last? key m =
    (m.filterMap fun entry => if entry.1 = key then some entry.2 else none).getLast? := by
  induction m with
  | nil => rfl
  | cons entry m ih =>
    rw [last?, ih, List.filterMap_cons]
    split
    · rw [List.getLast?_cons]
      cases (m.filterMap fun entry => if entry.1 = key then some entry.2 else none).getLast? <;> rfl
    · rw [Option.or_none]

end OrderedMap

namespace Model

def Draws (m : Model) (c : Channel) (field : String) (t : ScaleType) : Prop :=
  m.scaleType? c = some t ∧ m.field? c none = some field

/-- A channel draws the field on a logarithmic scale, and no channel after it draws it on another
one. -/
def Guards (m : Model) (field : String) : Prop :=
  ∃ before entry after, m.fieldDefs = before ++ entry :: after ∧ m.Draws entry.1 field .log ∧
    ∀ later ∈ after, ∀ t, m.Draws later.1 field t → t = .log

end Model

namespace PositiveFilter

def asks? (m : Model) (field : String) (c : Channel) : Option Bool :=
  if m.field? c none = some field then (m.scaleType? c).map fun t => decide (t = .log) else none

theorem asks?_eq_some {flag : Bool} :
    asks? m field c = some flag ↔ ∃ t, m.Draws c field t ∧ decide (t = .log) = flag := by
  unfold asks? Model.Draws
  by_cases hfield : m.field? c none = some field <;> simp [hfield]

/-- The last channel that draws a field decides about it. -/
theorem find?_ofModel (m : Model) (field : String) : find? field (ofModel m) =
    (m.fieldDefs.filterMap fun entry => asks? m field entry.1).getLast? := by
  rw [ofModel, OrderedMap.find?_union, find?, Option.or_none, OrderedMap.last?_eq_getLast?,
    List.filterMap_filterMap]
  refine congrArg (fun f => (m.fieldDefs.filterMap f).getLast?) (funext fun entry => ?_)
  obtain ⟨c, d⟩ := entry
  dsimp only [asks?]
  cases m.scaleType? c <;> cases m.field? c none <;> simp

theorem nodup_keys_ofModel (m : Model) : (ofModel m).keys.Nodup :=
  OrderedMap.nodup_keys_union (m := []) List.nodup_nil _

theorem find?_eq_true_iff : find? field (ofModel m) = some true ↔ m.Guards field := by
  rw [find?_ofModel, List.getLast?_eq_some_iff]
  constructor
  · rintro ⟨flags, h⟩
    obtain ⟨first, rest, hwhole, -, hrest⟩ := List.filterMap_eq_append_iff.mp h
    obtain ⟨before, entry, after, rfl, -, hentry, hafter⟩ := List.filterMap_eq_cons_iff.mp hrest
    obtain ⟨t, hdraws, ht⟩ := asks?_eq_some.mp hentry
    obtain rfl := of_decide_eq_true ht
    refine ⟨first ++ before, entry, after, by rw [hwhole, List.append_assoc], hdraws, ?_⟩
    -- the channels after the last one that draws the field do not draw it
    intro later hlater t hdraws'
    have hnone := List.filterMap_eq_nil_iff.mp hafter later hlater
    rw [asks?_eq_some.mpr ⟨t, hdraws', rfl⟩] at hnone
    cases hnone
  · rintro ⟨before, entry, after, hwhole, hdraws, hafter⟩
    have hall : ∀ flag ∈ after.filterMap fun entry => asks? m field entry.1, flag = true := by
      intro flag hflag
      obtain ⟨later, hlater, hlast⟩ := List.mem_filterMap.mp hflag
      obtain ⟨t, ht, rfl⟩ := asks?_eq_some.mp hlast
      exact decide_eq_true (hafter later hlater t ht)
    have hentry : asks? m field entry.1 = some true := asks?_eq_some.mpr ⟨.log, hdraws, rfl⟩
    rw [← List.getLast?_eq_some_iff, hwhole, List.filterMap_append, List.filterMap_cons, hentry,
      List.getLast?_append_cons, List.getLast?_cons]
    cases hlast : (after.filterMap fun entry => asks? m field entry.1).getLast? with
    | none => rfl
    | some flag => exact congrArg some (hall flag (List.mem_of_getLast? hlast))

theorem isPositive_injective (h : isPositive field = isPositive other) : field = other := by
  have hchars := congrArg String.toList h
  simp only [isPositive, String.toList_append, List.append_cancel_right_eq] at hchars
  exact Expression.fieldRef_injective (String.toList_injective hchars)

theorem filter_mem_transforms_iff (field : String) (hf : f.keys.Nodup) :
    .filter (isPositive field) ∈ transforms f ↔ find? field f = some true := by
  rw [transforms, List.mem_map]
  constructor
  · rintro ⟨⟨other, flag⟩, hmem, he⟩
    obtain ⟨hmem, hflag⟩ := List.mem_filter.mp hmem
    obtain rfl : flag = true := hflag
    obtain rfl := isPositive_injective (Transform.filter.inj he)
    exact OrderedMap.find?_of_mem hf hmem
  · intro h
    exact ⟨_, List.mem_filter.mpr ⟨OrderedMap.mem_of_find? h, rfl⟩, rfl⟩

theorem isIdle_eq_false (hf : find? field f = some true) : f.isIdle = false := by
  refine Bool.eq_false_iff.mpr fun h => ?_
  exact absurd (List.all_eq_true.mp h _ (OrderedMap.mem_of_find? hf)) (by simp)

end PositiveFilter

open PositiveFilter (isPositive)

namespace Model

/-- Rows without a positive value in a field are dropped if and only if a channel draws it on a
logarithmic scale, and no channel after it on another one. Then the filter is a node of the model,
and optimizing never detaches it. -/
theorem filters_positive_iff (m : Model) (field : String) :
    (.filter (isPositive field) ∈ PositiveFilter.transforms (PositiveFilter.ofModel m) ↔
      m.Guards field) ∧
    (m.Guards field → (PositiveFilter.ofModel m).isIdle = false ∧
      .positiveFilter (PositiveFilter.ofModel m) ∈ m.mainNodes ∧
      ∀ (g : Graph) (id : NodeId) (roots : List NodeId), g.Reachable →
        g.node? id = some (.positiveFilter (PositiveFilter.ofModel m)) →
        (g.optimize roots).node? id = some (.positiveFilter (PositiveFilter.ofModel m)) ∧
          (g.optimize roots).isDetached id = g.isDetached id) := by
  have hflag : find? field (PositiveFilter.ofModel m) = some true ↔ m.Guards field :=
    PositiveFilter.find?_eq_true_iff
  have hfilter :=
    PositiveFilter.filter_mem_transforms_iff field (PositiveFilter.nodup_keys_ofModel m)
  refine ⟨hfilter.trans hflag, fun h => ?_⟩
  have hidle := PositiveFilter.isIdle_eq_false (hflag.mpr h)
  refine ⟨hidle, ?_, fun g id roots hg hn => ?_⟩
  · have hne : (PositiveFilter.ofModel m).isEmpty = false :=
      List.isEmpty_eq_false_iff.mpr (List.ne_nil_of_mem (OrderedMap.mem_of_find? (hflag.mpr h)))
    simp [mainNodes, hne]
  · exact ⟨(Graph.node?_optimize hg.wellFormed roots id).trans hn,
      Graph.isDetached_optimize_of_keeps hg.wellFormed hn (fun _ => hidle) roots⟩

def logarithmic (others : Encoding) : Model where
  name := ""
  data := none
  transforms := []
  kind := .unit {
    mark := .point
    orient := none
    encoding :=
      (.x, [{ field := some "a", scale := some { scaleType := some .log } }]) :: others
    stack := none }

theorem filters_positive_sample :
    .filter "datum[\"a\"] > 0" ∈
      PositiveFilter.transforms (PositiveFilter.ofModel (logarithmic [])) ∧
    ((({} : Graph).add (.positiveFilter (PositiveFilter.ofModel (logarithmic [])))).optimize
      [0]).isDetached 0 = false := by
  obtain ⟨hiff, hkept⟩ := filters_positive_iff (logarithmic []) "a"
  have hguards : (logarithmic []).Guards "a" := ⟨[], _, [], rfl, ⟨rfl, rfl⟩, by simp⟩
  exact ⟨hiff.mpr hguards, ((hkept hguards).2.2 _ 0 [0] (.add _ .empty) rfl).2⟩

/-- A field that is drawn on a logarithmic scale is not always filtered. -/
theorem unfiltered_logarithmic : ¬ ∀ (m : Model) (c : Channel) (d : FieldDef) (field : String),
    (c, d) ∈ m.fieldDefs → m.scaleType? c = some .log → m.field? c none = some field →
    .filter (isPositive field) ∈ PositiveFilter.transforms (PositiveFilter.ofModel m) := by
  intro h
  have hfilter := h
    (logarithmic [(.size, [{ field := some "a", fieldType := some .quantitative }])]) .x _ "a"
    List.mem_cons_self rfl rfl
  exact nomatch hfilter

end Model

end ChartPipeline
