import ChartPipeline.Compile
import ChartPipeline.Proofs.Scale.Binding

/-!
# Domains that are written out

A domain that is written as an array of values stands for itself, and no binding changes it. The one
exception is a pair of texts, which is read as the two members of a data reference
(`Scale.literal_passes_iff`).
-/

namespace ChartPipeline

variable {c : Compiled} {name data field : String} {items : List Json} {v : Json} {r : DataRef}
  {s : Scale} {scales before after : List Scale}

def Scale.written (name : String) (domain : Json) : Json :=
  .object [("name", .string name), ("domain", domain)]

-- ---------------------------------------------------------------------------
-- Reading
-- ---------------------------------------------------------------------------

theorem Json.string?_eq_some : v.string? = some name ↔ v = .string name := by
  cases v <;> simp [Json.string?]

theorem DataRef.ofJson?_array :
    DataRef.ofJson? (.array items) = some r ↔ items = [.string r.data, .string r.field] := by
  constructor
  · intro h
    match items with
    | [a, b] =>
      have h : (a.string?.bind fun data => b.string?.bind fun field => some ⟨data, field⟩) = some r := h
      obtain ⟨data, ha, h⟩ := Option.bind_eq_some_iff.mp h
      obtain ⟨field, hb, h⟩ := Option.bind_eq_some_iff.mp h
      cases h
      rw [Json.string?_eq_some.mp ha, Json.string?_eq_some.mp hb]
  · rintro rfl
    rfl

theorem ScaleDomain.ofJson_array (h : ∀ data field, items ≠ [.string data, .string field]) :
    ScaleDomain.ofJson (.array items) = .literal items := by
  have hno : DataRef.ofJson? (.array items) = none :=
    Option.eq_none_iff_forall_ne_some.mpr fun r hr => h r.data r.field (DataRef.ofJson?_array.mp hr)
  rw [ofJson, hno]
  rfl

theorem Scale.ofJson?_written (name : String) (domain : Json) :
    Scale.ofJson? (Scale.written name domain) = some ⟨name, .ofJson domain⟩ := rfl

-- ---------------------------------------------------------------------------
-- Binding
-- ---------------------------------------------------------------------------

/-- A scale without faults that refers to nothing comes out as it is, wherever it stands, and whether
the others can be bound does not depend on it. -/
theorem Compiled.bindScales_insert (c : Compiled) (hs : s.faults c = [])
    (hcited : s.domain.cited = []) (before after : List Scale) :
    c.bindScales (before ++ s :: after) = do
      let first ← c.bindScales before
      let last ← c.bindScales after
      return first ++ s :: last := by
  have hself : s.bind c = pure s := by
    rw [s.bind_eq, hs, Scale.redirect, ScaleDomain.redirect_eq_self (by simp [hcited])]
    rfl
  rw [bindScales, List.mapM_append, List.mapM_cons, hself]
  simp [bindScales]

/-- A scale that is written with an array for a domain can be read. Binding it succeeds and gives the
array back if and only if the array is no pair of texts, and then the scale comes out as it is among
any other scales. A pair of texts is taken to be the field of some data. -/
theorem Scale.literal_passes_iff (c : Compiled) (name : String) (items : List Json) : ∃ s,
    Scale.ofJson? (Scale.written name (.array items)) = some s ∧
    ((∃ bound, c.bindScales [s] = .ok [bound] ∧ bound.domain.toJson = .array items) ↔
      ∀ data field, items ≠ [.string data, .string field]) ∧
    ((∀ data field, items ≠ [.string data, .string field]) → ∀ before after,
      c.bindScales (before ++ s :: after) = do
        let first ← c.bindScales before
        let last ← c.bindScales after
        return first ++ s :: last) ∧
    ∀ data field, items = [.string data, .string field] → s = ⟨name, .field ⟨data, field⟩⟩ := by
  refine ⟨_, ofJson?_written name _, ⟨?_, ?_⟩, ?_, ?_⟩
  · rintro ⟨bound, hbound, hjson⟩ data field rfl
    obtain rfl := (List.cons.inj (Compiled.bindScales_eq_ok.mp hbound).2).1
    -- what was read as a data reference is written as one
    cases hjson
  · intro h
    rw [ScaleDomain.ofJson_array h]
    exact ⟨⟨name, .literal items⟩, rfl, rfl⟩
  · intro h before after
    rw [ScaleDomain.ofJson_array h]
    exact c.bindScales_insert rfl rfl before after
  · rintro data field rfl
    rfl

def ChartSpec.plain : ChartSpec where
  name := none
  data := some { url := some "a.json" }
  mark := some { mark := .point }
  encoding := []
  transform := []
  facet := none
  inner := none
  layer := []

/-- Not all arrays pass: a scale over the two words "no" and "yes" does not. -/
theorem Scale.literal_stopped : ¬ ∀ (spec : ChartSpec) (o : Options) (c : Compiled),
    spec.compile o = .ok c → ∀ name items, ∃ s bound,
      Scale.ofJson? (Scale.written name (.array items)) = some s ∧
      c.bindScales [s] = .ok [bound] ∧ bound.domain.toJson = .array items := by
  intro h
  have hok : (ChartSpec.plain.compile {}).toBool = true := by decide +kernel
  cases hc : ChartSpec.plain.compile {} with
  | error => simp [hc, Except.toBool] at hok
  | ok c =>
    obtain ⟨s, bound, hread, hbound, hjson⟩ := h _ _ c hc "color" [.string "no", .string "yes"]
    obtain rfl : s = ⟨"color", .field ⟨"no", "yes"⟩⟩ := (Option.some.inj hread).symm
    obtain rfl := (List.cons.inj (Compiled.bindScales_eq_ok.mp hbound).2).1
    cases hjson

end ChartPipeline
