import ChartPipeline.Scale

/-!
# What binding scales does

Binding looks at one data reference after the other, and fails at the first one that is known neither
as a checkpoint nor as a record, or at a domain that is none (`Compiled.bindScales_eq`). Otherwise it
puts other names in the place of the data references and leaves everything else as it is. Where the
names of records stand for themselves, nothing is left to bind then (`Compiled.Coherent.bound_again`).
-/

namespace ChartPipeline

variable {ε α β : Type} {causes more : List ε} {a b : α} {e : ε} {c : Compiled} {name : String}

-- ---------------------------------------------------------------------------
-- The first of many causes
-- ---------------------------------------------------------------------------

def unlessAny (causes : List ε) (a : α) : Except ε α := causes.head?.elim (.ok a) .error

theorem unlessAny_eq_error : unlessAny causes a = .error e ↔ causes.head? = some e := by
  cases causes <;> simp [unlessAny]

theorem unlessAny_eq_ok : unlessAny causes a = .ok b ↔ causes = [] ∧ a = b := by
  cases causes <;> simp [unlessAny]

theorem map_unlessAny (f : α → β) : f <$> unlessAny causes a = unlessAny causes (f a) := by
  cases causes <;> rfl

theorem unlessAny_bind {f : α → Except ε β} {b : β} (h : f a = unlessAny more b) :
    unlessAny causes a >>= f = unlessAny (causes ++ more) b := by
  cases causes with
  | nil => exact h
  | cons => rfl

theorem mapM_unlessAny {γ : Type} {f : γ → Except ε α} {causes : γ → List ε} {result : γ → α}
    (h : ∀ x, f x = unlessAny (causes x) (result x)) (xs : List γ) :
    xs.mapM f = unlessAny (xs.flatMap causes) (xs.map result) := by
  induction xs with
  | nil => rfl
  | cons x xs ih =>
    have hrest : (xs.mapM f >>= fun ys => pure (result x :: ys)) =
        unlessAny (xs.flatMap causes) (result x :: xs.map result) := by
      rw [ih]
      exact map_unlessAny (result x :: ·)
    rw [List.mapM_cons, h x, List.flatMap_cons, List.map_cons]
    exact unlessAny_bind hrest

-- ---------------------------------------------------------------------------
-- References
-- ---------------------------------------------------------------------------

namespace Compiled

/-- A name that stands for data: that of a bound checkpoint, or of a record. -/
def Knows (c : Compiled) (name : String) : Prop :=
  name ∈ c.outputs.keys ∨ ∃ r ∈ c.data, r.name = some name

instance (c : Compiled) (name : String) : Decidable (c.Knows name) :=
  inferInstanceAs (Decidable (_ ∨ _))

def target (c : Compiled) (name : String) : String := (c.source? name).getD name

def faultsOf (c : Compiled) (name : String) : List CompileError :=
  if c.Knows name then [] else [.unknownData name]

theorem source?_eq_none_iff : c.source? name = none ↔ name ∉ c.outputs.keys := by
  constructor
  · exact OrderedMap.notMem_of_find?
  · intro h
    rw [Option.eq_none_iff_forall_ne_some]
    exact fun record hfind => h (List.mem_map_of_mem (OrderedMap.mem_of_find? hfind))

theorem resolve_eq (c : Compiled) (name : String) :
    c.resolve name = unlessAny (c.faultsOf name) (c.target name) := by
  unfold resolve target faultsOf
  cases hs : c.source? name with
  | some record =>
    have hk : c.Knows name := .inl (List.mem_map_of_mem (OrderedMap.mem_of_find? hs))
    rw [if_pos hk]
    rfl
  | none =>
    have hknown : c.Knows name ↔ c.data.any (·.name = some name) = true := by
      simp [Knows, source?_eq_none_iff.mp hs]
    by_cases hk : c.Knows name
    · rw [if_pos hk]
      exact if_pos (hknown.mp hk)
    · rw [if_neg hk]
      exact if_neg (mt hknown.mpr hk)

end Compiled

theorem DataRef.bind_eq (r : DataRef) (c : Compiled) :
    r.bind c = unlessAny (c.faultsOf r.data) { r with data := c.target r.data } := by
  have hmap : r.bind c = (fun data => { r with data }) <$> c.resolve r.data := rfl
  rw [hmap, c.resolve_eq, map_unlessAny]

-- ---------------------------------------------------------------------------
-- Domains and scales
-- ---------------------------------------------------------------------------

namespace ScaleDomain

def cited : ScaleDomain → List String
  | .field ref => [ref.data]
  | .fields data _ => [data]
  | .union refs => refs.map DataRef.data
  | .signal _ | .literal _ | .other _ => []

def redirect (f : String → String) : ScaleDomain → ScaleDomain
  | .field ref => .field { ref with data := f ref.data }
  | .fields data names => .fields (f data) names
  | .union refs => .union (refs.map fun r => { r with data := f r.data })
  | d => d

/-- Why the domain of a scale cannot be bound, in the order in which it is looked at. -/
def faults (c : Compiled) (scale : String) : ScaleDomain → List CompileError
  | .other value => [.invalidScaleDomain scale value]
  | d => d.cited.flatMap c.faultsOf

theorem bind_eq (d : ScaleDomain) (scale : String) (c : Compiled) :
    d.bind scale c = unlessAny (d.faults c scale) (d.redirect c.target) := by
  cases d with
  | field ref =>
    rw [ScaleDomain.bind, ref.bind_eq, map_unlessAny]
    simp [faults, cited, redirect]
  | fields data names =>
    have hmap : (ScaleDomain.fields data names).bind scale c =
        (ScaleDomain.fields · names) <$> c.resolve data := rfl
    rw [hmap, c.resolve_eq, map_unlessAny]
    simp [faults, cited, redirect]
  | union refs =>
    rw [ScaleDomain.bind, mapM_unlessAny (·.bind_eq c), map_unlessAny]
    simp [faults, cited, redirect, List.flatMap_map]
  | _ => rfl

theorem cited_redirect (f : String → String) (d : ScaleDomain) :
    (d.redirect f).cited = d.cited.map f := by
  cases d <;> simp [redirect, cited]

theorem redirect_eq_other {f : String → String} {d : ScaleDomain} {value : Json} :
    d.redirect f = .other value ↔ d = .other value := by
  cases d <;> simp [redirect]

theorem redirect_eq_self {f : String → String} {d : ScaleDomain}
    (h : ∀ name ∈ d.cited, f name = name) : d.redirect f = d := by
  cases d with
  | union refs =>
    refine congrArg ScaleDomain.union ((List.map_congr_left fun r hr => ?_).trans (List.map_id refs))
    rw [h r.data (List.mem_map_of_mem hr)]
    rfl
  | _ => simp_all [redirect, cited]

end ScaleDomain

namespace Scale

def redirect (f : String → String) (s : Scale) : Scale :=
  { s with domain := s.domain.redirect f }

def faults (c : Compiled) (s : Scale) : List CompileError := s.domain.faults c s.name

theorem bind_eq (s : Scale) (c : Compiled) :
    s.bind c = unlessAny (s.faults c) (s.redirect c.target) := by
  have hmap : s.bind c = (fun domain => { s with domain }) <$> s.domain.bind s.name c := rfl
  rw [hmap, ScaleDomain.bind_eq, map_unlessAny]
  rfl

theorem faults_eq_nil_iff {s : Scale} : s.faults c = [] ↔
    (∀ value, s.domain ≠ .other value) ∧ ∀ name ∈ s.domain.cited, c.Knows name := by
  unfold faults
  cases hd : s.domain <;>
    simp [ScaleDomain.faults, ScaleDomain.cited, Compiled.faultsOf, List.flatMap_eq_nil_iff]

end Scale

namespace Compiled

variable {scales bound : List Scale}

/-- What binding comes to: the first fault, or all scales over the records that their references
stand for. -/
theorem bindScales_eq (c : Compiled) (scales : List Scale) : c.bindScales scales =
    unlessAny (scales.flatMap (Scale.faults c)) (scales.map (Scale.redirect c.target)) :=
  mapM_unlessAny (·.bind_eq c) scales

theorem bindScales_eq_error {e : CompileError} :
    c.bindScales scales = .error e ↔ (scales.flatMap (Scale.faults c)).head? = some e := by
  rw [bindScales_eq, unlessAny_eq_error]

theorem bindScales_eq_ok : c.bindScales scales = .ok bound ↔
    (∀ s ∈ scales, s.faults c = []) ∧ scales.map (Scale.redirect c.target) = bound := by
  rw [bindScales_eq, unlessAny_eq_ok, List.flatMap_eq_nil_iff]

theorem exists_bindScales_error : (∃ e, c.bindScales scales = .error e) ↔
    ∃ s ∈ scales, (∃ value, s.domain = .other value) ∨ ∃ name ∈ s.domain.cited, ¬ c.Knows name := by
  have hfaulty (s : Scale) : s.faults c ≠ [] ↔
      (∃ value, s.domain = .other value) ∨ ∃ name ∈ s.domain.cited, ¬ c.Knows name := by
    rw [Ne, Scale.faults_eq_nil_iff, Classical.not_and_iff_not_or_not]
    simp
  simp only [bindScales_eq_error, ← hfaulty, ← Option.isSome_iff_exists, List.isSome_head?]
  simp

-- ---------------------------------------------------------------------------
-- Binding again
-- ---------------------------------------------------------------------------

/-- Checkpoints are bound to the names of records, and these stand for themselves. -/
structure Coherent (c : Compiled) : Prop where
  outputs : ∀ entry ∈ c.outputs, ∃ r ∈ c.data, r.name = some entry.2
  target : ∀ r ∈ c.data, ∀ name, r.name = some name → c.target name = name

theorem Coherent.exists_record (hc : c.Coherent) (h : c.Knows name) :
    ∃ r ∈ c.data, r.name = some (c.target name) := by
  unfold Compiled.target
  cases hs : c.source? name with
  | some record => exact hc.outputs _ (OrderedMap.mem_of_find? hs)
  | none => exact h.resolve_left (source?_eq_none_iff.mp hs)

theorem Coherent.exists_cited (hc : c.Coherent) (hb : c.bindScales scales = .ok bound) :
    ∀ s ∈ bound, ∀ name ∈ s.domain.cited, ∃ r ∈ c.data, r.name = some name := by
  obtain ⟨hfaults, rfl⟩ := bindScales_eq_ok.mp hb
  rintro _ hmem name hname
  obtain ⟨s, hs, rfl⟩ := List.mem_map.mp hmem
  rw [Scale.redirect, ScaleDomain.cited_redirect] at hname
  obtain ⟨name, hcited, rfl⟩ := List.mem_map.mp hname
  exact hc.exists_record ((Scale.faults_eq_nil_iff.mp (hfaults s hs)).2 name hcited)

theorem Coherent.bound_again (hc : c.Coherent) (hb : c.bindScales scales = .ok bound) :
    c.bindScales bound = .ok bound := by
  have hcited := hc.exists_cited hb
  rw [bindScales_eq_ok]
  constructor
  · intro s hs
    refine Scale.faults_eq_nil_iff.mpr ⟨?_, fun name hname => .inr (hcited s hs name hname)⟩
    obtain ⟨hfaults, rfl⟩ := bindScales_eq_ok.mp hb
    obtain ⟨s, hmem, rfl⟩ := List.mem_map.mp hs
    intro value hv
    exact (Scale.faults_eq_nil_iff.mp (hfaults s hmem)).1 value (ScaleDomain.redirect_eq_other.mp hv)
  · refine (List.map_congr_left fun s hs => ?_).trans (List.map_id bound)
    have hself : s.domain.redirect c.target = s.domain := by
      refine ScaleDomain.redirect_eq_self fun name hname => ?_
      obtain ⟨r, hr, hrecord⟩ := hcited s hs name hname
      exact hc.target r hr name hrecord
    rw [Scale.redirect, hself]
    rfl

end Compiled

end ChartPipeline
