import ChartPipeline.Proofs.Session.Coerced

/-!
# Which models share a source

A session tells data apart by their identity, and so it tells all data apart: whatever calls there
are, two models with data of their own are put below the same source if and only if these data are
the same (`Session.root_eq_iff`). Nothing is different if the data are known by their digests only, as
long as no two of them have the same one.
-/

namespace ChartPipeline

open Model (placed stands)

section

variable {κ β : Type} [DecidableEq κ] {f : κ → κ} {key : κ} {m : OrderedMap κ β}

theorem OrderedMap.find?_map_key (h : ∀ entry ∈ m, f entry.1 = f key → entry.1 = key) :
    OrderedMap.find? (f key) (m.map fun entry => (f entry.1, entry.2)) = OrderedMap.find? key m := by
  induction m with
  | nil => rfl
  | cons entry rest ih =>
    obtain ⟨hfirst, hrest⟩ := List.forall_mem_cons.mp h
    rw [List.map_cons, OrderedMap.find?, OrderedMap.find?, ih hrest]
    by_cases he : entry.1 = key
    · rw [if_pos (congrArg f he), if_pos he]
    · rw [if_neg (mt hfirst he), if_neg he]

end

def Call.declared (calls : List Call) : List Data :=
  (calls.flatMap Call.added).filterMap (·.1.data)

namespace Session

def after : Except Failure Session → Session
  | .ok s => s
  | .error failure => failure.session

/-- The chains that are added for the models of a row, up to the first model that cannot be added. -/
def chainsOf (above : Option NodeId) : Forest Model → Session → List (Model × Chain)
  | .nil, _ => []
  | .cons m below rest, s =>
    match s.addModel m above with
    | .error _ => []
    | .ok (s, chain) =>
      chain.toList.map (m, ·) ++ chainsOf (chain.map Chain.main) below s ++
        match addModels (chain.map Chain.main) below s with
        | .error _ => []
        | .ok s => chainsOf above rest s

def chainsFrom (s : Session) : List Call → List (Model × Chain)
  | [] => []
  | .chart t :: rest =>
    chainsOf none (.tree t.label t.below) s ++ chainsFrom (s.call (.chart t)) rest
  | .require name :: rest => chainsFrom (s.require name) rest

def chains (o : Options) (calls : List Call) : List (Model × Chain) :=
  chainsFrom { options := o } calls

def digests (s : Session) : OrderedMap String NodeId :=
  s.sources.map fun entry => (Digest.hexOfText entry.1, entry.2)

/-- Chains have been added for the models. No source is gone, those that came are sources of declared
data, and models with data of their own hang from the sources of these. -/
structure Rooted (s s' : Session) (models : List (Model × Data)) (added : List (Model × Chain)) :
    Prop where
  sources : s.sources ⊆ s'.sources
  declared : ∀ entry ∈ s'.sources, entry ∈ s.sources ∨ ∃ p ∈ added, ∃ d : Data,
    p.1.data = some d ∧ d.identity = entry.1
  models : added.map Prod.fst = models.map Prod.fst
  roots : ∀ p ∈ added, ∀ d, p.1.data = some d → (d.identity, p.2.root) ∈ s'.sources

/-- What comes of a model: a chain, nothing for a layer that finds no data, or a failure. -/
inductive Attempted (s : Session) (m : Model) (inherited : Option Data) :
    Except Failure (Session × Option Chain) → Prop
  | chain : (m.data <|> inherited) = some d → Grown names s s' → s'.DrawsOn chain.main d →
      Rooted s s' [(m, d)] [(m, chain)] → Attempted s m inherited (.ok (s', some chain))
  | layer : (m.data <|> inherited) = none → m.isLayer = true →
      Attempted s m inherited (.ok (s, none))
  | stuck : (m.data <|> inherited) = none → m.isLayer = false →
      Attempted s m inherited (.error ⟨s, cause⟩)

variable {s s' : Session} {o : Options} {m : Model} {chain : Chain} {d e : Data} {head id : NodeId}
  {above : Option NodeId} {inherited : Option Data} {names : List String} {f : Forest Model}
  {readers more : List (Model × Data)} {entry : String × NodeId} {t : Tree Model} {calls : List Call}

theorem Rooted.nil (h : s'.sources = s.sources) : Rooted s s' [] [] where
  sources := by rw [h]; exact fun _ he => he
  declared _ he := .inl (h ▸ he)
  models := rfl
  roots _ hp := nomatch hp

theorem Rooted.append {s'' : Session} {first last : List (Model × Chain)} (h : Rooted s s' readers first)
    (h' : Rooted s' s'' more last) : Rooted s s'' (readers ++ more) (first ++ last) where
  sources _ he := h'.sources (h.sources he)
  declared entry he := by
    rcases h'.declared entry he with he | ⟨p, hp, hd⟩
    · refine (h.declared entry he).imp_right ?_
      rintro ⟨p, hp, hd⟩
      exact ⟨p, List.mem_append_left _ hp, hd⟩
    · exact .inr ⟨p, List.mem_append_right _ hp, hd⟩
  models := by rw [List.map_append, List.map_append, h.models, h'.models]
  roots p hp d hd := by
    rcases List.mem_append.mp hp with hp | hp
    · exact h'.sources (h.roots p hp d hd)
    · exact h'.roots p hp d hd

-- ---------------------------------------------------------------------------
-- One model
-- ---------------------------------------------------------------------------

theorem root_of_begin {root : NodeId} (h : s.begin m above = some (s', root, head))
    (hs : s.Sound) (hd : m.data = some d) : (d.identity, root) ∈ s'.sources := by
  unfold Session.begin at h
  rw [hd] at h
  cases h
  obtain ⟨hgrown, hroot⟩ := hs.sourceFor d
  exact (hgrown.sound.add _ _).sources hroot

theorem Begun.mem_sources (h : Begun s m d s' head) (he : entry ∈ s'.sources) :
    entry ∈ s.sources ∨ ∃ own, m.data = some own ∧ own.identity = entry.1 := by
  cases h with
  | own hd =>
    rcases s.sourceFor_cases d with ⟨events, -, hsame⟩ | ⟨events, -, -, hnew⟩
    · rw [hsame] at he
      exact .inl he
    · rw [hnew] at he
      refine (List.mem_append.mp he).imp_right fun he => ⟨d, hd, ?_⟩
      rw [List.mem_singleton.mp he]
  | inherited =>
    obtain ⟨graph, events, hcoerce⟩ := s.exists_coerce_eq head (.ofModel m)
    rw [hcoerce] at he
    exact .inl he

theorem Begun.rooted {root : NodeId} (h : Begun s m d s' head) (hs : s.Sound)
    (hroot : ∀ own, m.data = some own → (own.identity, root) ∈ s'.sources) :
    Rooted s (s'.addChain m root head).1 [(m, d)] [(m, (s'.addChain m root head).2)] where
  sources := (h.addChain hs root).1.sources
  declared entry he := by
    obtain ⟨events, hchain⟩ := addChain_eq s' m root head
    rw [hchain] at he
    refine (h.mem_sources he).imp_right ?_
    rintro ⟨own, hown⟩
    exact ⟨_, List.mem_singleton_self _, own, hown⟩
  models := rfl
  roots _ hp own hown := by
    obtain rfl := List.mem_singleton.mp hp
    have hbegun := (h.grown hs).1.sound
    exact (hbegun.addChain m root head).grown.sources (hroot own hown)

theorem Sound.attempted (hs : s.Sound) (hd : Option.Rel s.DrawsOn above inherited) (m : Model) :
    Attempted s m inherited (s.addModel m above) := by
  rw [Session.addModel, hs.unsourced?_eq_none hd m]
  cases hbegin : s.begin m above with
  | some begun =>
    obtain ⟨s', root, head⟩ := begun
    obtain ⟨d, hdata, hb⟩ := begun_of_begin hbegin hd
    obtain ⟨hgrown, hmain⟩ := hb.addChain hs root
    exact .chain hdata hgrown hmain (hb.rooted hs fun own => root_of_begin hbegin hs)
  | none =>
    have hnone : (above.isSome || m.data.isSome) = false := by
      rw [← isSome_begin s, hbegin]
      rfl
    obtain ⟨habove, hdata⟩ := Bool.or_eq_false_iff.mp hnone
    obtain rfl : above = none := by simpa using habove
    cases hd
    obtain hdata : (m.data <|> none) = none := by simpa using hdata
    cases hkind : m.kind with
    | layer => exact .layer hdata (by rw [Model.isLayer, hkind])
    | _ => exact .stuck hdata (by rw [Model.isLayer, hkind])

-- ---------------------------------------------------------------------------
-- Rows of models
-- ---------------------------------------------------------------------------

theorem placed_cons {p : Model × Option Data} (h : stands p = true)
    (models : List (Model × Option Data)) : placed (p :: models) = placed [p] ++ placed models := by
  have hall : [p].all stands = true := by simp [h]
  exact Model.placed_append hall

theorem Sound.rooted_row {s₁ : Session} {data : Option Data} {main : Option NodeId}
    {below rest : Forest Model} {first : List (Model × Chain)} (hs : s₁.Sound)
    (hmain : Option.Rel s₁.DrawsOn main data) (hup : Option.Rel s₁.DrawsOn above inherited)
    (hm : stands (m, data) = true) (hfirst : Rooted s s₁ (placed [(m, data)]) first)
    (hb : Rooted s₁ (after (Session.addModels main below s₁)) (placed (below.reading data))
      (chainsOf main below s₁))
    (hr : ∀ {s₂ : Session}, s₂.Sound → Option.Rel s₂.DrawsOn above inherited →
      Rooted s₂ (after (Session.addModels above rest s₂)) (placed (rest.reading inherited))
        (chainsOf above rest s₂)) :
    Rooted s (after (Session.addModels main below s₁ >>= Session.addModels above rest))
      (placed ((m, data) :: (below.reading data ++ rest.reading inherited)))
      (first ++ chainsOf main below s₁ ++ match Session.addModels main below s₁ with
        | .error _ => []
        | .ok s₂ => chainsOf above rest s₂) := by
  have hplaced := hs.placed_addModels hmain below
  generalize Session.addModels main below s₁ = result at hb hplaced ⊢
  rw [placed_cons hm]
  cases hplaced with
  | ok hall hc =>
    have hgrown := hc.grown hs
    rw [Model.placed_append hall, ← List.append_assoc]
    exact (hfirst.append hb).append (hr hgrown.sound (rel_grown hup hgrown))
  | error hfind _ hc =>
    rw [Model.placed_append_of_find? hfind, List.append_nil]
    exact hfirst.append hb

/-- All models of a row: they add their chains, and each that has data of its own gets the source of
these for a root. -/
theorem Sound.rooted_chainsOf (hs : s.Sound) (hd : Option.Rel s.DrawsOn above inherited)
    (f : Forest Model) : Rooted s (after (Session.addModels above f s))
      (placed (f.reading inherited)) (chainsOf above f s) := by
  induction f generalizing s above inherited with
  | nil => exact .nil rfl
  | cons m below rest ihb ihr =>
    rw [chainsOf, Session.addModels, Forest.reading]
    have hone := hs.attempted hd m
    generalize s.addModel m above = result at hone ⊢
    cases hone with
    | chain hdata hgrown hmain hroot =>
      rw [hdata]
      exact hgrown.sound.rooted_row (.some hmain) (rel_grown hd hgrown) rfl hroot
        (ihb hgrown.sound (.some hmain)) ihr
    | layer hdata hlayer =>
      have hm : stands (m, none) = true := hlayer
      have hnone : placed [(m, none)] = [] := by simp [placed, hm]
      rw [hdata]
      exact hs.rooted_row .none hd hm (hnone ▸ .nil rfl) (ihb hs .none) ihr
    | stuck hdata hlayer =>
      have hm : stands (m, none) = false := hlayer
      rw [hdata, placed, List.takeWhile_cons_of_neg (by simp [hm])]
      exact .nil rfl

-- ---------------------------------------------------------------------------
-- Calls
-- ---------------------------------------------------------------------------

theorem call_chart (s : Session) (t : Tree Model) :
    s.call (.chart t) = after (Session.addModels none (.tree t.label t.below) s) := by
  rw [addModels_tree, call]
  cases s.addChart t <;> rfl

theorem sources_require (s : Session) (name : String) : (s.require name).sources = s.sources := by
  unfold Session.require
  split <;> rfl

theorem Sound.rooted_chainsFrom (hs : s.Sound) (calls : List Call) :
    Rooted s (calls.foldl call s) (calls.flatMap Call.added) (chainsFrom s calls) := by
  induction calls generalizing s with
  | nil => exact .nil rfl
  | cons c calls ih =>
    cases c with
    | chart t =>
      have hfirst := hs.rooted_chainsOf .none (.tree t.label t.below)
      rw [← call_chart] at hfirst
      exact hfirst.append (ih ((hs.chained_call t).grown hs).sound)
    | require name =>
      have hsame : Rooted s (s.require name) [] [] := .nil (sources_require s name)
      exact hsame.append (ih (hs.require name))

theorem Sound.node?_of_source (hs : s.Sound) (h : (d.identity, id) ∈ s.sources) :
    s.graph.node? id = some (.source (.ofData d)) := by
  obtain ⟨d', t, hd, hl, ht⟩ := hs.leads_source h
  have hnode := hs.wellFormed.node?_eq hl
  rw [ht] at hnode
  rw [hnode, Data.identity_injective hd]

/-- After any calls, two models with data of their own hang from the same source if and only if their
data are written alike, which means that they are declared alike. The source is one of these data.
As long as no two of the data that are declared have the same digest, the digests tell them apart
just so, and looking a source up by the digest of its data finds the same. -/
theorem root_eq_iff (o : Options) (calls : List Call)
    (hdigest : ∀ d ∈ Call.declared calls, ∀ e ∈ Call.declared calls, d.digest = e.digest →
      d.toJson.compact = e.toJson.compact) :
    (chains o calls).map Prod.fst = (calls.flatMap Call.added).map Prod.fst ∧
    (∀ p ∈ chains o calls, ∀ q ∈ chains o calls, ∀ d e, p.1.data = some d → q.1.data = some e →
      (p.2.root = q.2.root ↔ d.toJson.compact = e.toJson.compact) ∧
      (p.2.root = q.2.root ↔ d = e) ∧ (p.2.root = q.2.root ↔ d.digest = e.digest) ∧
      (run o calls).graph.node? p.2.root = some (.source (.ofData d))) ∧
    ∀ d ∈ Call.declared calls, OrderedMap.find? d.digest (run o calls).digests =
      OrderedMap.find? d.identity (run o calls).sources := by
  obtain ⟨hs, -⟩ := joinedForest_run o calls
  obtain ⟨-, hsources, hmodels, hroots⟩ := (sound_start o).rooted_chainsFrom calls
  have hdeclared {p : Model × Chain} {d : Data} (hp : p ∈ chains o calls)
      (hd : p.1.data = some d) : d ∈ Call.declared calls := by
    obtain ⟨r, hr, he⟩ := List.mem_map.mp (hmodels ▸ List.mem_map_of_mem (f := Prod.fst) hp)
    exact List.mem_filterMap.mpr ⟨r, hr, he ▸ hd⟩
  refine ⟨hmodels, fun p hp q hq d e hd he => ?_, fun d hd => ?_⟩
  · have hroot : p.2.root = q.2.root ↔ d.identity = e.identity :=
      hs.id_eq_iff (hroots p hp d hd) (hroots q hq e he)
    refine ⟨hroot, hroot.trans Data.identity_injective.eq_iff, hroot.trans ⟨congrArg _, ?_⟩,
      hs.node?_of_source (hroots p hp d hd)⟩
    exact hdigest d (hdeclared hp hd) e (hdeclared hq he)
  · refine OrderedMap.find?_map_key fun entry hentry he => ?_
    obtain ⟨p, hp, e, hown, hkey⟩ := (hsources entry hentry).resolve_left (by simp)
    rw [← hkey] at he ⊢
    exact hdigest e (hdeclared hp hown) d hd he

end Session

def Call.pointsOver (url : String) : Call := .chart ⟨.points (some { url := some url }), .nil⟩

def Call.sharing : List Call :=
  [.pointsOver "a.json", .require "raw", .pointsOver "b.json", .pointsOver "a.json"]

theorem Data.digest_ne : Data.digest { url := some "a.json" } ≠ Data.digest { url := some "b.json" } := by
  decide +kernel

theorem Session.root_eq_iff_sample : ∃ p q r, chains {} Call.sharing = [p, q, r] ∧
    p.2.root = r.2.root ∧ p.2.root ≠ q.2.root := by
  have hdeclared : Call.declared Call.sharing =
      [{ url := some "a.json" }, { url := some "b.json" }, { url := some "a.json" }] := rfl
  obtain ⟨hmodels, hroots, -⟩ := root_eq_iff {} Call.sharing (by
    rw [hdeclared]
    simp [Data.digest_ne, Data.digest_ne.symm])
  obtain ⟨p, chains, hchains, hp, hmodels⟩ := List.map_eq_cons_iff.mp hmodels
  obtain ⟨q, chains, rfl, hq, hmodels⟩ := List.map_eq_cons_iff.mp hmodels
  obtain ⟨r, rfl, hr⟩ := List.map_eq_singleton_iff.mp hmodels
  rw [hchains] at hroots
  have hp := congrArg Model.data hp
  have hq := congrArg Model.data hq
  have hr := congrArg Model.data hr
  refine ⟨p, q, r, hchains, ?_, ?_⟩
  · exact (hroots p (by simp) r (by simp) _ _ hp hr).1.mpr rfl
  · exact mt (hroots p (by simp) q (by simp) _ _ hp hq).2.2.1.mp Data.digest_ne

end ChartPipeline
