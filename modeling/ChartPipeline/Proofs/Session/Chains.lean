import ChartPipeline.Proofs.Graph.Extension
import ChartPipeline.Proofs.Session.Lineage
import Mathlib.Data.List.TakeWhile

/-!
# Chains, one after another

Whatever charts a session is given, complete or not, it adds one chain after another, each for a
model and the data that the model reads (`placed_addModels`). What a chain changes is said by
`Begun` and `addChain_eq`, so what holds of a session can be shown chain by chain.
-/

namespace ChartPipeline

/-- The models of a row, each with the data that it reads: its own, or that of the nearest model
around it that has some. -/
def Forest.reading (inherited : Option Data) : Forest Model → List (Model × Option Data)
  | .nil => []
  | .cons m below rest =>
    let data := m.data <|> inherited
    (m, data) :: (below.reading data ++ rest.reading inherited)

namespace Model

def isLayer (m : Model) : Bool :=
  match m.kind with
  | .layer => true
  | _ => false

/-- A model stands where there is data for it to read. A layer stands anywhere. -/
def stands : Model × Option Data → Bool
  | (m, d) => d.isSome || m.isLayer

/-- The models that add a chain, up to the first one that does not stand. -/
def placed (models : List (Model × Option Data)) : List (Model × Data) :=
  (models.takeWhile stands).filterMap fun (m, d) => d.map (m, ·)

def rawNodes (o : Options) (m : Model) : List Node := (m.rawLinks o).filterMap Link.node?

theorem placed_append {first last : List (Model × Option Data)} (h : first.all stands = true) :
    placed (first ++ last) = placed first ++ placed last := by
  have hfirst : first.takeWhile stands = first :=
    List.takeWhile_eq_self_iff.mpr fun m hm => List.all_eq_true.mp h m hm
  rw [placed, List.takeWhile_append, hfirst, if_pos rfl, List.filterMap_append, placed, hfirst, placed]

theorem placed_append_of_find? {first : List (Model × Option Data)} {m : Model × Option Data}
    (h : first.find? (!stands ·) = some m) (last : List (Model × Option Data)) :
    placed (first ++ last) = placed first := by
  have hshort : (first.takeWhile stands).length ≠ first.length := fun he => by
    have hall := (List.takeWhile_prefix stands).eq_of_length he
    have hm := List.takeWhile_eq_self_iff.mp hall m (List.mem_of_find?_eq_some h)
    have hn := List.find?_some h
    simp [hm] at hn
  rw [placed, List.takeWhile_append, if_neg hshort, placed]

end Model

namespace Session

open Model (stands placed)

/-- The node is the last one of a chain, and the rows there come from the source of the data. -/
def DrawsOn (s : Session) (id : NodeId) (d : Data) : Prop :=
  ∃ root d', ∃ way : List Vertex, ∃ m : Model, (d.identity, root) ∈ s.sources ∧
    s.graph.Trace id (⟨root, .source (.ofData d')⟩ :: way ++
      [⟨id, .checkpoint { name := m.mainName, required := true }⟩])

/-- A chain begins with a parse node below the source of the data of the model, or it goes on from
a node that draws on the data. -/
inductive Begun (s : Session) (m : Model) : Data → Session → NodeId → Prop
  | own : m.data = some d → Begun s m d
      ((s.sourceFor d).1.add (some (s.sourceFor d).2) (.parse (.ofModel m)))
      (s.sourceFor d).1.graph.size
  | inherited {main : NodeId} : m.data = none → s.DrawsOn main d →
      Begun s m d (s.coerce main (.ofModel m)) main

inductive Chained : Session → List (Model × Data) → Session → Prop
  | nil : Chained s [] s
  | cons {root : NodeId} : Begun s m d s' head → Chained (s'.addChain m root head).1 rest s'' →
      Chained s ((m, d) :: rest) s''

/-- What comes of models that are to be added: all their chains, or those up to the first model
that does not stand. -/
inductive Placed (s : Session) (models : List (Model × Option Data)) : Except Failure Session → Prop
  | ok : models.all stands = true → Chained s (placed models) s' → Placed s models (.ok s')
  | error : models.find? (!stands ·) = some m → cause = .missingData m.1.shownName →
      Chained s (placed models) s' → Placed s models (.error ⟨s', cause⟩)

variable {s s' s'' : Session} {m : Model} {d : Data} {id root head : NodeId}
  {above : Option NodeId} {inherited : Option Data} {names : List String}
  {models : List (Model × Option Data)} {readers more : List (Model × Data)}
  {result : Except Failure Session}

-- ---------------------------------------------------------------------------
-- One chain
-- ---------------------------------------------------------------------------

theorem addLinks_eq (s : Session) (head : NodeId) (links : List Link) : ∃ events,
    s.addLinks head links =
      ({ s with graph := (s.graph.extend head (links.filterMap Link.node?)).1, events },
        (s.graph.extend head (links.filterMap Link.node?)).2) := by
  induction links generalizing s head with
  | nil => exact ⟨_, rfl⟩
  | cons link links ih =>
    cases link with
    | tell e => exact ih (s.tell e) head
    | node n => exact ih (s.add (some head) n) s.graph.size

def addStage (s : Session) (head : NodeId) (links : List Link) (name : String) (required : Bool) :
    Session × NodeId :=
  (s.addLinks head links).1.addCheckpoint (s.addLinks head links).2 name required

theorem addStage_eq (s : Session) (head : NodeId) (links : List Link) (name : String)
    (required : Bool) : ∃ events, s.addStage head links name required =
      ({ s with
          graph := (s.graph.extend head
            (links.filterMap Link.node? ++ [.checkpoint { name, required }])).1
          outputs := s.outputs.put name (s.graph.size + (links.filterMap Link.node?).length)
          events },
        s.graph.size + (links.filterMap Link.node?).length) := by
  obtain ⟨_, hlinks⟩ := addLinks_eq s head links
  obtain ⟨events, hcheckpoint⟩ := addCheckpoint_eq (s.addLinks head links).1
    (s.addLinks head links).2 name required
  refine ⟨events, ?_⟩
  rw [addStage, hcheckpoint, hlinks, Graph.extend_append]
  simp only [Graph.size_extend]
  rfl

/-- A chain comes below a node as a whole, and its two checkpoints are known by their names. -/
theorem addChain_eq (s : Session) (m : Model) (root head : NodeId) : ∃ events,
    (s.addChain m root head).1 = { s with
      graph := (s.graph.extend head (m.chainNodes s.options)).1
      outputs := (s.outputs.put m.rawName (s.graph.size + (m.rawNodes s.options).length)).put
        m.mainName (s.graph.size + (m.rawNodes s.options).length + 1 + m.mainNodes.length)
      events } := by
  have hstages : (s.addChain m root head).1 =
      ((s.addStage head (m.rawLinks s.options) m.rawName false).1.addStage
        (s.addStage head (m.rawLinks s.options) m.rawName false).2 (m.mainNodes.map .node)
        m.mainName true).1 := rfl
  have hmain : (m.mainNodes.map Link.node).filterMap Link.node? = m.mainNodes := by
    simp [Link.node?, Function.comp_def]
  obtain ⟨e, hraw⟩ := addStage_eq s head (m.rawLinks s.options) m.rawName false
  rw [hstages, hraw]
  obtain ⟨events, hlast⟩ := addStage_eq { s with
      graph := (s.graph.extend head (m.rawNodes s.options ++
        [.checkpoint { name := m.rawName, required := false }])).1
      outputs := s.outputs.put m.rawName (s.graph.size + (m.rawNodes s.options).length)
      events := e } (s.graph.size + (m.rawNodes s.options).length) (m.mainNodes.map .node)
      m.mainName true
  refine ⟨events, (congrArg Prod.fst hlast).trans ?_⟩
  have hchain : m.chainNodes s.options = (m.rawNodes s.options ++
      [.checkpoint { name := m.rawName, required := false }]) ++
      (m.mainNodes ++ [.checkpoint { name := m.mainName, required := true }]) := by
    simp [Model.chainNodes, Model.rawNodes]
  rw [hchain, Graph.extend_append _ _ (_ ++ [_]), Graph.extend_concat]
  simp only [hmain, Graph.size_extend, List.length_append, List.length_singleton, Nat.add_assoc]

-- ---------------------------------------------------------------------------
-- Where a chain begins
-- ---------------------------------------------------------------------------

theorem DrawsOn.grown (h : s.DrawsOn id d) (hg : Grown names s s') : s'.DrawsOn id d := by
  obtain ⟨root, d', way, m, hroot, ht⟩ := h
  exact ⟨root, d', way, m, hg.sources hroot, hg.traces _ _ ht⟩

theorem DrawsOn.exists_leads (h : s.DrawsOn id d) : ∃ path u m, s.graph.forest.Leads path u ∧
    u.label.id = id ∧ u.label.node = .checkpoint { name := Model.mainName m, required := true } := by
  obtain ⟨root, d', way, m, -, path, u, hu, rfl, hpath⟩ := h
  have hend := congrArg List.getLast? hpath
  rw [List.getLast?_map, hu.getLast?, List.getLast?_concat, Option.map_some] at hend
  exact ⟨path, u, m, hu, rfl,
    Node.eq_of_blurred_eq (congrArg Vertex.node (Option.some.inj hend)) rfl⟩

/-- Where a chain may go on, a source is above. -/
theorem Sound.unsourced?_eq_none (hs : s.Sound) (h : Option.Rel s.DrawsOn above inherited)
    (m : Model) : s.unsourced? m above = none := by
  cases h with
  | none => rfl
  | @some main d h =>
    obtain ⟨root, d', way, _, -, path, t, hl, rfl, hpath⟩ := h
    obtain ⟨v, last, rfl, hv, -⟩ := List.map_eq_cons_iff.mp hpath
    have hsource : (s.graph.ancestor? Node.isSource t.label.id).isSome = true := by
      rw [Graph.ancestor?, hs.wellFormed.path_eq hl, Option.isSome_map, List.find?_isSome]
      exact ⟨v, by simp, by rw [Vertex.eq_of_blurred_source hv]; rfl⟩
    simp [unsourced?, Option.isNone_iff_eq_none, Option.isSome_iff_ne_none.mp hsource, guard, failure]

theorem rel_grown (h : Option.Rel s.DrawsOn above inherited) (hg : Grown names s s') :
    Option.Rel s'.DrawsOn above inherited := by
  cases h with
  | some h => exact .some (h.grown hg)
  | none => exact .none

theorem Begun.grown (h : Begun s m d s' head) (hs : s.Sound) : Grown [] s s' ∧
    ∃ root d' way, (d.identity, root) ∈ s'.sources ∧
      s'.graph.Trace head (⟨root, .source (.ofData d')⟩ :: way) := by
  cases h with
  | own =>
    obtain ⟨hgrown, hsource⟩ := hs.sourceFor d
    obtain ⟨d', -, ht⟩ := hgrown.sound.sources _ hsource
    have hparse := hgrown.sound.continues_add (s.sourceFor d).2 (.parse (.ofModel m))
    obtain ⟨added, ht, -⟩ := hparse.trace _ ht
    exact ⟨hgrown.trans hparse.grown, _, d', added, hparse.grown.sources hsource, ht⟩
  | inherited _ hd =>
    have hgrown := hs.coerce head (.ofModel m)
    obtain ⟨root, d', way, _, hroot, ht⟩ := hd.grown hgrown
    exact ⟨hgrown, root, d', _, hroot, ht⟩

theorem begun_of_begin (h : s.begin m above = some (s', root, head))
    (hd : Option.Rel s.DrawsOn above inherited) :
    ∃ d, (m.data <|> inherited) = some d ∧ Begun s m d s' head := by
  unfold Session.begin at h
  split at h
  · rename_i data hdata
    cases h
    exact ⟨data, by rw [hdata]; rfl, .own hdata⟩
  · rename_i main hdata
    cases h
    cases hd with
    | some hd => exact ⟨_, by rw [hdata]; rfl, .inherited hdata hd⟩
  · cases h

theorem Begun.addChain (h : Begun s m d s' head) (hs : s.Sound) (root : NodeId) :
    Grown (checkpointNames [m]) s (s'.addChain m root head).1 ∧
      (s'.addChain m root head).1.DrawsOn (s'.addChain m root head).2.main d := by
  obtain ⟨hgrown, source, d', way, hsource, ht⟩ := h.grown hs
  have hchain := hgrown.sound.addChain m root head
  obtain ⟨added, ht, hadded⟩ := hchain.trace _ ht
  refine ⟨hgrown.trans hchain.grown, source, d', ?_⟩
  -- the last node of the chain is its main checkpoint
  rw [Model.chainNodes, ← List.cons_append, ← List.append_assoc, List.map_append] at hadded
  obtain ⟨inner, last, rfl, -, hlast⟩ := List.map_eq_append_iff.mp hadded
  obtain ⟨⟨id, n⟩, rfl, rfl⟩ := List.map_eq_singleton_iff.mp hlast
  rw [← List.append_assoc] at ht
  obtain rfl : id = _ := ht.last
  exact ⟨way ++ inner, m, hchain.grown.sources hsource, by simpa [Node.blurred] using ht⟩

-- ---------------------------------------------------------------------------
-- Many chains
-- ---------------------------------------------------------------------------

theorem Chained.append (h : Chained s readers s') (h' : Chained s' more s'') :
    Chained s (readers ++ more) s'' := by
  induction h with
  | nil => exact h'
  | cons hb _ ih => exact .cons hb (ih h')

theorem Chained.grown (h : Chained s readers s') (hs : s.Sound) :
    Grown (checkpointNames (readers.map Prod.fst)) s s' := by
  induction h with
  | nil => exact .refl hs
  | cons hb _ ih =>
    obtain ⟨hone, -⟩ := hb.addChain hs _
    exact hone.trans (ih hone.sound)

theorem Placed.cons_some (hb : Begun s m d s' head)
    (h : Placed (s'.addChain m root head).1 models result) :
    Placed s ((m, some d) :: models) result := by
  have hplaced : placed ((m, some d) :: models) = (m, d) :: placed models := rfl
  cases h with
  | ok hall hc => exact .ok (by simpa [stands] using hall) (hplaced ▸ .cons hb hc)
  | error hfind hcause hc =>
    exact .error (by simpa [List.find?_cons, stands] using hfind) hcause (hplaced ▸ .cons hb hc)

theorem Placed.cons_none (hm : m.isLayer = true) (h : Placed s models result) :
    Placed s ((m, none) :: models) result := by
  have hplaced : placed ((m, none) :: models) = placed models := by simp [placed, stands, hm]
  cases h with
  | ok hall hc => exact .ok (by simpa [stands, hm] using hall) (hplaced ▸ hc)
  | error hfind hcause hc =>
    exact .error (by simpa [List.find?_cons, stands, hm] using hfind) hcause (hplaced ▸ hc)

theorem placed_stuck (hm : m.isLayer = false) (models : List (Model × Option Data)) :
    Placed s ((m, none) :: models) (.error ⟨s, .missingData m.shownName⟩) := by
  refine .error (m := (m, none)) (by simp [stands, hm]) rfl ?_
  rw [show placed ((m, none) :: models) = [] by simp [placed, stands, hm]]
  exact .nil

theorem Placed.bind {more : List (Model × Option Data)} {next : Session → Except Failure Session}
    (h : Placed s models result)
    (hnext : ∀ s', Chained s (placed models) s' → Placed s' more (next s')) :
    Placed s (models ++ more) (result >>= next) := by
  cases h with
  | ok hall hc =>
    have hplaced : placed (models ++ more) = placed models ++ placed more :=
      Model.placed_append hall
    have hlater := hnext _ hc
    change Placed s (models ++ more) (next _)
    generalize next _ = last at hlater ⊢
    cases hlater with
    | ok hall' hc' => exact .ok (by simp [hall, hall']) (hplaced ▸ hc.append hc')
    | error hfind hcause hc' =>
      refine .error ?_ hcause (hplaced ▸ hc.append hc')
      rw [List.find?_append, List.find?_eq_none.mpr fun m hm => ?_, Option.none_or, hfind]
      simpa using List.all_eq_true.mp hall m hm
  | error hfind hcause hc =>
    refine .error ?_ hcause (Model.placed_append_of_find? hfind more ▸ hc)
    rw [List.find?_append, hfind, Option.some_or]

/-- The models of a row add their chains in order, each before those below it. -/
theorem Sound.placed_addModels (hs : s.Sound) (hd : Option.Rel s.DrawsOn above inherited)
    (f : Forest Model) : Placed s (f.reading inherited) (Session.addModels above f s) := by
  induction f generalizing s above inherited with
  | nil => exact .ok rfl .nil
  | cons m below rest ihb ihr =>
    rw [Session.addModels, Forest.reading]
    have hsourced := hs.unsourced?_eq_none hd m
    cases hbegin : s.begin m above with
    | some begun =>
      obtain ⟨s', root, head⟩ := begun
      obtain ⟨d, hdata, hb⟩ := begun_of_begin hbegin hd
      obtain ⟨hgrown, hmain⟩ := hb.addChain hs root
      simp only [Session.addModel, hsourced, hbegin, hdata]
      refine .cons_some hb ((ihb hgrown.sound (.some hmain)).bind fun s'' hc => ?_)
      have hall := hgrown.trans (hc.grown hgrown.sound)
      exact ihr hall.sound (rel_grown hd hall)
    | none =>
      have hnone : (above.isSome || m.data.isSome) = false := by
        rw [← isSome_begin s, hbegin]
        rfl
      obtain ⟨habove, hdata⟩ := Bool.or_eq_false_iff.mp hnone
      obtain rfl : above = none := by simpa using habove
      cases hd
      obtain hdata : m.data = none := by simpa using hdata
      simp only [Session.addModel, hsourced, hbegin, hdata]
      cases hkind : m.kind with
      | layer =>
        refine .cons_none (by rw [Model.isLayer, hkind]) ((ihb hs .none).bind fun s' hc => ?_)
        exact ihr (hc.grown hs).sound .none
      | _ => exact placed_stuck (by rw [Model.isLayer, hkind]) _

end Session

end ChartPipeline
