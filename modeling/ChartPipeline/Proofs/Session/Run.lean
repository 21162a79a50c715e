import ChartPipeline.Proofs.Session.Chains

/-!
# Runs of a session

A session takes charts, which may fail and leave a part of their chains behind, and requests for
checkpoints, which may be unknown. Either way it is made of chains and of requests
(`Session.run_of`).
-/

namespace ChartPipeline

open Model (placed)

inductive Call where
  | chart (t : Tree Model)
  | require (name : String)

/-- The models for which a call adds chains, each with the data that it reads. -/
def Call.added : Call → List (Model × Data)
  | .chart t => placed ((Forest.tree t.label t.below).reading none)
  | .require _ => []

namespace Session

/-- Takes a call. What a chart that fails has added stays. -/
def call (s : Session) : Call → Session
  | .chart t =>
    match s.addChart t with
    | .ok (s, _) => s
    | .error failure => failure.session
  | .require name => s.require name

def run (o : Options) (calls : List Call) : Session := calls.foldl call { options := o }

variable {s : Session} {o : Options} {calls : List Call}

@[simp] theorem run_concat (o : Options) (calls : List Call) (c : Call) :
    run o (calls ++ [c]) = (run o calls).call c := by
  simp [run]

theorem sound_start (o : Options) : Sound { options := o } :=
  ⟨Graph.wellFormed_empty, rfl, .nil, fun _ h => nomatch h⟩

-- ---------------------------------------------------------------------------
-- One call
-- ---------------------------------------------------------------------------

theorem addModels_tree (s : Session) (chart : Tree Model) :
    addModels none (.tree chart.label chart.below) s = (s.addChart chart).map Prod.fst := by
  rw [Forest.tree, addModels, addChart]
  cases s.addModel chart.label none with
  | error failure => rfl
  | ok one =>
    change (addModels _ chart.below one.1 >>= fun s => .ok s) =
      Except.map Prod.fst (addModels _ chart.below one.1 >>= fun s => .ok (s, one.2))
    cases addModels (one.2.map Chain.main) chart.below one.1 <;> rfl

theorem Sound.chained_call (hs : s.Sound) (t : Tree Model) :
    Chained s (Call.chart t).added (s.call (.chart t)) := by
  have hplaced := hs.placed_addModels (f := .tree t.label t.below) .none
  rw [addModels_tree] at hplaced
  rw [call]
  cases hc : s.addChart t with
  | ok last =>
    rw [hc] at hplaced
    cases hplaced with
    | ok _ h => exact h
  | error failure =>
    rw [hc] at hplaced
    cases hplaced with
    | error _ _ h => exact h

theorem require_source (n : Node) (h : n.isSource = true) : n.require = n := by
  cases n <;> simp_all [Node.isSource, Node.require]

theorem Sound.require (hs : s.Sound) (name : String) : (s.require name).Sound := by
  unfold Session.require
  split
  · refine ⟨hs.wellFormed.update _ _, hs.attached, hs.keys, fun entry he => ?_⟩
    obtain ⟨d, hd, path, t, hl, hid, hpath⟩ := hs.sources entry he
    obtain ⟨v, rfl, hv⟩ := List.map_eq_singleton_iff.mp hpath
    refine ⟨d, hd, _, _, hl.map _, ?_, ?_⟩
    · dsimp only
      split <;> exact hid
    · rw [List.map_singleton, List.map_singleton, ← hv]
      split
      · have hsource : v.node.isSource = true := by
          rw [Vertex.eq_of_blurred_source hv]
          rfl
        rw [require_source _ hsource]
      · rfl
  · exact hs

-- ---------------------------------------------------------------------------
-- All calls
-- ---------------------------------------------------------------------------

/-- What holds in the beginning, and is kept by chains and by requests, holds after any calls. -/
theorem run_of {P : Session → Prop} (hstart : P { options := o })
    (hchain : ∀ {s s' m d head} root, s.Sound → P s → Begun s m d s' head →
      P (s'.addChain m root head).1)
    (hrequire : ∀ {s} name, s.Sound → P s → P (s.require name)) (calls : List Call) :
    (run o calls).Sound ∧ P (run o calls) := by
  have hchained {s s' readers} (h : Chained s readers s') (hs : s.Sound) (hp : P s) : P s' := by
    induction h with
    | nil => exact hp
    | cons hb _ ih => exact ih (hb.addChain hs _).1.sound (hchain _ hs hp hb)
  induction calls using List.reverseRecOn with
  | nil => exact ⟨sound_start o, hstart⟩
  | append_singleton calls c ih =>
    obtain ⟨hs, hp⟩ := ih
    rw [run_concat]
    cases c with
    | chart t =>
      have hc := hs.chained_call t
      exact ⟨(hc.grown hs).sound, hchained hc hs hp⟩
    | require name => exact ⟨hs.require name, hrequire name hs hp⟩

end Session

end ChartPipeline
