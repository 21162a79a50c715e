import ChartPipeline.Proofs.Assembly.Labels
import ChartPipeline.Proofs.Session.Shape

/-!
# The checkpoints of a session

A session has the two checkpoints of each model that has added a chain, and no others
(`Session.Chained.perm_checkpoints`).
-/

namespace ChartPipeline

def Forest.checkpoints (f : Forest Vertex) : List String :=
  f.toList.filterMap (·.node.checkpointName?)

variable {g : Graph} {t : Tree Vertex} {path : List Vertex} {m : Model}

theorem checkpointName?_of_isPlain {n : Node} (h : n.isPlain = true) :
    n.checkpointName? = none := by
  cases n <;> simp_all [Node.isPlain, Node.checkpointName?]

theorem Model.checkpoints_chainNodes (o : Options) (m : Model) :
    (m.chainNodes o).filterMap Node.checkpointName? = [m.rawName, m.mainName] := by
  have hplain {nodes : List Node} (h : ∀ n ∈ nodes, n.isPlain = true) :
      nodes.filterMap Node.checkpointName? = [] :=
    List.filterMap_eq_nil_iff.mpr fun n hn => checkpointName?_of_isPlain (h n hn)
  obtain ⟨first, fields, last, hraw, hfirst, hlast⟩ := m.exists_rawNodes o
  have hfacet : (if m.facet?.isSome then [Node.facet (.ofModel m)] else []).filterMap
      Node.checkpointName? = [] := by
    split <;> rfl
  have hnodes : (m.rawNodes o).filterMap Node.checkpointName? = [] := by
    rw [hraw, List.filterMap_append, List.filterMap_append, hfacet, hplain hfirst,
      List.filterMap_cons_none rfl, hplain hlast]
    rfl
  have hmain : m.mainNodes.filterMap Node.checkpointName? = [] :=
    hplain fun n hn => isPlain_of_mem_mainNodes hn
  rw [chainNodes_eq, List.filterMap_append, hnodes]
  simp [Node.checkpointName?, hmain]

namespace Graph

theorem WellFormed.perm_extend (hg : g.WellFormed) (h : g.forest.Leads path t)
    (nodes : List Node) : (g.extend t.label.id nodes).1.forest.toList.Perm
      (g.forest.toList ++ numbered g.size nodes) := by
  have hperm := Forest.perm_graft hg.keyed h (Forest.stem (numbered g.size nodes))
  rw [Forest.toList_stem] at hperm
  rw [hg.forest_extend h]
  exact hperm

theorem WellFormed.perm_checkpoints (hg : g.WellFormed) (h : g.forest.Leads path t)
    (nodes : List Node) : (g.extend t.label.id nodes).1.forest.checkpoints.Perm
      (g.forest.checkpoints ++ nodes.filterMap Node.checkpointName?) := by
  have hnodes : (numbered g.size nodes).filterMap (·.node.checkpointName?) =
      nodes.filterMap Node.checkpointName? := by
    conv_rhs => rw [← map_node_numbered g.size nodes, List.filterMap_map]
    rfl
  rw [← hnodes, Forest.checkpoints, Forest.checkpoints, ← List.filterMap_append]
  exact (hg.perm_extend h nodes).filterMap _

theorem checkpoints_update (g : Graph) (id : NodeId) {change : Node → Node}
    (hc : ∀ n : Node, (change n).checkpointName? = n.checkpointName?) :
    (g.update id change).forest.checkpoints = g.forest.checkpoints := by
  rw [update, Forest.checkpoints, Forest.toList_map, List.filterMap_map]
  refine List.filterMap_congr fun v _ => ?_
  rw [Function.comp_apply]
  split
  · exact hc v.node
  · rfl

end Graph

namespace Session

variable {s s' : Session} {d : Data} {head : NodeId} {readers : List (Model × Data)}

theorem Begun.perm_checkpoints (hb : Begun s m d s' head) (hs : s.Sound) (hf : s.JoinedForest)
    (root : NodeId) : (s'.addChain m root head).1.graph.forest.checkpoints.Perm
      (s.graph.forest.checkpoints ++ [m.rawName, m.mainName]) := by
  obtain ⟨events, hadd⟩ := addChain_eq s' m root head
  rw [hadd]
  cases hb with
  | own hdata =>
    obtain ⟨hgrown, hsource⟩ := hs.sourceFor d
    obtain ⟨d', t, -, ht, hlabel⟩ := hgrown.sound.leads_source hsource
    have hid : (s.sourceFor d).2 = t.label.id := by rw [hlabel]
    have hsame : (s.sourceFor d).1.graph.forest.checkpoints = s.graph.forest.checkpoints := by
      rcases s.sourceFor_cases d with ⟨_, -, hsame⟩ | ⟨_, -, -, hnew⟩
      · rw [hsame]
      · rw [hnew]
        simp [Graph.add, Forest.checkpoints, Forest.tree, Forest.toList, Node.checkpointName?]
    have hperm := hgrown.sound.wellFormed.perm_checkpoints ht
      (.parse (.ofModel m) :: m.chainNodes (s.sourceFor d).1.options)
    rw [hsame, List.filterMap_cons_none rfl, Model.checkpoints_chainNodes] at hperm
    rw [hid]
    exact hperm
  | inherited hdata hd =>
    have hgrown := hs.coerce head (.ofModel m)
    obtain ⟨path, t, m', ht, rfl, -⟩ := (hd.grown hgrown).exists_leads
    have hsame : (s.coerce t.label.id (.ofModel m)).graph.forest.checkpoints =
        s.graph.forest.checkpoints := by
      obtain ⟨_, v, _, _, -, -, -, -, events, hcoerce⟩ := hf.coerce_eq hs hd (.ofModel m)
      rw [hcoerce]
      exact Graph.checkpoints_update _ _ fun n => by cases n <;> rfl
    have hperm := hgrown.sound.wellFormed.perm_checkpoints ht
      (m.chainNodes (s.coerce t.label.id (.ofModel m)).options)
    rwa [hsame, Model.checkpoints_chainNodes] at hperm

theorem Chained.perm_checkpoints (h : Chained s readers s') (hs : s.Sound) (hf : s.JoinedForest) :
    s'.graph.forest.checkpoints.Perm
      (s.graph.forest.checkpoints ++ checkpointNames (readers.map Prod.fst)) := by
  induction h with
  | nil => simp [checkpointNames]
  | cons hb _ ih =>
    have hrest := ih (hb.addChain hs _).1.sound (hf.addChain hs hb _)
    refine hrest.trans (((hb.perm_checkpoints hs hf _).append_right _).trans ?_)
    rw [List.append_assoc]
    rfl

/-- After any calls the checkpoints are those of the models that have added a chain. -/
theorem perm_checkpoints_run (o : Options) (calls : List Call) :
    (run o calls).graph.forest.checkpoints.Perm
      (checkpointNames ((calls.flatMap Call.added).map Prod.fst)) := by
  induction calls using List.reverseRecOn with
  | nil => exact .refl _
  | append_singleton calls call ih =>
    obtain ⟨hs, hf⟩ := joinedForest_run o calls
    rw [run_concat, List.flatMap_append, List.flatMap_singleton, List.map_append,
      checkpointNames_append]
    cases call with
    | chart t => exact ((hs.chained_call t).perm_checkpoints hs hf).trans (ih.append_right _)
    | require name =>
      have hsame : ((run o calls).require name).graph.forest.checkpoints =
          (run o calls).graph.forest.checkpoints := by
        unfold Session.require
        split
        · exact Graph.checkpoints_update _ _ fun n => by cases n <;> rfl
        · rfl
      have hnone : checkpointNames ((Call.require name).added.map Prod.fst) = [] := rfl
      rw [call, hsame, hnone, List.append_nil]
      exact ih

end Session

end ChartPipeline
