import ChartPipeline.Session

/-!
# What a model does to the rows

The nodes of its chain do in their order what the model declares (`transforms_chainNodes`).
-/

namespace ChartPipeline

def Link.node? : Link → Option Node
  | .node n => some n
  | .tell _ => none

def TransformDef.stage : TransformDef → List Transform
  | .filter d => [.filter (Expression.filterDef d)]
  | .calculate c => [.formula c.expr c.target]
  | .unsupported _ => []

namespace Model

def stages (o : Options) (m : Model) : List Transform :=
  let aggregation := Aggregation.ofModel m
  let order := PathOrder.ofModel m
  m.transforms.flatMap TransformDef.stage ++
    NullFilter.transforms (NullFilter.ofModel m o.filterInvalid) ++
    (Binning.ofModel m o.numberFormat).transforms ++
    TimeUnits.transforms (TimeUnits.ofModel m) ++
    (if aggregation.isEmpty then [] else [aggregation.transform]) ++
    (Stacking.ofModel m).toList.flatMap Stacking.transforms ++
    PositiveFilter.transforms (PositiveFilter.ofModel m) ++
    if order.isEmpty then [] else [.collect order]

def chainNodes (o : Options) (m : Model) : List Node :=
  (m.rawLinks o).filterMap Link.node? ++ .checkpoint { name := m.rawName, required := false } ::
    (m.mainNodes ++ [.checkpoint { name := m.mainName, required := true }])

-- ---------------------------------------------------------------------------
-- The stages of a chain
-- ---------------------------------------------------------------------------

theorem transforms_declaredLinks (m : Model) :
    (m.declaredLinks.filterMap Link.node?).flatMap Node.transforms =
      m.transforms.flatMap TransformDef.stage := by
  rw [declaredLinks, List.filterMap_append, List.flatMap_append, List.filterMap_filterMap,
    List.filterMap_filterMap]
  refine (congr (congrArg _ ?_) ?_).trans (List.nil_append _)
  · -- what there is to tell is no node
    rw [List.filterMap_eq_nil_iff.mpr fun t _ => by cases t <;> rfl]
    rfl
  · induction m.transforms with
    | nil => rfl
    | cons t ts ih =>
      rw [List.flatMap_cons, ← ih]
      cases t <;> simp [TransformDef.stage, Link.node?, Node.transforms]

theorem transforms_rawLinks (o : Options) (m : Model) :
    ((m.rawLinks o).filterMap Link.node?).flatMap Node.transforms =
      m.transforms.flatMap TransformDef.stage ++
        NullFilter.transforms (NullFilter.ofModel m o.filterInvalid) ++
        (Binning.ofModel m o.numberFormat).transforms ++
        TimeUnits.transforms (TimeUnits.ofModel m) := by
  have hfacet : (m.facetLinks.filterMap Link.node?).flatMap Node.transforms = [] := by
    unfold facetLinks
    split <;> rfl
  have hbin : ((m.binLinks o).filterMap Link.node?).flatMap Node.transforms =
      (Binning.ofModel m o.numberFormat).transforms := by
    have htold (events : List Event) : (events.map Link.tell).filterMap Link.node? = [] := by
      simp [Link.node?]
    unfold binLinks
    dsimp only
    rw [List.filterMap_append, htold, List.nil_append]
    split
    · rename_i h
      rw [Binning.transforms, List.isEmpty_iff.mp h]
      rfl
    · exact List.append_nil _
  have hunits : (m.timeUnitLinks.filterMap Link.node?).flatMap Node.transforms =
      TimeUnits.transforms (TimeUnits.ofModel m) := by
    unfold timeUnitLinks
    dsimp only
    split
    · rename_i h
      rw [List.isEmpty_iff.mp h]
      rfl
    · exact List.append_nil _
  unfold rawLinks
  simp only [List.filterMap_append, List.flatMap_append, hfacet, hbin, hunits,
    transforms_declaredLinks, List.nil_append]
  simp [Link.node?, Node.transforms]

theorem transforms_mainNodes (m : Model) : m.mainNodes.flatMap Node.transforms =
    (if (Aggregation.ofModel m).isEmpty then [] else [(Aggregation.ofModel m).transform]) ++
      (Stacking.ofModel m).toList.flatMap Stacking.transforms ++
      PositiveFilter.transforms (PositiveFilter.ofModel m) ++
      if (PathOrder.ofModel m).isEmpty then [] else [.collect (PathOrder.ofModel m)] := by
  have hpositive : (if (PositiveFilter.ofModel m).isEmpty then []
      else [Node.positiveFilter (PositiveFilter.ofModel m)]).flatMap Node.transforms =
        PositiveFilter.transforms (PositiveFilter.ofModel m) := by
    split
    · rename_i h
      rw [List.isEmpty_iff.mp h]
      rfl
    · exact List.append_nil _
  unfold mainNodes
  simp only [List.flatMap_append, hpositive, List.flatMap_map]
  congr 1
  · congr 2
    split <;> rfl
  · split <;> rfl

theorem transforms_chainNodes (o : Options) (m : Model) :
    (m.chainNodes o).flatMap Node.transforms = m.stages o := by
  simp only [chainNodes, stages, List.flatMap_append, List.flatMap_cons, transforms_rawLinks,
    transforms_mainNodes]
  simp [Node.transforms]

end Model

end ChartPipeline
