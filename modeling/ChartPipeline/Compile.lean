import ChartPipeline.Chart.Reader
import ChartPipeline.Session

/-!
# Compiling

From a chart spec to its records.
-/

namespace ChartPipeline

mutual
/-- The stack decisions of the units of a chart, in the order in which they are resolved; `none`
where the chart cannot be resolved. -/
def ChartSpec.stackDecisions : ChartSpec → List (Option StackDecision)
  | ⟨_, _, mark, encoding, _, facet, inner, layer⟩ =>
    match facet with
    | some ⟨none, none⟩ => [none]
    | some _ =>
      match inner with
      | none => [none]
      | some inner => inner.stackDecisions
    | none =>
      if layer.isEmpty then [mark.map (·.decideStack encoding)]
      else layerStackDecisions layer
termination_by structural spec => spec
def layerStackDecisions : List ChartSpec → List (Option StackDecision)
  | [] => []
  | layer :: rest => layer.stackDecisions ++ layerStackDecisions rest
termination_by structural layers => layers
end

/-- What there is to tell while a chart is resolved, up to the first failure. -/
def ChartSpec.notices (spec : ChartSpec) : List Event :=
  (spec.stackDecisions.takeWhile Option.isSome).filterMap fun
    | some (.dropped measure) => some (.stackDropped measure)
    | _ => none

def Options.compileTree (o : Options) (chart : Tree Model) :
    List Event × Except CompileError Compiled :=
  match ({ options := o } : Session).addChart chart with
  | .ok (s, _) =>
    let (events, result) := s.finish
    (s.events ++ events, result)
  | .error failure => (failure.session.events, .error failure.cause)

def ChartSpec.compileTelling (spec : ChartSpec) (o : Options) :
    List Event × Except CompileError Compiled :=
  match spec.resolve with
  | .ok chart =>
    let (events, result) := o.compileTree chart
    (spec.notices ++ events, result)
  | .error cause => (spec.notices, .error cause)

def ChartSpec.compile (spec : ChartSpec) (o : Options) : Except CompileError Compiled :=
  (spec.compileTelling o).2

end ChartPipeline
