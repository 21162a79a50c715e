import ChartPipeline.Chart.Spec
import ChartPipeline.Error
import ChartPipeline.Forest

/-!
# Models

A chart spec resolves to a tree of models. A unit draws marks; a facet and a layer contain other
models. Every model has a name, from which the names of its checkpoints and signals are made.
-/

namespace ChartPipeline

structure StackProperties where
  /-- The channel whose field groups the stacks, if it has a field. -/
  groupby : Option Channel
  measure : Channel
  /-- The definitions that tell the members of a stack apart. -/
  stackBy : List (Channel × FieldDef)
  offset : StackOffset

/-- Whether a unit stacks. A stack on a logarithmic scale is dropped. -/
inductive StackDecision where
  | no
  | dropped (measure : Channel)
  | yes (stack : StackProperties)

def StackDecision.stack? : StackDecision → Option StackProperties
  | .yes stack => some stack
  | _ => none

structure UnitModel where
  mark : Mark
  orient : Option Orient
  encoding : Encoding
  stack : Option StackProperties

structure FacetModel where
  row : Option FieldDef
  column : Option FieldDef

inductive ModelKind where
  | unit (u : UnitModel)
  | facet (f : FacetModel)
  | layer

structure Model where
  name : String
  data : Option Data
  transforms : List TransformDef
  kind : ModelKind

/-- A text as an identifier: all but ASCII letters and digits become underscores. -/
def variableName (s : String) : String :=
  String.ofList (s.toList.map fun c => if c.isAlphanum || c = '_' then c else '_')

def joinName (owner text : String) : String :=
  if owner = "" then text else owner ++ "_" ++ text

namespace Model

def nameOf (m : Model) (text : String) : String := joinName m.name text

def unit? (m : Model) : Option UnitModel :=
  match m.kind with
  | .unit u => some u
  | _ => none

def facet? (m : Model) : Option FacetModel :=
  match m.kind with
  | .facet f => some f
  | _ => none

def fieldDefs (m : Model) : List (Channel × FieldDef) :=
  match m.kind with
  | .unit u => u.encoding.all
  | .facet f => f.row.toList.map (.row, ·) ++ f.column.toList.map (.column, ·)
  | .layer => []

def fieldDef? (m : Model) (c : Channel) : Option FieldDef :=
  match m.kind with
  | .unit u => u.encoding.first? c
  | .facet f => if c = .row then f.row else if c = .column then f.column else none
  | .layer => none

def field? (m : Model) (c : Channel) (suffix : Option BinSuffix) : Option String :=
  (m.fieldDef? c).bind (·.nameIfAny suffix)

def defaultScaleType (c : Channel) (d : FieldDef) (mark : Mark) : ScaleType :=
  match d.fieldType with
  | some .temporal => if c = .shape then .ordinal else .time
  | some .quantitative =>
    if c = .shape then .ordinal
    else if (c = .color ∨ c = .opacity ∨ c = .size) ∧ d.isBinned then .binOrdinal
    else .linear
  | _ =>
    if c = .x ∨ c = .y then if mark = .bar then .band else .point
    else .ordinal

/-- The scale type of a channel; only units have scales. -/
def scaleType? (m : Model) (c : Channel) : Option ScaleType := do
  let u ← m.unit?
  guard c.hasScale
  let d ← u.encoding.first? c
  return d.scaleType.getD (defaultScaleType c d u.mark)

def isDiscrete (m : Model) (c : Channel) : Bool := (m.scaleType? c).any ScaleType.isDiscrete

def scaleDef? (m : Model) (c : Channel) : Option ScaleDef := do
  (← (← m.unit?).encoding.first? c).scale

end Model

/-- The channels whose fields tell the members of a stack apart. -/
def stackByChannels : List Channel := [.color, .detail, .opacity, .size]

def stackBy (e : Encoding) : List (Channel × FieldDef) :=
  stackByChannels.flatMap fun c =>
    ((e.defs c).filter fun d => d.field.isSome && d.aggregate.isNone).map (c, ·)

/-- The channel of the measure and the other one: exactly one of `x` and `y` is aggregated. -/
def stackChannels? (e : Encoding) : Option (Channel × Channel) :=
  let aggregated (c : Channel) : Bool := (e.first? c).any (·.aggregate.isSome)
  match aggregated .x, aggregated .y with
  | true, false => some (.x, .y)
  | false, true => some (.y, .x)
  | _, _ => none

def stackOffset? (mark : Mark) : Option StackOffset → Option StackOffset
  | some .off => none
  | some offset => some offset
  | none => if mark.isStacked then some .zero else none

def decideStack (mark : Mark) (setting : Option StackOffset) (e : Encoding) : StackDecision :=
  match stackBy e, stackChannels? e, stackOffset? mark setting with
  | d :: ds, some (measure, dimension), some offset =>
    if (e.first? measure).any (·.scaleType = some .log) then .dropped measure
    else .yes {
      groupby := if (e.first? dimension).any (·.field.isSome) then some dimension else none
      measure
      stackBy := d :: ds
      offset }
  | _, _, _ => .no

def MarkDef.decideStack (m : MarkDef) (e : Encoding) : StackDecision :=
  ChartPipeline.decideStack m.mark m.stack e

mutual
/-- The tree of models of a chart, which bears the given name unless it has one of its own. A
chart with a facet is a facet, else one with layers is a layer, and else it is a unit. -/
def ChartSpec.resolveAs (default : String) : ChartSpec → Except CompileError (Tree Model)
  | ⟨name, data, mark, encoding, transforms, facet, inner, layer⟩ =>
    let name := (name.map variableName).getD default
    match facet with
    | some ⟨none, none⟩ => .error (.invalidSpec (.facetWithoutChannels name))
    | some ⟨row, column⟩ =>
      match inner with
      | none => .error (.invalidSpec (.facetWithoutInner name))
      | some inner => do
        let child ← inner.resolveAs (joinName name "child")
        return ⟨{ name, data, transforms, kind := .facet ⟨row, column⟩ },
          .tree child.label child.below⟩
    | none =>
      if layer.isEmpty then
        match mark with
        | none => .error (.invalidSpec (.unitWithoutMark name))
        | some mark =>
          let unit : UnitModel :=
            { mark := mark.mark, orient := mark.orient, encoding,
              stack := (mark.decideStack encoding).stack? }
          .ok ⟨{ name, data, transforms, kind := .unit unit }, .nil⟩
      else do
        let below ← resolveLayers name 0 layer
        return ⟨{ name, data, transforms, kind := .layer }, below⟩
termination_by structural spec => spec
/-- The models of layers, numbered from `index` on. -/
def resolveLayers (owner : String) (index : Nat) :
    List ChartSpec → Except CompileError (Forest Model)
  | [] => .ok .nil
  | layer :: rest => do
    let child ← layer.resolveAs (joinName owner ("layer_" ++ Nat.repr index))
    return .cons child.label child.below (← resolveLayers owner (index + 1) rest)
termination_by structural layers => layers
end

def ChartSpec.resolve (spec : ChartSpec) : Except CompileError (Tree Model) := spec.resolveAs ""

end ChartPipeline
