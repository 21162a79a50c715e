import ChartPipeline.Node.Coercions
import ChartPipeline.Error
import ChartPipeline.Text.Printable

/-!
# Events

What is worth telling while a chart is compiled, and in which words.
-/

namespace ChartPipeline

inductive Level where
  | warn
  | debug
  | trace
deriving DecidableEq, Repr

namespace Level

def all : List Level := [.warn, .debug, .trace]

def name : Level → String
  | .warn => "warn"
  | .debug => "debug"
  | .trace => "trace"

def ofName? (s : String) : Option Level := all.find? (·.name == s)

def rank : Level → Nat
  | .warn => 0
  | .debug => 1
  | .trace => 2

end Level

inductive Event where
  | added (kind : String) (node : NodeId)
  | detached (kind : String) (node : NodeId) (children : Nat)
  | sourceReused (node : NodeId)
  | emitted (name : Option String) (transforms : Nat)
  /-- What is read at a checkpoint is complete, and other records build on it. -/
  | sealed (checkpoint record : String)
  | coercionReplaced (conflict : Coercions.Conflict)
  | transformSkipped (keys : List String)
  | unknownDateName (name : String)
  | stackDropped (measure : Channel)
  | binIgnored (field : String) (channel : Channel)
  | checkpointReplaced (name : String)
deriving DecidableEq, Repr

namespace Event

def level : Event → Level
  | .added .. | .detached .. | .sourceReused .. => .debug
  | .emitted .. | .sealed .. => .trace
  | .coercionReplaced .. | .transformSkipped .. | .unknownDateName .. | .stackDropped ..
  | .binIgnored .. | .checkpointReplaced .. => .warn

def shownOption : Option String → String
  | some s => "Some(" ++ Text.shown s ++ ")"
  | none => "None"

def message : Event → String
  | .added kind node => "add " ++ kind ++ " node " ++ nodeText node
  | .detached kind node children =>
    "detach " ++ kind ++ " node " ++ nodeText node ++ " (" ++ Nat.repr children ++ " children)"
  | .sourceReused node => "reusing source " ++ nodeText node ++ " for identical data"
  | .emitted name transforms =>
    "emit data source " ++ shownOption name ++ " (" ++ Nat.repr transforms ++ " transforms)"
  | .sealed checkpoint record => "checkpoint '" ++ checkpoint ++ "' sealed as '" ++ record ++ "'"
  | .coercionReplaced c =>
    "conflicting parse for field '" ++ c.field ++ "': '" ++ c.before ++ "' replaced by '" ++
      c.after ++ "'"
  | .transformSkipped keys =>
    "skipping unsupported transform with keys [" ++ String.intercalate ", " (keys.map Text.shown) ++
      "]"
  | .unknownDateName name => "unrecognised date-time name '" ++ name ++ "', using 0"
  | .stackDropped measure =>
    "cannot stack " ++ measure.title ++ " on a log scale, dropping the stack"
  | .binIgnored field channel =>
    "conflicting bin parameters for field '" ++ field ++ "' on " ++ channel.title ++
      ", keeping the first"
  | .checkpointReplaced name =>
    "checkpoint name '" ++ name ++ "' is declared twice, keeping the last"

def lines (upTo : Level) (events : List Event) : List String :=
  (events.filter fun e => e.level.rank ≤ upTo.rank).map fun e => e.level.name ++ " " ++ e.message

end Event

end ChartPipeline
