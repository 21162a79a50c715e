import ChartPipeline.Json.Number
import ChartPipeline.Ordered

/-!
# JSON values

Members keep their order. A value as written may repeat a key; `Json.merged` gives the value it
stands for, where a repeated key keeps its first place and its last value.
-/

namespace ChartPipeline

inductive Json where
  | null
  | bool (b : Bool)
  | number (n : Json.Number)
  | string (s : String)
  | array (items : List Json)
  | object (members : List (String × Json))

namespace Json

mutual
def merged : Json → Json
  | .array items => .array (mergedItems items)
  | .object members => .object (mergedMembers [] members)
  | v => v
termination_by structural v => v
def mergedItems : List Json → List Json
  | [] => []
  | v :: rest => v.merged :: mergedItems rest
termination_by structural vs => vs
def mergedMembers (done : OrderedMap String Json) : List (String × Json) → OrderedMap String Json
  | [] => done
  | (key, v) :: rest => mergedMembers (done.put key v.merged) rest
termination_by structural ms => ms
end

def get? (key : String) : Json → Option Json
  | .object members => OrderedMap.find? key members
  | _ => none

def ofNat (n : Nat) : Json := .number (.integer n)
def ofFloat (x : Float) : Json := .number (.float x)
def strings (texts : List String) : Json := .array (texts.map .string)

def present (members : List (String × Option Json)) : List (String × Json) :=
  members.filterMap fun (key, value) => value.map (key, ·)

end Json

end ChartPipeline
