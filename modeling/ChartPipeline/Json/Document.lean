import ChartPipeline.Json.Basic

/-!
# JSON text, as far as it goes

A document is what was found of a JSON text. It may break off: a container then has a fault where
its end should be, or a value is itself a fault. Whoever takes a document apart walks it in the
order of the text and reports the first thing that is wrong, be it a fault of the text or a value
of the wrong shape. Stepping over a value that nobody asks for is more lenient than reading it, and
a limit on the nesting of containers concerns only a reader that goes into them.
-/

namespace ChartPipeline

inductive Fault where
  /-- The text breaks the grammar or a limit. -/
  | malformed
  /-- The text ends too early. -/
  | truncated
  /-- A value has the wrong shape. -/
  | mismatched
deriving DecidableEq, Repr

inductive Document where
  | null
  | bool (b : Bool)
  | number (n : Json.Number)
  | string (s : String)
  /-- The items, and the fault in place of the closing bracket. -/
  | array (items : List Document) (ending : Option Fault)
  /-- The members, a key that cannot be decoded being `none`, and the fault in place of the
  closing brace. -/
  | object (members : List (Option String × Document)) (ending : Option Fault)
  /-- An array nested too deep to be entered, and the fault met when it is stepped over. -/
  | deepArray (onSkip : Option Fault)
  /-- An object nested too deep to be entered, and the fault met when it is stepped over. -/
  | deepObject (onSkip : Option Fault)
  /-- No value: the fault met when it is read, and the one met when it is stepped over. -/
  | faulty (onRead : Fault) (onSkip : Option Fault)

namespace Document

mutual
def ofJson : Json → Document
  | .null => .null
  | .bool b => .bool b
  | .number n => .number n
  | .string s => .string s
  | .array items => .array (ofItems items) none
  | .object members => .object (ofMembers members) none
termination_by structural v => v
def ofItems : List Json → List Document
  | [] => []
  | v :: rest => ofJson v :: ofItems rest
termination_by structural vs => vs
def ofMembers : List (String × Json) → List (Option String × Document)
  | [] => []
  | (key, v) :: rest => (some key, ofJson v) :: ofMembers rest
termination_by structural ms => ms
end

def endHere (ending : Option Fault) : Except Fault Unit :=
  match ending with
  | none => .ok ()
  | some fault => .error fault

mutual
def skip : Document → Except Fault Unit
  | .deepArray onSkip | .deepObject onSkip | .faulty _ onSkip => endHere onSkip
  | .array items ending => skipItems ending items
  | .object members ending => skipMembers ending members
  | _ => .ok ()
termination_by structural d => d
def skipItems (ending : Option Fault) : List Document → Except Fault Unit
  | [] => endHere ending
  | d :: rest => do d.skip; skipItems ending rest
termination_by structural ds => ds
def skipMembers (ending : Option Fault) : List (Option String × Document) → Except Fault Unit
  | [] => endHere ending
  | (_, d) :: rest => do d.skip; skipMembers ending rest
termination_by structural ds => ds
end

mutual
/-- The whole value, with repeated keys as written. -/
def value : Document → Except Fault Json
  | .null => .ok .null
  | .bool b => .ok (.bool b)
  | .number n => .ok (.number n)
  | .string s => .ok (.string s)
  | .array items ending => return .array (← valueItems ending items)
  | .object members ending => return .object (← valueMembers ending members)
  | .deepArray _ | .deepObject _ => .error .malformed
  | .faulty fault _ => .error fault
termination_by structural d => d
def valueItems (ending : Option Fault) : List Document → Except Fault (List Json)
  | [] => do endHere ending; return []
  | d :: rest => return (← d.value) :: (← valueItems ending rest)
termination_by structural ds => ds
def valueMembers (ending : Option Fault) :
    List (Option String × Document) → Except Fault (List (String × Json))
  | [] => do endHere ending; return []
  | (none, _) :: _ => .error .malformed
  | (some key, d) :: rest => return (key, ← d.value) :: (← valueMembers ending rest)
termination_by structural ds => ds
end

mutual
def depth : Document → Nat
  | .array items _ => depthItems items + 1
  | .object members _ => depthMembers members + 1
  | _ => 0
termination_by structural d => d
def depthItems : List Document → Nat
  | [] => 0
  | d :: rest => max d.depth (depthItems rest)
termination_by structural ds => ds
def depthMembers : List (Option String × Document) → Nat
  | [] => 0
  | (_, d) :: rest => max d.depth (depthMembers rest)
termination_by structural ds => ds
end

def mismatch {α : Type} : Document → Except Fault α
  | .faulty fault _ => .error fault
  | _ => .error .mismatched

def text : Document → Except Fault String
  | .string s => .ok s
  | d => d.mismatch

def boolean : Document → Except Fault Bool
  | .bool b => .ok b
  | d => d.mismatch

def nullable {α : Type} (read : Document → Except Fault α) : Document → Except Fault (Option α)
  | .null => .ok none
  | d => some <$> read d

def readItems {α : Type} (read : Document → Except Fault α) (ending : Option Fault) :
    List Document → Except Fault (List α)
  | [] => do endHere ending; return []
  | d :: rest => return (← read d) :: (← readItems read ending rest)

def list {α : Type} (read : Document → Except Fault α) : Document → Except Fault (List α)
  | .array items ending => readItems read ending items
  | .deepArray _ => .error .malformed
  | d => d.mismatch

def foldMembers {σ : Type} (step : σ → String → Document → Except Fault σ)
    (ending : Option Fault) (acc : σ) : List (Option String × Document) → Except Fault σ
  | [] => do endHere ending; return acc
  | (none, _) :: _ => .error .malformed
  | (some key, d) :: rest => do foldMembers step ending (← step acc key d) rest

/-- Walks the items of an array as the members with the given names. -/
def foldItems {σ : Type} (step : σ → String → Document → Except Fault σ)
    (ending : Option Fault) (acc : σ) : List String → List Document → Except Fault σ
  | _, [] => do endHere ending; return acc
  | [], _ :: _ => .error .malformed
  | key :: keys, d :: rest => do foldItems step ending (← step acc key d) keys rest

/-- A record is written as an object, or as the array of its members in their order. `finish`
learns which, because only an object may leave a member out. -/
def record {σ α : Type} (keys : List String) (step : σ → String → Document → Except Fault σ)
    (start : σ) (finish : Bool → σ → Except Fault α) : Document → Except Fault α
  | .object members ending => do finish false (← foldMembers step ending start members)
  | .array items ending => do finish true (← foldItems step ending start keys items)
  | .deepArray _ | .deepObject _ => .error .malformed
  | d => d.mismatch

/-- Reads a map: a repeated key keeps its place and takes the last value. -/
def map {κ α : Type} [DecidableEq κ] (key? : String → Option κ)
    (read : Document → Except Fault α) : Document → Except Fault (OrderedMap κ α)
  | .object members ending =>
    foldMembers (fun acc name d => do
      match key? name with
      | none => .error .mismatched
      | some key => return acc.put key (← read d)) ending [] members
  | .deepObject _ => .error .malformed
  | d => d.mismatch

/-- A value of which every shape is tried only once it has been read whole. -/
def shaped {α : Type} (shape? : Json → Option α) (d : Document) : Except Fault α := do
  match shape? (← d.value) with
  | some a => .ok a
  | none => .error .mismatched

/-- Fills a slot that may be filled once. -/
def fill {α : Type} (slot : Option α) (read : Except Fault α) : Except Fault (Option α) :=
  match slot with
  | some _ => .error .mismatched
  | none => some <$> read

def optionalSlot {α : Type} (positional : Bool) : Option (Option α) → Except Fault (Option α)
  | some a => .ok a
  | none => if positional then .error .mismatched else .ok none

end Document

end ChartPipeline
