import ChartPipeline.Json.Basic

/-!
# Shapes of values

Partial readers of whole values. Alternatives are tried in order with `<|>`.
-/

namespace ChartPipeline.Json

def string? : Json → Option String
  | .string s => some s
  | _ => none

def bool? : Json → Option Bool
  | .bool b => some b
  | _ => none

def number? : Json → Option Number
  | .number n => some n
  | _ => none

def float? (v : Json) : Option Float := v.number?.map Number.toFloat

/-- An integer within bounds; a double is none, even if it is whole. -/
def intWithin? (low high : Int) : Json → Option Int
  | .number (.integer n) => if low ≤ n ∧ n ≤ high then some n else none
  | _ => none

def int64? : Json → Option Int := intWithin? (-Nat.pow 2 63) (Nat.pow 2 63 - 1)

def nat32? (v : Json) : Option Nat := (v.intWithin? 0 (Nat.pow 2 32 - 1)).map Int.toNat

def list? {α : Type} (shape? : Json → Option α) : Json → Option (List α)
  | .array items => items.mapM shape?
  | _ => none

def pair? {α : Type} (shape? : Json → Option α) : Json → Option (α × α)
  | .array [a, b] => return (← shape? a, ← shape? b)
  | _ => none

/-- A word, as a string or as the only key of an object with the value `null`. -/
def word? {α : Type} (ofName? : String → Option α) : Json → Option α
  | .string name => ofName? name
  | .object [(name, .null)] => ofName? name
  | _ => none

def nullable? {α : Type} (shape? : Json → Option α) : Json → Option (Option α)
  | .null => some none
  | v => (shape? v).map some

/-- The member with one of the given names, which must not come twice. -/
def member? (members : List (String × Json)) (names : List String) : Option (Option Json) :=
  match members.filter fun m => names.contains m.1 with
  | [] => some none
  | [m] => some (some m.2)
  | _ => none

/-- The members of a record, in their order: from an object by name, from an array by place. -/
def record? (names : List (List String)) : Json → Option (List (Option Json))
  | .object members => names.mapM (member? members)
  | .array items => if items.length = names.length then some (items.map some) else none
  | _ => none

def required? {α : Type} (shape? : Json → Option α) (v : Option Json) : Option α := v.bind shape?

def optional? {α : Type} (shape? : Json → Option α) : Option Json → Option (Option α)
  | none => some none
  | some v => v.nullable? shape?

def hasOnly (names : List String) : Json → Bool
  | .object members => members.all fun m => names.contains m.1
  | _ => true

end ChartPipeline.Json
