import ChartPipeline.Json.Basic
import ChartPipeline.Text.Quoted

/-!
# Printing JSON

The compact form has no blanks at all; the pretty form has one item to a line, indented by two
spaces for each open container, and nothing inside an empty one.
-/

namespace ChartPipeline.Json

mutual
def compactChars : Json → List Char
  | .null => ['n', 'u', 'l', 'l']
  | .bool true => ['t', 'r', 'u', 'e']
  | .bool false => ['f', 'a', 'l', 's', 'e']
  | .number n => n.text.toList
  | .string s => Text.quoteChars s.toList
  | .array items => '[' :: compactItems items ++ [']']
  | .object members => '\x7b' :: compactMembers members ++ ['\x7d']
termination_by structural v => v
def compactItems : List Json → List Char
  | [] => []
  | v :: rest => v.compactChars ++ (if rest.isEmpty then [] else ',' :: compactItems rest)
termination_by structural vs => vs
def compactMembers : List (String × Json) → List Char
  | [] => []
  | (key, v) :: rest =>
    Text.quoteChars key.toList ++ ':' :: v.compactChars ++
      (if rest.isEmpty then [] else ',' :: compactMembers rest)
termination_by structural ms => ms
end

def compact (v : Json) : String := String.ofList v.compactChars

def newline (level : Nat) : List Char := '\n' :: List.replicate (2 * level) ' '

mutual
def prettyChars (level : Nat) : Json → List Char
  | .array (v :: rest) => '[' :: prettyItems (level + 1) (v :: rest) ++ newline level ++ [']']
  | .object (m :: rest) =>
    '\x7b' :: prettyMembers (level + 1) (m :: rest) ++ newline level ++ ['\x7d']
  | v => v.compactChars
termination_by structural v => v
def prettyItems (level : Nat) : List Json → List Char
  | [] => []
  | v :: rest =>
    newline level ++ v.prettyChars level ++
      (if rest.isEmpty then [] else ',' :: prettyItems level rest)
termination_by structural vs => vs
def prettyMembers (level : Nat) : List (String × Json) → List Char
  | [] => []
  | (key, v) :: rest =>
    newline level ++ Text.quoteChars key.toList ++ ':' :: ' ' :: v.prettyChars level ++
      (if rest.isEmpty then [] else ',' :: prettyMembers level rest)
termination_by structural ms => ms
end

def pretty (v : Json) : String := String.ofList (v.prettyChars 0)

end ChartPipeline.Json
