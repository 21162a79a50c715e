/-!
# Forests

A row of trees, each node with a label: the first node with the row below it, and the rest of the
row. One constructor instead of trees and lists of trees keeps every recursion and every induction
to a single type.
-/

namespace ChartPipeline

inductive Forest (α : Type) where
  | nil
  | cons (label : α) (below rest : Forest α)

structure Tree (α : Type) where
  label : α
  below : Forest α

namespace Forest

variable {α β : Type}

def append : Forest α → Forest α → Forest α
  | nil, other => other
  | cons a below rest, other => cons a below (rest.append other)

instance : Append (Forest α) := ⟨append⟩

def tree (a : α) (below : Forest α) : Forest α := cons a below nil

def leaves : List α → Forest α
  | [] => nil
  | a :: rest => cons a nil (leaves rest)

/-- All labels, each before those below it. -/
def toList : Forest α → List α
  | nil => []
  | cons a below rest => a :: (below.toList ++ rest.toList)

@[simp] theorem toList_append (f g : Forest α) : (f ++ g).toList = f.toList ++ g.toList := by
  induction f with
  | nil => rfl
  | cons a below rest _ ih =>
    have h : (cons a below rest ++ g).toList = a :: (below.toList ++ (rest ++ g).toList) := rfl
    rw [h, ih]
    simp [toList]

@[simp] theorem toList_leaves (as : List α) : (leaves as).toList = as := by
  induction as with
  | nil => rfl
  | cons a as ih => simp [leaves, toList, ih]

def roots : Forest α → List α
  | nil => []
  | cons a _ rest => a :: rest.roots

@[simp] theorem roots_append (f g : Forest α) : (f ++ g).roots = f.roots ++ g.roots := by
  induction f with
  | nil => rfl
  | cons a below rest _ ih =>
    have h : (cons a below rest ++ g).roots = a :: (rest ++ g).roots := rfl
    rw [h, ih]
    rfl

/-- The first tree, in the order of `toList`, whose root has the property. -/
def find? (p : α → Bool) : Forest α → Option (Tree α)
  | nil => none
  | cons a below rest => if p a then some ⟨a, below⟩ else (below.find? p).or (rest.find? p)

/-- The labels from a root of the row down to the first node that has the property. -/
def path? (p : α → Bool) : Forest α → Option (List α)
  | nil => none
  | cons a below rest =>
    if p a then some [a] else ((below.path? p).map (a :: ·)).or (rest.path? p)

/-- Every node with its parent, the roots having the given one, and with its children. -/
def edges (up : Option α) : Forest α → List (α × Option α × List α)
  | nil => []
  | cons a below rest => (a, up, below.roots) :: (below.edges (some a) ++ rest.edges up)

def map (f : α → β) : Forest α → Forest β
  | nil => nil
  | cons a below rest => cons (f a) (below.map f) (rest.map f)

@[simp] theorem toList_map (f : α → β) (t : Forest α) : (t.map f).toList = t.toList.map f := by
  induction t with
  | nil => rfl
  | cons a below rest ihb ihr => simp [map, toList, ihb, ihr]

/-- Replaces the row below every node that has the property and lies below no other such node. -/
def changeBelow (p : α → Bool) (f : α → Forest α → Forest α) : Forest α → Forest α
  | nil => nil
  | cons a below rest =>
    cons a (if p a then f a below else below.changeBelow p f) (rest.changeBelow p f)

def remove (p : α → Bool) : Forest α → Forest α
  | nil => nil
  | cons a below rest => if p a then rest.remove p else cons a (below.remove p) (rest.remove p)

/-- Puts the row below a node in the place of the node, for every node that has the property. -/
def splice (p : α → Bool) : Forest α → Forest α
  | nil => nil
  | cons a below rest =>
    if p a then below.splice p ++ rest.splice p else cons a (below.splice p) (rest.splice p)

theorem toList_splice (p : α → Bool) (f : Forest α) :
    (f.splice p).toList = f.toList.filter fun a => !p a := by
  induction f with
  | nil => rfl
  | cons a below rest ihb ihr =>
    by_cases h : p a
    · simp [splice, toList, h, ihb, ihr]
    · simp [splice, toList, h, ihb, ihr]

/-- A row with others in the place of the first node that has the key. -/
def putFor {κ : Type} [DecidableEq κ] (key : α → κ) (k : κ) (others : List α) : List α → List α
  | [] => []
  | a :: row => if key a = k then others ++ row else a :: putFor key k others row

/-- Splices out every node that the rule drops, given the nearest node above it that is kept;
`up` is above the row. -/
def prune (drops : α → α → Bool) (up : α) : Forest α → Forest α
  | nil => nil
  | cons a below rest =>
    if drops up a then below.prune drops up ++ rest.prune drops up
    else cons a (below.prune drops a) (rest.prune drops up)

/-- The nodes that `prune` splices out, each with the number of its children. -/
def dropped (drops : α → α → Bool) (up : α) : Forest α → List (α × Nat)
  | nil => []
  | cons a below rest =>
    if drops up a then
      (a, below.roots.length) :: (below.dropped drops up ++ rest.dropped drops up)
    else below.dropped drops a ++ rest.dropped drops up

def joinLevels {γ : Type} : List (List γ) → List (List γ) → List (List γ)
  | [], ys => ys
  | xs, [] => xs
  | x :: xs, y :: ys => (x ++ y) :: joinLevels xs ys

/-- The trees whose root has the property, by how many other such roots are above them. -/
def levels (p : α → Bool) : Forest α → List (List (Tree α))
  | nil => []
  | cons a below rest =>
    let inner := below.levels p
    joinLevels (if p a then [⟨a, below⟩] :: inner else inner) (rest.levels p)

end Forest

end ChartPipeline
