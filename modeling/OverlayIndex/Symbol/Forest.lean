/-
Forests, and the numbering of their nodes.

A forest is a row of trees.  It is given by its first tree's root, the forest below that
root and the forest beside it, so that a plain induction reaches every node.  Nodes are
numbered in the order in which a source text names them: a node before the nodes below it,
and those before the nodes beside it.
-/
namespace OverlayIndex

/-- A row of trees whose nodes carry an `α`. -/
inductive Forest (α : Type) where
  | nil
  | node (value : α) (below beside : Forest α)
  deriving DecidableEq, Repr

namespace Forest

variable {α β : Type}

/-- The tree with one node. -/
def single (a : α) : Forest α :=
  node a nil nil

/-- One row after the other. -/
def append : Forest α → Forest α → Forest α
  | nil, g => g
  | node a below beside, g => node a below (beside.append g)

instance : Append (Forest α) := ⟨append⟩

@[simp] theorem nil_append (g : Forest α) : nil ++ g = g := rfl

@[simp] theorem node_append (a : α) (below beside g : Forest α) :
    node a below beside ++ g = node a below (beside ++ g) := rfl

@[simp] theorem append_nil (f : Forest α) : f ++ nil = f := by
  induction f with
  | nil => rfl
  | node a below beside _ ih => simp [ih]

theorem append_assoc (f g h : Forest α) : f ++ g ++ h = f ++ (g ++ h) := by
  induction f with
  | nil => rfl
  | node a below beside _ ih => simp [ih]

/-- The number of nodes. -/
def size : Forest α → Nat
  | nil => 0
  | node _ below beside => below.size + beside.size + 1

@[simp] theorem size_append (f g : Forest α) : (f ++ g).size = f.size + g.size := by
  induction f with
  | nil => simp [size]
  | node a below beside _ ih => simp [size, ih]; omega

/-- The number of trees in the row. -/
def width : Forest α → Nat
  | nil => 0
  | node _ _ beside => beside.width + 1

/-- The values in numbering order. -/
def toList : Forest α → List α
  | nil => []
  | node a below beside => a :: (below.toList ++ beside.toList)

@[simp] theorem length_toList (f : Forest α) : f.toList.length = f.size := by
  induction f with
  | nil => rfl
  | node a below beside ih₁ ih₂ => simp [toList, size, ih₁, ih₂]

/-- The numbers of the row's roots when numbering starts at `first`. -/
def rootIds (first : Nat) : Forest α → List Nat
  | nil => []
  | node _ below beside => first :: beside.rootIds (first + below.size + 1)

/-- A node of a numbered forest: its value and its neighbours' numbers. -/
structure Node (α : Type) where
  value : α
  parent : Option Nat
  children : List Nat
  deriving DecidableEq, Repr

/-- The nodes in numbering order, when numbering starts at `first` and the row hangs below
`parent`. -/
def nodesFrom (first : Nat) (parent : Option Nat) : Forest α → List (Node α)
  | nil => []
  | node a below beside =>
    ⟨a, parent, below.rootIds (first + 1)⟩ ::
      (below.nodesFrom (first + 1) (some first) ++ beside.nodesFrom (first + below.size + 1) parent)

@[simp] theorem length_nodesFrom (f : Forest α) (first : Nat) (parent : Option Nat) :
    (f.nodesFrom first parent).length = f.size := by
  induction f generalizing first parent with
  | nil => rfl
  | node a below beside ih₁ ih₂ => simp [nodesFrom, size, ih₁, ih₂]

/-- The node that stands `k` places on in numbering order.  Whole trees before it are passed
over. -/
def nodeAt? (first : Nat) (parent : Option Nat) : Forest α → Nat → Option (Node α)
  | nil, _ => none
  | node a below _, 0 => some ⟨a, parent, below.rootIds (first + 1)⟩
  | node _ below beside, k + 1 =>
    if k < below.size then below.nodeAt? (first + 1) (some first) k
    else beside.nodeAt? (first + below.size + 1) parent (k - below.size)

/-- The node `k` places on is the one that the list of all nodes has there. -/
theorem nodeAt?_eq (f : Forest α) (first : Nat) (parent : Option Nat) (k : Nat) :
    f.nodeAt? first parent k = (f.nodesFrom first parent)[k]? := by
  induction f generalizing first parent k with
  | nil => rfl
  | node a below beside ih₁ ih₂ =>
    cases k with
    | zero => rfl
    | succ k =>
      rw [nodeAt?, nodesFrom, List.getElem?_cons_succ]
      split
      · rename_i h
        rw [ih₁, List.getElem?_append_left (by simpa using h)]
      · rename_i h
        rw [ih₂, List.getElem?_append_right (by simpa using h), length_nodesFrom]

/-- The forest with `f` applied to every value. -/
def map (f : α → β) : Forest α → Forest β
  | nil => nil
  | node a below beside => node (f a) (below.map f) (beside.map f)

end Forest

end OverlayIndex
