/-
The symbol tree of a file.

Symbols are addressed by their number in the forest, counted from zero in the order in
which the text opens them.  A number past the end addresses nothing; the queries that take
a number answer `none` then.
-/
import OverlayIndex.Symbol.Basic
import OverlayIndex.Symbol.Forest

namespace OverlayIndex

/-- The number of a symbol in its tree. -/
abbrev SymbolId := Nat

/-- All that was found in one file. -/
structure SymbolTree where
  file : FileId
  forest : Forest Symbol
  deriving DecidableEq, Repr

namespace SymbolTree

/-- The tree of a file that has no symbols or cannot be read. -/
def empty (file : FileId) : SymbolTree :=
  ⟨file, .nil⟩

/-- The number of symbols. -/
def size (t : SymbolTree) : Nat :=
  t.forest.size

/-- The numbers of the symbols at file level. -/
def roots (t : SymbolTree) : List SymbolId :=
  t.forest.rootIds 0

/-- All symbols in order, with their neighbours' numbers. -/
def nodes (t : SymbolTree) : List (Forest.Node Symbol) :=
  t.forest.nodesFrom 0 none

/-- All symbols in order. -/
def symbols (t : SymbolTree) : List Symbol :=
  t.nodes.map (·.value)

/-- The symbol of a number with its neighbours. -/
def node? (t : SymbolTree) (id : SymbolId) : Option (Forest.Node Symbol) :=
  t.forest.nodeAt? 0 none id

theorem node?_eq (t : SymbolTree) (id : SymbolId) : t.node? id = t.nodes[id]? :=
  t.forest.nodeAt?_eq 0 none id

/-- The symbol of a number. -/
def get? (t : SymbolTree) (id : SymbolId) : Option Symbol :=
  (t.node? id).map (·.value)

/-- The number of the symbol that directly holds this one. -/
def parent? (t : SymbolTree) (id : SymbolId) : Option SymbolId :=
  (t.node? id).bind (·.parent)

/-- The numbers of the symbols directly inside this one. -/
def children (t : SymbolTree) (id : SymbolId) : List SymbolId :=
  ((t.node? id).map (·.children)).getD []

/-- The symbols that hold this one, innermost first.  A holder's number is smaller, which is
what ends the climb. -/
def ancestors (t : SymbolTree) (id : SymbolId) : List SymbolId :=
  match t.parent? id with
  | none => []
  | some p => if p < id then p :: ancestors t p else []
termination_by id

/-- The symbols of these numbers, each with those inside it.  Numbers go up along a row and from a
symbol to those inside it, which is what ends the walk. -/
def outlineFrom (t : SymbolTree) (first : Nat) : List SymbolId → Forest Symbol
  | [] => .nil
  | id :: ids =>
    match t.node? id with
    | none => .nil
    | some n =>
      if h : first ≤ id ∧ id < t.size then
        .node n.value (t.outlineFrom (id + 1) n.children) (t.outlineFrom (id + 1) ids)
      else .nil
termination_by t.size - first
decreasing_by
  all_goals exact Nat.sub_lt_sub_left (Nat.lt_of_le_of_lt h.1 h.2) (Nat.lt_succ_of_le h.1)

/-- All symbols, each with those inside it. -/
def outline (t : SymbolTree) : Forest Symbol :=
  t.outlineFrom 0 t.roots

/-- The symbol of this number satisfies `p`. -/
def satisfies (t : SymbolTree) (p : Symbol → Bool) (id : SymbolId) : Bool :=
  (t.get? id).any p

/-- The nearest symbol of the given kind that holds this one. -/
def enclosing? (t : SymbolTree) (id : SymbolId) (kind : Kind) : Option SymbolId :=
  (t.ancestors id).find? (t.satisfies (·.kind = kind))

/-- The symbols of one kind directly inside this one. -/
def childrenOfKind (t : SymbolTree) (id : SymbolId) (kind : Kind) : List SymbolId :=
  (t.children id).filter (t.satisfies (·.kind = kind))

/-- The first symbol directly inside this one that has one of the kinds and the name. -/
def findChild? (t : SymbolTree) (id : SymbolId) (kinds : List Kind) (name : String) :
    Option SymbolId :=
  (t.children id).find? (t.satisfies fun s => kinds.contains s.kind && s.name = name)

/-- The first symbol at file level that has the kind and the name. -/
def findRoot? (t : SymbolTree) (kind : Kind) (name : String) : Option SymbolId :=
  t.roots.find? (t.satisfies fun s => s.kind = kind && s.name = name)

/-- The first overlay whose extent holds the position. -/
def entryAt? (t : SymbolTree) (p : Position) : Option SymbolId :=
  t.roots.find? (t.satisfies fun s => s.kind = .entry && s.extent.contains p)

end SymbolTree

end OverlayIndex
