/-
Paths.

A path keeps the spelling it was given, which is what is printed and what patterns look at.
Whether two paths are the same, and which comes first, is decided by their components:
repeated and trailing slashes and inner points make no difference, while a leading point is
a component of its own.
-/
import OverlayIndex.Text.Lines

namespace OverlayIndex

/-- A step of a path. -/
inductive Component where
  /-- The slash at the front of an absolute path. -/
  | root
  /-- A point at the front of a relative path. -/
  | here
  /-- Two points. -/
  | up
  | name (s : String)
  deriving DecidableEq, Repr

namespace Component

/-- The step that a stretch between slashes stands for.  An empty stretch and a point stand for
none. -/
def ofSegment? (s : List Char) : Option Component :=
  if s = [] ∨ s = ['.'] then none
  else if s = ['.', '.'] then some up
  else some (name (String.ofList s))

/-- The place of the sort of step in the order. -/
def rank : Component → Nat
  | root => 0
  | here => 1
  | up => 2
  | name _ => 3

/-- Steps are ordered by sort, and names by their characters. -/
def compare : Component → Component → Ordering
  | name a, name b => Ord.compare a b
  | a, b => Ord.compare a.rank b.rank

end Component

/-- The order of lists that the first difference decides; a list comes before its extensions. -/
def compareLists {α : Type} (cmp : α → α → Ordering) : List α → List α → Ordering
  | [], [] => .eq
  | [], _ :: _ => .lt
  | _ :: _, [] => .gt
  | a :: as, b :: bs => (cmp a b).then (compareLists cmp as bs)

/-- A path in the spelling it was given. -/
structure Path where
  text : String
  deriving DecidableEq, Repr

namespace Path

/-- The steps of a path. -/
def components (p : Path) : List Component :=
  match splitOn '/' p.text.toList with
  | [] => []
  | [only] => if only = ['.'] then [.here] else (Component.ofSegment? only).toList
  | first :: rest =>
    (if first = [] then [.root]
      else if first = ['.'] then [.here]
      else (Component.ofSegment? first).toList) ++ rest.filterMap Component.ofSegment?

/-- The two spellings stand for the same path. -/
def same (p q : Path) : Bool :=
  p.components = q.components

/-- The order in which paths are listed. -/
def compare (p q : Path) : Ordering :=
  compareLists Component.compare p.components q.components

/-- The path starts at the root of the file system. -/
def isAbsolute (p : Path) : Bool :=
  p.text.toList.head? = some '/'

/-- The path `p` as seen from the directory `dir`.  The spelling of `p` is kept. -/
def join (dir p : Path) : Path :=
  if p.isAbsolute then p
  else if dir.text.toList.getLast?.any (· != '/') then ⟨dir.text ++ "/" ++ p.text⟩
  else ⟨dir.text ++ p.text⟩

end Path

end OverlayIndex
