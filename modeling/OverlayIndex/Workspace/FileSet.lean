/-
The files of a workspace.

A path gets its number when it is first seen and keeps it.  Another spelling of the same path
gets the same number, and the first spelling is the one that is kept.
-/
import OverlayIndex.Source.Path
import OverlayIndex.Symbol.Basic

namespace OverlayIndex

/-- The paths seen so far; the place of a path in the list is its number. -/
structure FileSet where
  paths : List Path
  deriving DecidableEq, Repr

namespace FileSet

/-- No path seen yet. -/
def empty : FileSet :=
  ⟨[]⟩

/-- The number of paths. -/
def size (s : FileSet) : Nat :=
  s.paths.length

/-- The number of a path that was seen. -/
def lookup? (s : FileSet) (p : Path) : Option FileId :=
  (s.paths.findIdx? (·.same p)).map FileId.mk

/-- The path with this number. -/
def path? (s : FileSet) (f : FileId) : Option Path :=
  s.paths[f.slot]?

/-- The number of a path, which is the next free one if the path is new. -/
def intern (s : FileSet) (p : Path) : FileId × FileSet :=
  match s.lookup? p with
  | some f => (f, s)
  | none => (⟨s.size⟩, ⟨s.paths ++ [p]⟩)

end FileSet

end OverlayIndex
