/-
Folding and selecting.
-/
import OverlayIndex.Workspace.Basic

namespace OverlayIndex

/-- A stretch that can be folded. -/
structure Fold where
  extent : Extent
  kind : Kind
  deriving DecidableEq, Repr

namespace SymbolTree

/-- The symbols of more than one line, by their first lines. -/
def folds (t : SymbolTree) : List Fold :=
  ((t.symbols.filter (·.extent.isMultiline)).map fun s => ⟨s.extent, s.kind⟩).mergeSort
    fun a b => a.extent.start.line ≤ b.extent.start.line

/-- The last symbol whose extent holds the position. -/
def innermost? (t : SymbolTree) (p : Position) : Option SymbolId :=
  (t.symbols.zipIdx.filter fun x => x.1.extent.contains p).getLast?.map (·.2)

/-- The extents around a position, innermost first, each once. -/
def selections (t : SymbolTree) (p : Position) : List Extent :=
  match t.innermost? p with
  | none => []
  | some id => ((id :: t.ancestors id).filterMap fun i => (t.get? i).map (·.extent)).eraseReps

end SymbolTree

namespace Workspace

variable {σ : Type} [Source σ]

/-- The stretches of a file that can be folded. -/
def folds (f : FileId) : WorkspaceM σ (List Fold) := do
  return (← tree f).folds

/-- The extents around a position, innermost first. -/
def selections (f : FileId) (p : Position) : WorkspaceM σ (List Extent) := do
  return (← tree f).selections p

end Workspace

end OverlayIndex
