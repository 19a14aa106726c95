/-
Changing the texts of a workspace.

A text that changes has its tree forgotten, so that the next query parses it again.
-/
import OverlayIndex.Source.Memory
import OverlayIndex.Workspace.Basic

namespace OverlayIndex

namespace Workspace

/-- Changes the source at a path and forgets the tree of the path. -/
def edit {σ : Type} [Source σ] (p : Path) (change : σ → σ) : WorkspaceM σ Unit :=
  modify fun w => invalidatePath { w with source := change w.source } p

/-- Adds or replaces a text in memory.  Gives the number of its file. -/
def setText (p : Path) (text : String) : WorkspaceM MemorySource FileId := do
  edit p (·.insert p text)
  fileId p

/-- Takes a text in memory away. -/
def removeText (p : Path) : WorkspaceM MemorySource Unit :=
  edit p (·.erase p)

end Workspace

end OverlayIndex
