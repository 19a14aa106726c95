/-
Going to a definition, to its uses and to the blocks a file includes.
-/
import OverlayIndex.Resolve.References

namespace OverlayIndex

/-- Where going to a definition leads. -/
structure Target where
  file : FileId
  id : SymbolId
  kind : Kind
  name : String
  /-- All of the declaration. -/
  fullRange : Extent
  /-- The declared name in it. -/
  focusRange : Extent
  deriving DecidableEq, Repr

/-- Where the declaration stands. -/
def Declaration.target (d : Declaration) : Target where
  file := d.file
  id := d.id
  kind := d.symbol.kind
  name := d.symbol.name
  fullRange := d.symbol.extent
  focusRange := d.symbol.selection

/-- A link from an inclusion to the block it names. -/
structure Link where
  /-- Where the link stands. -/
  range : Extent
  targetFile : FileId
  /-- Where the block's name stands. -/
  targetRange : Extent
  tooltip : String
  deriving DecidableEq, Repr

namespace Workspace

variable {σ : Type} [Source σ]

/-- Where the token at a position is declared. -/
def goto (f : FileId) (p : Position) : WorkspaceM σ (Option Target) := do
  return (← definition f p).map Declaration.target

/-- The uses of the variable at a position. -/
def references (f : FileId) (p : Position) : WorkspaceM σ (List Location) := do
  match ← definition f p with
  | some d => referencesTo d
  | none => return []

/-- The link of a symbol, if it is an inclusion whose block can be found. -/
def link (f : FileId) (s : Symbol) : WorkspaceM σ (Option Link) :=
  if s.kind = .inclusion then
    match InclusionTarget.parse? s.name with
    | none => return none
    | some target => do
      return (← nameBlock target f).map fun block =>
        { range := s.selection
          targetFile := block.file
          targetRange := block.symbol.selection
          tooltip := "Go to " ++ Kind.name.label ++ " " ++ target.block }
  else return none

/-- The links from the inclusions of a file. -/
def links (f : FileId) : WorkspaceM σ (List Link) := do
  let t ← tree f
  let found ← t.symbols.mapM (link f)
  return found.filterMap id

end Workspace

end OverlayIndex
