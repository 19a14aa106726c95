/-
From a token to its declaration.

The token is looked for in a fixed order, and the first place that has it decides:

1. the variables in the data areas of the overlay around the position;
2. the procedures of that overlay;
3. the procedures and variables of the blocks that the overlay includes;
4. the block itself, where the position is on the block's name in an inclusion;
5. the overlays named in the overlay's lists of other overlays, anywhere in the workspace.

Names must match exactly.  If several inclusions declare the token, it is ambiguous, and
the later places are not asked.
-/
import OverlayIndex.Resolve.Declaration
import OverlayIndex.Resolve.InclusionTarget
import OverlayIndex.Resolve.Token
import OverlayIndex.Workspace.Basic

namespace OverlayIndex

namespace SymbolTree

/-- The variable of this name in the data areas of an overlay. -/
def findVariable? (t : SymbolTree) (entry : SymbolId) (name : String) : Option SymbolId :=
  (t.childrenOfKind entry .dataArea).findSome? fun area => t.findChild? area [.var] name

/-- The procedure of this name in an overlay. -/
def findProc? (t : SymbolTree) (entry : SymbolId) (name : String) : Option SymbolId :=
  t.findChild? entry [.proc] name

/-- The other overlay of this name that an overlay lists. -/
def findOverlayRef? (t : SymbolTree) (entry : SymbolId) (name : String) : Option SymbolId :=
  (t.childrenOfKind entry .ext).findSome? fun list => t.findChild? list [.overlayRef] name

/-- The blocks that an overlay includes. -/
def inclusions (t : SymbolTree) (entry : SymbolId) : List InclusionTarget :=
  (t.childrenOfKind entry .inclusion).filterMap fun id =>
    (t.get? id).bind fun s => InclusionTarget.parse? s.name

/-- The position is on the name of the block that the symbol includes. -/
def blockUnder? (p : Position) (s : Symbol) : Option InclusionTarget :=
  if s.kind = .inclusion ∧ s.selection.start.line = p.line then
    (InclusionTarget.parse? s.name).filter fun target =>
      let start := s.selection.start.col + target.blockOffset
      start ≤ p.col && p.col ≤ start + byteLength target.block.toList
  else none

/-- The first inclusion on whose block's name the position is. -/
def inclusionAt? (t : SymbolTree) (p : Position) : Option InclusionTarget :=
  t.symbols.findSome? (blockUnder? p)

end SymbolTree

namespace Workspace

variable {σ : Type} [Source σ]

/-- The block that an inclusion in `origin` names. -/
def nameBlock (target : InclusionTarget) (origin : FileId) : WorkspaceM σ (Option Declaration) := do
  let trees ← treesOfLogicalName target.file origin
  return trees.findSome? fun t => (t.findRoot? .name target.block).bind (Declaration.of? t)

/-- What an included block declares under this name. -/
def exposed (target : InclusionTarget) (origin : FileId) (name : String) :
    WorkspaceM σ (Option Declaration) := do
  let block ← nameBlock target origin
  return block.bind fun b =>
    (b.tree.findChild? b.id [.proc, .var] name).bind (Declaration.of? b.tree)

/-- What the blocks that an overlay includes declare under this name. -/
def findIncluded (t : SymbolTree) (entry : SymbolId) (name : String) : WorkspaceM σ Resolution := do
  let hits ← (t.inclusions entry).mapM fun target => exposed target t.file name
  return .ofList (hits.filterMap id)

/-- What an overlay declares under this name, by itself or by inclusion. -/
def findInEntry (t : SymbolTree) (entry : SymbolId) (name : String) : WorkspaceM σ Resolution :=
  match (t.findVariable? entry name).or (t.findProc? entry name) with
  | some id => return .ofOption (Declaration.of? t id)
  | none => findIncluded t entry name

/-- The block on whose name in an inclusion the position is. -/
def findBlockAt (t : SymbolTree) (p : Position) : WorkspaceM σ Resolution :=
  match t.inclusionAt? p with
  | some target => return .ofOption (← nameBlock target t.file)
  | none => return .notFound

/-- The overlay of this name, if the overlay at hand lists it. -/
def findOverlay (t : SymbolTree) (entry : SymbolId) (name : String) : WorkspaceM σ Resolution :=
  match t.findOverlayRef? entry name with
  | none => return .notFound
  | some _ => do
    let trees ← allTrees
    return .ofOption <|
      trees.findSome? fun u => (u.findRoot? .entry name).bind (Declaration.of? u)

/-- The token at a position of a file. -/
def tokenAt (f : FileId) (p : Position) : WorkspaceM σ (Option String) := do
  return (← text f).toOption.bind fun s => textTokenAt? s.toList p

/-- What the token at a position comes to. -/
def resolve (f : FileId) (p : Position) : WorkspaceM σ Resolution := do
  match ← tokenAt f p with
  | none => return .notFound
  | some name =>
    let t ← tree f
    let entry := t.entryAt? p
    let inEntry ← match entry with
      | some e => findInEntry t e name
      | none => pure .notFound
    inEntry.orElse do
      (← findBlockAt t p).orElse <| match entry with
        | some e => findOverlay t e name
        | none => pure .notFound

/-- The declaration of the token at a position, if there is exactly one. -/
def definition (f : FileId) (p : Position) : WorkspaceM σ (Option Declaration) := do
  return (← resolve f p).declaration?

end Workspace

end OverlayIndex
