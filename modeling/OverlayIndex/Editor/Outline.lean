/-
The outline of a file and the search for symbols.
-/
import OverlayIndex.Text.LowerCase
import OverlayIndex.Workspace.Basic

namespace OverlayIndex

/-- A symbol found in the workspace. -/
structure FoundSymbol where
  file : FileId
  symbol : Symbol
  /-- The name of the symbol that directly holds it. -/
  container : Option String
  deriving DecidableEq, Repr

/-- `part` stands somewhere in `text`. -/
def hasInfix (part : List Char) : List Char → Bool
  | [] => part.isEmpty
  | c :: cs => part.isPrefixOf (c :: cs) || hasInfix part cs

/-- The name matches the query: it holds the query, whatever the case.  Both are in lower case
already. -/
def matchesQuery (query name : List Char) : Bool :=
  query.isEmpty || hasInfix query name

namespace SymbolTree

/-- The symbols whose names hold the query, which is in lower case. -/
def search (t : SymbolTree) (query : List Char) : List FoundSymbol :=
  (t.nodes.filter fun n => matchesQuery query (lowerCase n.value.name.toList)).map fun n =>
    ⟨t.file, n.value, (n.parent.bind t.get?).map (·.name)⟩

end SymbolTree

namespace Workspace

variable {σ : Type} [Source σ]

/-- The symbols of a file, each with those inside it. -/
def outline (f : FileId) : WorkspaceM σ (Forest Symbol) := do
  return (← tree f).outline

/-- The symbols of the workspace whose names hold the query, whatever the case. -/
def searchSymbols (query : String) : WorkspaceM σ (List FoundSymbol) := do
  let query := lowerCase query.toList
  return (← allTrees).flatMap (·.search query)

end Workspace

end OverlayIndex
