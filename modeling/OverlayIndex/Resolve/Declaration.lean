/-
Declarations, and what a token may come to.
-/
import OverlayIndex.Symbol.Tree

namespace OverlayIndex

/-- A symbol in its tree. -/
structure Declaration where
  tree : SymbolTree
  id : SymbolId
  symbol : Symbol
  /-- The symbol is the one with this number. -/
  isAt : tree.get? id = some symbol

namespace Declaration

/-- The declaration with this number. -/
def of? (tree : SymbolTree) (id : SymbolId) : Option Declaration :=
  match h : tree.get? id with
  | none => none
  | some s => some ⟨tree, id, s, h⟩

/-- The file that holds the declaration. -/
def file (d : Declaration) : FileId :=
  d.tree.file

/-- The symbol that directly holds the declared one. -/
def parent? (d : Declaration) : Option Symbol :=
  (d.tree.parent? d.id).bind d.tree.get?

/-- Two declarations stand for the same: they have the same number in the same file. -/
def same (d e : Declaration) : Bool :=
  d.file = e.file && d.id = e.id

end Declaration

/-- What a token comes to. -/
inductive Resolution where
  | found (d : Declaration)
  /-- Several inclusions declare it. -/
  | ambiguous (ds : List Declaration)
  | notFound

namespace Resolution

/-- The one declaration, if there is one. -/
def declaration? : Resolution → Option Declaration
  | found d => some d
  | _ => none

/-- Found, if there is something. -/
def ofOption : Option Declaration → Resolution
  | some d => found d
  | none => notFound

/-- Found if there is one, and ambiguous if there are more. -/
def ofList : List Declaration → Resolution
  | [] => notFound
  | [d] => found d
  | ds => ambiguous ds

/-- This answer, or the next one if nothing was found. -/
def orElse {m : Type → Type} [Monad m] (r : Resolution) (next : m Resolution) : m Resolution :=
  match r with
  | notFound => next
  | _ => pure r

end Resolution

end OverlayIndex
