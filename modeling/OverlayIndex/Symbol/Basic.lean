/-
A symbol: one construct of a source file, as it was found there.
-/
import OverlayIndex.Symbol.Kind
import OverlayIndex.Text.Position

namespace OverlayIndex

/-- The number of a file in its workspace. -/
structure FileId where
  slot : Nat
  deriving DecidableEq, Repr, Hashable

/-- The text that stands for a file in messages. -/
def FileId.render (f : FileId) : String :=
  s!"file#{f.slot}"

/-- One construct of a source file. -/
structure Symbol where
  kind : Kind
  /-- The word that names it. -/
  name : String
  /-- The text that opens it. -/
  detail : String
  /-- All it occupies, the constructs inside it included. -/
  extent : Extent
  /-- Where its name stands. -/
  selection : Extent
  deriving DecidableEq, Repr

/-- The symbol, made to reach at least to `p`. -/
def Symbol.extendTo (s : Symbol) (p : Position) : Symbol :=
  { s with extent := s.extent.extendTo p }

end OverlayIndex
