/-
What an inclusion names: a file and a block in it, written `FILE(BLOCK)`.
-/
import OverlayIndex.Text.Lines

namespace OverlayIndex

/-- The file and the block that an inclusion names. -/
structure InclusionTarget where
  /-- The logical name of the file. -/
  file : String
  block : String
  /-- The byte at which the block starts in the name of the inclusion. -/
  blockOffset : Nat
  deriving DecidableEq, Repr

namespace InclusionTarget

/-- Reads the name of an inclusion.  The file is what stands before the first parenthesis, and the
block all that follows up to the last character, which must close it. -/
def parse? (name : String) : Option InclusionTarget :=
  let cs := name.toList
  let file := cs.takeWhile (· != '(')
  let inner := (cs.dropWhile (· != '(')).drop 1
  let block := inner.dropLast
  let parenthesis := byteLength file
  if inner.getLast? = some ')' ∧ file ≠ [] ∧ block ≠ [] then
    some ⟨String.ofList file, String.ofList block, parenthesis + 1⟩
  else none

end InclusionTarget

end OverlayIndex
