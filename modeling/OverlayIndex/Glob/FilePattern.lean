/-
File patterns: a glob over the text of paths, and whether it ignores case.
-/
import OverlayIndex.Glob.Reading
import OverlayIndex.Source.Error

namespace OverlayIndex

/-- A glob over paths. -/
structure FilePattern where
  glob : String
  ignoreCase : Bool
  deriving DecidableEq, Repr

namespace FilePattern

/-- The pattern over bytes that the glob stands for. -/
def compile (p : FilePattern) : Except SourceError Pattern :=
  match Pattern.ofGlob p.ignoreCase p.glob.toList with
  | .ok pattern => .ok pattern
  | .error cause => .error (.pattern p.glob cause)

end FilePattern

/-- The pattern matches the path as it is spelled. -/
def Pattern.acceptsPath (p : Pattern) (path : Path) : Bool :=
  p.accepts (utf8Bytes path.text.toList)

end OverlayIndex
