/-
Sources of texts.

A workspace does not know where its texts come from.  It asks a source for the paths that
match a pattern and for the text of a path.  Searching and reading may change the source, and the
source may announce changes that happened while it was read; the workspace hears of these before
it has done anything with the text.
-/
import OverlayIndex.Glob.FilePattern

namespace OverlayIndex

/-- What a source announces. -/
inductive Notice where
  /-- Any file may have changed. -/
  | everything
  /-- This file may have changed. -/
  | changed (path : Path)
  deriving DecidableEq, Repr

/-- What reading a path comes to. -/
structure ReadResult (σ : Type) where
  text : Except SourceError String
  source : σ
  notices : List Notice

/-- Where texts come from. -/
class Source (σ : Type) where
  /-- The paths that match the pattern, in a fixed order. -/
  find : σ → FilePattern → Except SourceError (List Path)
  /-- The source once it was searched for the pattern. -/
  searched : σ → FilePattern → σ := fun s _ => s
  /-- The text of a path. -/
  read : σ → Path → ReadResult σ
  /-- The spelling of the path that `find` would report. -/
  normalize : σ → Path → Path

end OverlayIndex
