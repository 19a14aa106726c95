/-
Texts held in memory whose failures and changes are staged.

The source can be told to fail, and a change can be set up that happens while a given path is
read: after the old text was taken, and before it is handed over.  Such a change happens once.
Paths may carry a scheme in front, which does not count.
-/
import OverlayIndex.Source.Memory

namespace OverlayIndex

/-- A change that happens while `path` is read. -/
structure StagedChange where
  path : Path
  /-- The new text of the path, if it gets one. -/
  text : Option String
  /-- What is announced, if anything is. -/
  notice : Option Notice
  deriving DecidableEq, Repr

/-- Texts held in memory, with failures and a change set up. -/
structure StagedSource where
  memory : MemorySource
  failFind : Bool
  failRead : Bool
  change : Option StagedChange
  deriving DecidableEq, Repr

namespace StagedSource

/-- These texts, with nothing set up. -/
def ofMemory (memory : MemorySource) : StagedSource :=
  ⟨memory, false, false, none⟩

/-- The path without the scheme in front. -/
def normalize (path : Path) : Path :=
  let cs := path.text.toList
  let scheme := "ws:".toList
  if scheme.isPrefixOf cs then ⟨String.ofList (cs.drop scheme.length)⟩ else path

/-- The paths that match a pattern. -/
def find (s : StagedSource) (pattern : FilePattern) : Except SourceError (List Path) :=
  if s.failFind then .error (.notFound ⟨"find"⟩) else s.memory.find pattern

/-- The text of a path as it stands. -/
def current (s : StagedSource) (path : Path) : Except SourceError String :=
  if s.failRead then .error (.unreadable path .injected) else s.memory.read path

/-- The change has happened. -/
def happen (s : StagedSource) (c : StagedChange) : StagedSource :=
  { s with
    change := none
    memory := match c.text with
      | some text => s.memory.insert c.path text
      | none => s.memory }

/-- The text of a path, and the change that happened meanwhile. -/
def read (s : StagedSource) (path : Path) : ReadResult StagedSource :=
  match s.change with
  | some c =>
    if c.path.same path then ⟨s.current path, s.happen c, c.notice.toList⟩
    else ⟨s.current path, s, []⟩
  | none => ⟨s.current path, s, []⟩

instance : Source StagedSource where
  find := find
  read := read
  normalize _ := normalize

end StagedSource

end OverlayIndex
