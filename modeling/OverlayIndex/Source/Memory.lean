/-
Texts held in memory.

The buffers are kept in the order of their paths, one for each path.  A buffer that is
replaced keeps the spelling of its path.
-/
import OverlayIndex.Source.Basic

namespace OverlayIndex

/-- A text and its path. -/
structure Buffer where
  path : Path
  text : String
  deriving DecidableEq, Repr

/-- Texts held in memory, in the order of their paths. -/
structure MemorySource where
  buffers : List Buffer
  deriving DecidableEq, Repr

namespace MemorySource

/-- No text yet. -/
def empty : MemorySource :=
  ⟨[]⟩

/-- The number of texts. -/
def size (m : MemorySource) : Nat :=
  m.buffers.length

/-- Puts a buffer in its place. -/
def insertBuffer (path : Path) (text : String) : List Buffer → List Buffer
  | [] => [⟨path, text⟩]
  | b :: rest =>
    match path.compare b.path with
    | .lt => ⟨path, text⟩ :: b :: rest
    | .eq => ⟨b.path, text⟩ :: rest
    | .gt => b :: insertBuffer path text rest

/-- Adds or replaces a text. -/
def insert (m : MemorySource) (path : Path) (text : String) : MemorySource :=
  ⟨insertBuffer path text m.buffers⟩

/-- The text of a path. -/
def get? (m : MemorySource) (path : Path) : Option String :=
  (m.buffers.find? (·.path.same path)).map (·.text)

/-- Takes a text away. -/
def erase (m : MemorySource) (path : Path) : MemorySource :=
  ⟨m.buffers.filter (!·.path.same path)⟩

/-- The text of a path, if it has one, and the texts without it. -/
def remove (m : MemorySource) (path : Path) : Option String × MemorySource :=
  (m.get? path, m.erase path)

/-- The paths that match a pattern. -/
def find (m : MemorySource) (pattern : FilePattern) : Except SourceError (List Path) :=
  pattern.compile.map fun p => (m.buffers.map (·.path)).filter p.acceptsPath

/-- The text of a path, or that there is none. -/
def read (m : MemorySource) (path : Path) : Except SourceError String :=
  match m.get? path with
  | some text => .ok text
  | none => .error (.notFound path)

instance : Source MemorySource where
  find := find
  read m path := ⟨m.read path, m, []⟩
  normalize _ path := path

end MemorySource

end OverlayIndex
