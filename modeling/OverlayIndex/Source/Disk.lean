/-
Texts below a directory of a file system.

A relative path is taken from that directory, and its spelling is kept.  Patterns look at the
part of a path below the directory.
-/
import OverlayIndex.Source.Basic
import OverlayIndex.Source.FileSystem

namespace OverlayIndex

/-- A directory of a file system. -/
structure DiskSource where
  fs : FileSystem
  root : Path

namespace DiskSource

/-- The source below a directory, which must be there. -/
def ofDirectory (fs : FileSystem) (root : Path) : Except SourceError DiskSource :=
  if fs.isDirectory root then .ok ⟨fs, root⟩ else .error (.notFound root)

/-- The path as seen from the directory. -/
def normalize (d : DiskSource) (path : Path) : Path :=
  d.root.join path

/-- The files below the directory. -/
def files (d : DiskSource) : List FileSystem.Listed :=
  match d.fs.locate d.root with
  | .error _ => []
  | .ok r => d.fs.files d.root r

/-- The paths below the directory that match the pattern. -/
def find (d : DiskSource) (pattern : FilePattern) : Except SourceError (List Path) :=
  pattern.compile.map fun p =>
    let relative := d.files.map fun file => FileSystem.pathOf file.names
    ((relative.filter p.acceptsPath).map d.root.join).mergeSort fun a b => a.compare b != .gt

/-- The text of a file at a path. -/
def decode (path : Path) (bytes : ByteArray) : Except SourceError String :=
  match String.fromUTF8? bytes with
  | some text => .ok text
  | none => .error (.unreadable path .notText)

/-- The text of a path. -/
def read (d : DiskSource) (path : Path) : Except SourceError String :=
  let path := d.normalize path
  match d.fs.readBytes path with
  | .error .missing => .error (.notFound path)
  | .error (.fault f) => .error (.unreadable path f)
  | .ok bytes => decode path bytes

instance : Source DiskSource where
  find := find
  read d path := ⟨d.read path, d, []⟩
  normalize := normalize

end DiskSource

end OverlayIndex
