/-
The workspace: a source, the numbers of its files and the trees kept of them.

A tree is parsed when it is first asked for.  A file that is unknown or cannot be read has
the empty tree, which is not kept, so that a file that appears later is seen.
-/
import OverlayIndex.Parse.Document
import OverlayIndex.Source.Basic
import OverlayIndex.Workspace.Config
import OverlayIndex.Workspace.FileSet
import OverlayIndex.Workspace.TreeCache

namespace OverlayIndex

/-- A source, the files seen in it and the trees kept of them. -/
structure Workspace (σ : Type) where
  source : σ
  config : Config
  files : FileSet
  cache : TreeCache

/-- Work on a workspace. -/
abbrev WorkspaceM (σ : Type) := StateM (Workspace σ)

namespace Workspace

variable {σ : Type}

/-- A workspace over a source of which nothing was seen yet. -/
def ofSource (source : σ) (config : Config) : Workspace σ :=
  ⟨source, config, .empty, .empty⟩

/-- The path of a file. -/
def path? (w : Workspace σ) (f : FileId) : Option Path :=
  w.files.path? f

/-- The number of trees kept. -/
def cachedCount (w : Workspace σ) : Nat :=
  w.cache.size

/-- The tree of the file is kept. -/
def isCached (w : Workspace σ) (f : FileId) : Bool :=
  w.cache.contains f

/-- Forgets the tree of a file. -/
def invalidate (w : Workspace σ) (f : FileId) : Workspace σ :=
  { w with cache := w.cache.invalidate f }

/-- Forgets all trees. -/
def invalidateAll (w : Workspace σ) : Workspace σ :=
  { w with cache := w.cache.invalidateAll }

variable [Source σ]

/-- Forgets the tree of a path, if the path was ever seen. -/
def invalidatePath (w : Workspace σ) (p : Path) : Workspace σ :=
  match w.files.lookup? (Source.normalize w.source p) with
  | some f => w.invalidate f
  | none => w

/-- Hears an announcement. -/
def hear (w : Workspace σ) : Notice → Workspace σ
  | .everything => w.invalidateAll
  | .changed p => w.invalidatePath p

/-- The number of a path, which it gets now if it is new. -/
def fileId (p : Path) : WorkspaceM σ FileId :=
  modifyGet fun w =>
    let (f, files) := w.files.intern (Source.normalize w.source p)
    (f, { w with files := files })

/-- The paths that match a pattern, by the source as it stands. -/
def find (pattern : FilePattern) : WorkspaceM σ (Except SourceError (List Path)) :=
  modifyGet fun w =>
    (Source.find w.source pattern, { w with source := Source.searched w.source pattern })

/-- Reads a path and hears what is announced meanwhile. -/
def readPath (p : Path) : WorkspaceM σ (Except SourceError String) :=
  modifyGet fun w =>
    let r := Source.read w.source p
    (r.text, r.notices.foldl hear { w with source := r.source })

/-- The text of a file as it stands. -/
def text (f : FileId) : WorkspaceM σ (Except SourceError String) := do
  match (← get).path? f with
  | some p => readPath p
  | none => return .error (.unknownFile f)

/-- The tree of a file. -/
def tree (f : FileId) : WorkspaceM σ SymbolTree := do
  let cache := (← get).cache
  match cache.get? f with
  | some t => return t
  | none =>
    match ← text f with
    | .error _ => return .empty f
    | .ok s =>
      let t := parse f s
      modify fun w => { w with cache := w.cache.store (cache.stamp f) t }
      return t

/-- The tree of a path. -/
def treeOfPath (p : Path) : WorkspaceM σ SymbolTree := do
  tree (← fileId p)

/-- The logical name of the file at hand. -/
def thisFile : String := "*"

/-- The trees that a logical name stands for when it is used in `origin`.  A name that no file or
several files have stands for none. -/
def treesOfLogicalName (name : String) (origin : FileId) : WorkspaceM σ (List SymbolTree) := do
  if name = thisFile then
    return [← tree origin]
  else
    match (← get).config.logicalNamePattern? name with
    | none => return []
    | some pattern =>
      match ← find pattern with
      | .ok [p] => return [← treeOfPath p]
      | _ => return []

/-- The trees of all source files, in the order in which the source lists them.  All files have
their numbers before the first one is parsed. -/
def allTrees : WorkspaceM σ (List SymbolTree) := do
  match ← find (← get).config.sourcePattern with
  | .error _ => return []
  | .ok paths =>
    let files ← paths.mapM fileId
    files.mapM tree

end Workspace

end OverlayIndex
