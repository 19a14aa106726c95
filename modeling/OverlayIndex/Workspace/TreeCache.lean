/-
Trees kept for later.

A tree is kept until its file is announced to have changed.  Reading and parsing take time,
and a change may be announced meanwhile, so a reader takes a stamp before it starts.  The
stamp counts the announcements that concern the file, and a tree is stored only if the stamp
is still the same.
-/
import OverlayIndex.Symbol.Tree

namespace OverlayIndex

/-- The announcements that concerned a file up to some moment. -/
structure Stamp where
  /-- How often all files were announced to have changed. -/
  epoch : Nat
  /-- How often this file was. -/
  generation : Nat
  deriving DecidableEq, Repr

/-- The trees kept, one for each file at most. -/
structure TreeCache where
  trees : List SymbolTree
  /-- The files announced to have changed, each as often as it was. -/
  announced : List FileId
  /-- How often all files were announced to have changed. -/
  epoch : Nat
  deriving DecidableEq, Repr

namespace TreeCache

/-- No tree kept, and nothing announced. -/
def empty : TreeCache :=
  ⟨[], [], 0⟩

/-- The number of trees kept. -/
def size (c : TreeCache) : Nat :=
  c.trees.length

/-- The tree kept for a file. -/
def get? (c : TreeCache) (f : FileId) : Option SymbolTree :=
  c.trees.find? (·.file = f)

/-- A tree is kept for the file. -/
def contains (c : TreeCache) (f : FileId) : Bool :=
  (c.get? f).isSome

/-- The announcements so far that concern a file. -/
def stamp (c : TreeCache) (f : FileId) : Stamp :=
  ⟨c.epoch, c.announced.count f⟩

/-- Keeps a tree in the place of an older one. -/
def insert (c : TreeCache) (t : SymbolTree) : TreeCache :=
  { c with trees := t :: c.trees.filter (·.file ≠ t.file) }

/-- Keeps a tree unless a change of its file was announced since the stamp was taken. -/
def store (c : TreeCache) (s : Stamp) (t : SymbolTree) : TreeCache :=
  if c.stamp t.file = s then c.insert t else c

/-- Forgets the tree of a file that is announced to have changed. -/
def invalidate (c : TreeCache) (f : FileId) : TreeCache :=
  { c with trees := c.trees.filter (·.file ≠ f), announced := f :: c.announced }

/-- Forgets all trees. -/
def invalidateAll (c : TreeCache) : TreeCache :=
  { c with trees := [], epoch := c.epoch + 1 }

end TreeCache

end OverlayIndex
