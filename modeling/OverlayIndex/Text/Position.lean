/-
Positions and extents.

A position is a line and a column, both counted from zero, and a column counts the
bytes of the UTF-8 encoding, so that it is the distance an editor's buffer sees.
Positions are ordered as text is read: by line, then by column.  They are shown to
people counted from one.
-/
namespace OverlayIndex

/-- A place in a text: a line and a byte column on it, both counted from zero. -/
structure Position where
  line : Nat
  col : Nat
  deriving DecidableEq, Repr, Inhabited

namespace Position

/-- The position with the line and column that people see, which count from one. -/
def ofOneBased (line col : Nat) : Position :=
  ⟨line - 1, col - 1⟩

instance : LE Position :=
  ⟨fun a b => a.line < b.line ∨ a.line = b.line ∧ a.col ≤ b.col⟩

instance : LT Position :=
  ⟨fun a b => a.line < b.line ∨ a.line = b.line ∧ a.col < b.col⟩

theorem le_def {a b : Position} : a ≤ b ↔ a.line < b.line ∨ a.line = b.line ∧ a.col ≤ b.col :=
  Iff.rfl

theorem lt_def {a b : Position} : a < b ↔ a.line < b.line ∨ a.line = b.line ∧ a.col < b.col :=
  Iff.rfl

instance (a b : Position) : Decidable (a ≤ b) :=
  decidable_of_iff _ le_def.symm

instance (a b : Position) : Decidable (a < b) :=
  decidable_of_iff _ lt_def.symm

/-- The later of two positions. -/
instance : Max Position :=
  ⟨fun a b => if a ≤ b then b else a⟩

theorem max_def (a b : Position) : max a b = if a ≤ b then b else a :=
  rfl

/-- How `a` stands to `b` in reading order. -/
def compare (a b : Position) : Ordering :=
  (Ord.compare a.line b.line).then (Ord.compare a.col b.col)

/-- The text people see: line and column counted from one. -/
def render (p : Position) : String :=
  s!"{p.line + 1}:{p.col + 1}"

end Position

/--
A stretch of text between two positions.

The text covered stops before `stop`, but a cursor standing at `stop` still counts
as inside, so that a cursor right after a token hits the token.
-/
structure Extent where
  start : Position
  stop : Position
  deriving DecidableEq, Repr, Inhabited

namespace Extent

/-- The stretch of one line between two columns. -/
def onLine (line startCol stopCol : Nat) : Extent :=
  ⟨⟨line, startCol⟩, ⟨line, stopCol⟩⟩

/-- A cursor at `p` is inside; both ends count. -/
def contains (e : Extent) (p : Position) : Bool :=
  e.start ≤ p && p ≤ e.stop

/-- Nothing of `inner` sticks out of `e`. -/
def encloses (e inner : Extent) : Bool :=
  e.start ≤ inner.start && inner.stop ≤ e.stop

/-- The extent runs over a line break. -/
def isMultiline (e : Extent) : Bool :=
  e.start.line < e.stop.line

/-- The number of lines the extent touches. -/
def lineCount (e : Extent) : Nat :=
  e.stop.line - e.start.line + 1

/-- The two ends as people see them. -/
def render (e : Extent) : String :=
  s!"{e.start.render}-{e.stop.render}"

/-- The extent, made to reach at least to `p`. -/
def extendTo (e : Extent) (p : Position) : Extent :=
  { e with stop := max e.stop p }

end Extent

end OverlayIndex
