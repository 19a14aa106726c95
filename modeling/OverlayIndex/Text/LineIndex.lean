/-
From byte offsets to positions and back.

A line index knows, for each line of a text, the offset at which the line starts and the
offset at which its content stops.  Content stops before the line ending; a carriage
return at the very end of the text ends no line and is content.
-/
import OverlayIndex.Text.Lines

namespace OverlayIndex

/-- The byte offsets between which a line's content lies. -/
structure LineSpan where
  start : Nat
  stop : Nat
  deriving DecidableEq, Repr

/-- Offsets and columns are below this number, and their sums wrap around at it. -/
def sizeLimit : Nat := 4294967296

/-- The offset of a column of the line.  A sum past the content stands for the end of the content,
but it is compared with it only after it has wrapped around. -/
def LineSpan.offsetAt (s : LineSpan) (col : Nat) : Nat :=
  let sum := s.start + col
  if sum ≤ s.stop then sum else min (sum % sizeLimit) s.stop

/-- Where each line of a text lies. -/
structure LineIndex where
  spans : List LineSpan
  deriving DecidableEq, Repr

namespace LineIndex

/-- The spans of successive lines, the first of which starts at `start`.  Only a line that a
line feed ends loses its carriage return. -/
def spansFrom (start : Nat) : List (List Char) → List LineSpan
  | [] => []
  | [last] => [⟨start, start + byteLength last⟩]
  | line :: rest =>
    ⟨start, start + byteLength (dropReturn line)⟩ :: spansFrom (start + byteLength line + 1) rest

/-- The index of a text. -/
def ofChars (cs : List Char) : LineIndex :=
  ⟨spansFrom 0 (splitLines cs)⟩

/-- The number of lines, which is never zero. -/
def size (idx : LineIndex) : Nat :=
  idx.spans.length

/-- The position of a byte offset: the last line that starts at or before it, and the distance
from that start.  An offset past the text counts on from the last line. -/
def position (idx : LineIndex) (offset : Nat) : Position :=
  let reached := idx.spans.takeWhile (·.start ≤ offset)
  ⟨reached.length - 1, offset - (reached.getLast?.map (·.start)).getD 0⟩

/-- The byte offset of a position, none past the last line. -/
def offset? (idx : LineIndex) (p : Position) : Option Nat :=
  idx.spans[p.line]?.map (·.offsetAt p.col)

/-- The offsets of a line's content. -/
def lineRange? (idx : LineIndex) (line : Nat) : Option LineSpan :=
  idx.spans[line]?

/-- The position after the last character. -/
def endPosition (idx : LineIndex) : Position :=
  match idx.spans.getLast? with
  | none => ⟨0, 0⟩
  | some s => ⟨idx.spans.length - 1, s.stop - s.start⟩

end LineIndex

end OverlayIndex
