/-
Going from positions to offsets and back.

The lines of a text lie one behind the other, and between the content of a line and the start of the
next there is the line ending: a line feed, or a carriage return and a line feed.  An offset is on
the last line that starts at or before it.  If it is inside the content, its position leads back to
it.  Behind the content there is room for one offset only, the line feed of a pair, and its position
leads back to the end of the content, one byte before.  Nothing here asks an offset to be the start
of a character.

A column past the content should stand for the end of the content.  It does so as long as the sum of
the column and the start of its line fits; a sum that does not fit wraps around to a place before
the line.
-/
import OverlayIndex.Proofs.Text.Places
import Mathlib.Data.List.TakeWhile

namespace OverlayIndex

variable {text line : List Char} {above below : List (List Char)} {offset : Nat}

namespace LineSpan

variable {s : LineSpan} {col : Nat}

end LineSpan

namespace LineIndex

/-! ### Spans -/

/-- The sum of the column and the start of the line fits. -/
def Fits (idx : LineIndex) (p : Position) : Prop :=
  ∀ span ∈ idx.lineRange? p.line, span.start + p.col < sizeLimit

instance (idx : LineIndex) (p : Position) : Decidable (idx.Fits p) :=
  inferInstanceAs (Decidable (∀ span ∈ idx.lineRange? p.line, _))

/-- The spans that start at or before an offset. -/
def reached (idx : LineIndex) (offset : Nat) : List LineSpan :=
  idx.spans.takeWhile (·.start ≤ offset)

end LineIndex

/-- The four bytes of two line endings, and the two offsets that are not found again. -/
example : (List.range 9).map (fun o =>
      (LineIndex.ofChars "ab\r\nc\r\nd".toList).offset?
        ((LineIndex.ofChars "ab\r\nc\r\nd".toList).position o)) =
    [0, 1, 2, 2, 4, 5, 5, 7, 8].map some := by
  decide

end OverlayIndex
