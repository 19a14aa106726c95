/-
How a construct ends.

There are two sorts of terminators.  A boundary stands in column zero and belongs to the
construct that starts there; it ends every construct around the open one too.  The others
belong to the construct they end and may stand anywhere on a line.
-/
import OverlayIndex.Grammar.Words
import OverlayIndex.Text.Cursor

namespace OverlayIndex

/-- What ends a construct. -/
inductive Terminator where
  /-- The next overlay or block: `$ENTRY` or `$NAME`. -/
  | nextUnit
  /-- The next directive of any sort. -/
  | nextDirective
  /-- The next procedure. -/
  | nextProc
  /-- The next inclusion. -/
  | nextInclusion
  /-- The double caret that closes a list of values. -/
  | doubleCaret
  /-- The word `RETURN` or `QUITZUG`. -/
  | leave
  /-- The word `ENDPROC`. -/
  | endProc
  deriving DecidableEq, Repr

namespace Terminator

/-- The terminator belongs to the construct that comes next. -/
def isBoundary : Terminator → Bool
  | nextUnit | nextDirective | nextProc | nextInclusion => true
  | doubleCaret | leave | endProc => false

/-- What the terminator looks like. -/
def shape : Terminator → Shape
  | nextUnit => (Shape.keyword "$ENTRY").orElse (Shape.keyword "$NAME")
  | nextDirective => Shape.literal ['$']
  | nextProc => Shape.ident.andThen Shape.procKeyword
  | nextInclusion => Shape.keyword "$INCLUDE"
  | doubleCaret => Shape.literal ['^', '^']
  | leave => (Shape.keyword "RETURN").orElse (Shape.keyword "QUITZUG")
  | endProc => Shape.keyword "ENDPROC"

/-- The terminator may begin where the text to the left, nearest first, is `left`. -/
def mayBegin : Terminator → List Char → Bool
  | nextUnit, left | nextDirective, left | nextProc, left | nextInclusion, left => left.isEmpty
  | doubleCaret, _ => true
  | leave, left | endProc, left => endsWord left

/-- The terminator that begins right at the cursor. -/
def tryAt (t : Terminator) (c : Cursor) : Option Span :=
  if t.mayBegin c.left then (t.shape.read c.right).map fun x => ⟨c.left, x.1, x.2⟩ else none

/-- The first such terminator from the cursor on.  A boundary is not looked for further on, since
it stands in column zero. -/
def find (t : Terminator) (c : Cursor) : Option Span :=
  if t.isBoundary then t.tryAt c else c.search t.tryAt

theorem consumes_shape (t : Terminator) : t.shape.Consumes := by
  cases t with
  | nextUnit =>
    exact (Shape.consumes_keyword (by simp)).orElse (Shape.consumes_keyword (by simp))
  | nextDirective => exact Shape.consumes_literal (by simp)
  | nextProc => exact Shape.consumes_ident.andThen _
  | nextInclusion => exact Shape.consumes_keyword (by simp)
  | doubleCaret => exact Shape.consumes_literal (by simp)
  | leave => exact (Shape.consumes_keyword (by simp)).orElse (Shape.consumes_keyword (by simp))
  | endProc => exact Shape.consumes_keyword (by simp)

theorem length_tryAt {t : Terminator} {c : Cursor} {s : Span} (h : t.tryAt c = some s) :
    s.right.length < c.right.length := by
  simp only [tryAt, Option.ite_none_right_eq_some, Option.map_eq_some_iff] at h
  obtain ⟨-, x, hx, rfl⟩ := h
  have hl := congrArg List.length (t.shape.split hx)
  have hne := List.length_pos_iff.2 (t.consumes_shape hx)
  rw [List.length_append] at hl
  simp only
  omega

/-- A terminator takes something off the line. -/
theorem length_find {t : Terminator} {c : Cursor} {s : Span} (h : t.find c = some s) :
    s.right.length < c.right.length := by
  rw [find] at h
  split at h
  · exact length_tryAt h
  · obtain ⟨skipped, rest, hr, hf⟩ := Cursor.search_spec h
    have := length_tryAt hf
    rw [← hr, List.length_append]
    simp only at this
    omega

end Terminator

end OverlayIndex
