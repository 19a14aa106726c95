/-
Places and stretches on a line.

A cursor splits a line in two, and a span cuts a stretch out of it.  What stands to the
left is kept nearest first, so that looking back and moving on both cost one step.
-/
import OverlayIndex.Text.Lines

namespace OverlayIndex

/-- A stretch of a line, with what stands to its left (nearest first) and to its right. -/
structure Span where
  left : List Char
  text : List Char
  right : List Char
  deriving DecidableEq, Repr

namespace Span

/-- The line the span was cut from. -/
def line (s : Span) : List Char :=
  s.left.reverse ++ s.text ++ s.right

/-- The byte column at which the span starts. -/
def start (s : Span) : Nat :=
  byteLength s.left

/-- The byte column at which the span stops. -/
def stop (s : Span) : Nat :=
  byteLength s.left + byteLength s.text

/-- The extent of the span on the line of this number. -/
def extent (s : Span) (number : Nat) : Extent :=
  .onLine number s.start s.stop

end Span

/-- A place on a line: what stands to its left (nearest first) and to its right. -/
structure Cursor where
  left : List Char
  right : List Char
  deriving DecidableEq, Repr

/-- The place right after the span. -/
def Span.after (s : Span) : Cursor :=
  ⟨s.text.reverse ++ s.left, s.right⟩

namespace Cursor

/-- The line the cursor stands on. -/
def line (c : Cursor) : List Char :=
  c.left.reverse ++ c.right

/-- The place before the first character. -/
def ofLine (line : List Char) : Cursor :=
  ⟨[], line⟩

/-- The cursor stands in column zero. -/
def atStart (c : Cursor) : Bool :=
  c.left.isEmpty

/-- The answer of `f` at the first place, from the cursor on, at which it has one. -/
def search {α : Type} (f : Cursor → Option α) (c : Cursor) : Option α :=
  go c.left c.right
where
  go (left : List Char) : List Char → Option α
    | [] => f ⟨left, []⟩
    | x :: right =>
      match f ⟨left, x :: right⟩ with
      | some a => some a
      | none => go (x :: left) right

theorem search_go_spec {α : Type} {f : Cursor → Option α} {left right : List Char} {a : α}
    (h : search.go f left right = some a) :
    ∃ skipped rest, skipped ++ rest = right ∧ f ⟨skipped.reverse ++ left, rest⟩ = some a := by
  induction right generalizing left with
  | nil => exact ⟨[], [], rfl, h⟩
  | cons x right ih =>
    rw [search.go] at h
    split at h
    · rename_i b hb
      exact ⟨[], x :: right, rfl, hb.trans h⟩
    · obtain ⟨skipped, rest, hr, hf⟩ := ih h
      exact ⟨x :: skipped, rest, by simp [hr], by simpa using hf⟩

/-- A search answers at some place to the right of the cursor. -/
theorem search_spec {α : Type} {f : Cursor → Option α} {c : Cursor} {a : α}
    (h : c.search f = some a) :
    ∃ skipped rest, skipped ++ rest = c.right ∧ f ⟨skipped.reverse ++ c.left, rest⟩ = some a :=
  search_go_spec h

end Cursor

end OverlayIndex
