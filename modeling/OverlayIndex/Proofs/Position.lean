/-
Positions as a linear order.

Reading order is the lexicographic order on line and column.  What the proofs about
extents need beyond that is `next`: the column after a position on the same line.  It turns
a strict bound into a weak one, so that "ends before the next one starts" and "starts no
earlier than" are the same kind of statement.
-/
import OverlayIndex.Text.Position
import Mathlib.Order.Defs.LinearOrder

namespace OverlayIndex

namespace Position

instance : LinearOrder Position where
  le_refl p := Or.inr ⟨rfl, Nat.le_refl _⟩
  le_trans a b c hab hbc := by
    rw [le_def] at *
    omega
  lt_iff_le_not_ge a b := by
    simp only [le_def, lt_def]
    omega
  le_antisymm a b hab hba := by
    obtain ⟨al, ac⟩ := a
    obtain ⟨bl, bc⟩ := b
    simp only [le_def, mk.injEq] at *
    omega
  le_total a b := by
    simp only [le_def]
    omega
  toDecidableLE := inferInstance
  max_def := max_def

/-- The first position of a text. -/
def origin : Position := ⟨0, 0⟩

theorem origin_le (p : Position) : origin ≤ p := by
  simp only [le_def, origin]
  omega

theorem not_lt_origin (p : Position) : ¬ p < origin :=
  not_lt_of_ge (origin_le p)

/-- The column after a position. -/
def next (p : Position) : Position := ⟨p.line, p.col + 1⟩

theorem next_le_iff {p q : Position} : p.next ≤ q ↔ p < q := by
  simp only [le_def, lt_def, next]
  omega

theorem lt_next_iff {p q : Position} : p < q.next ↔ p ≤ q := by
  simp only [le_def, lt_def, next]
  omega

theorem lt_next (p : Position) : p < p.next :=
  lt_next_iff.2 (le_refl p)

/-- A position on an earlier line comes before every column of a later one. -/
theorem next_le_of_line_lt {p q : Position} (h : p.line < q.line) : p.next ≤ q :=
  next_le_iff.2 (Or.inl h)

theorem line_le {p q : Position} (h : p ≤ q) : p.line ≤ q.line := by
  rw [le_def] at h
  omega

theorem mk_le_mk {line a b : Nat} : (⟨line, a⟩ : Position) ≤ ⟨line, b⟩ ↔ a ≤ b := by
  simp [le_def]

theorem mk_lt_mk {line a b : Nat} : (⟨line, a⟩ : Position) < ⟨line, b⟩ ↔ a < b := by
  simp [lt_def]

end Position

namespace Extent

theorem contains_iff {e : Extent} {p : Position} :
    e.contains p = true ↔ e.start ≤ p ∧ p ≤ e.stop := by
  simp [contains]

theorem encloses_iff {e inner : Extent} :
    e.encloses inner = true ↔ e.start ≤ inner.start ∧ inner.stop ≤ e.stop := by
  simp [encloses]

end Extent

end OverlayIndex
