/-
Shapes of text.

A shape reads text off the front of a line, or refuses it.  It takes what it reads from the
front and leaves the rest as it was, which is part of the type.  A run is as long as it can
be and is never taken back.  That loses nothing here, since whatever follows a run in a pattern
of this grammar starts with a character outside the run.  Where a longer reading may have to
give way to a shorter one, the two are alternatives, the longer one first.
-/
import OverlayIndex.Text.Class.Word
import OverlayIndex.Text.Class.Blank
import OverlayIndex.Text.Class.Digit

namespace OverlayIndex

/-- A way to read text off the front of a line: what was read and what is left. -/
structure Shape where
  read : List Char → Option (List Char × List Char)
  /-- What was read and what is left make up the text. -/
  split : ∀ {s t r : List Char}, read s = some (t, r) → t ++ r = s

namespace Shape

/-- Reads nothing, and always succeeds. -/
def nothing : Shape where
  read s := some ([], s)
  split h := by simp_all

/-- Reads exactly `w`. -/
def literal (w : List Char) : Shape where
  read s := if w.isPrefixOf s then some (w, s.drop w.length) else none
  split {s t r} h := by
    split at h
    · rename_i hw
      obtain ⟨u, rfl⟩ := List.isPrefixOf_iff_prefix.1 hw
      simp at h
      simp [h.1.symm, h.2.symm]
    · simp at h

/-- Reads one character that satisfies `p`. -/
def one (p : Char → Bool) : Shape where
  read
    | [] => none
    | c :: cs => if p c then some ([c], cs) else none
  split {s t r} h := by
    cases s with
    | nil => simp at h
    | cons c cs =>
      simp only [Option.ite_none_right_eq_some, Option.some.injEq, Prod.mk.injEq] at h
      simp [h.2.1.symm, h.2.2.symm]

/-- Reads as many characters that satisfy `p` as there are, perhaps none. -/
def many (p : Char → Bool) : Shape where
  read s := some (s.takeWhile p, s.dropWhile p)
  split h := by
    simp only [Option.some.injEq, Prod.mk.injEq] at h
    simp [h.1.symm, h.2.symm]

/-- Reads `a`, then `b`. -/
def andThen (a b : Shape) : Shape where
  read s := (a.read s).bind fun x => (b.read x.2).map fun y => (x.1 ++ y.1, y.2)
  split {s t r} h := by
    simp only [Option.bind_eq_some_iff, Option.map_eq_some_iff, Prod.mk.injEq] at h
    obtain ⟨x, hx, y, hy, rfl, rfl⟩ := h
    rw [List.append_assoc, b.split hy, a.split hx]

/-- Reads `a`, or `b` where `a` refuses. -/
def orElse (a b : Shape) : Shape where
  read s := (a.read s).or (b.read s)
  split h := by
    rw [Option.or_eq_some_iff] at h
    rcases h with h | ⟨-, h⟩
    · exact a.split h
    · exact b.split h

/-- Reads `a` if it is there. -/
def optional (a : Shape) : Shape :=
  a.orElse nothing

/-- Reads `a` where the text after it satisfies `p`. -/
def followedBy (a : Shape) (p : List Char → Bool) : Shape where
  read s := (a.read s).filter fun x => p x.2
  split h := a.split (Option.filter_eq_some_iff.1 h).1

/-- Reads at least one character that satisfies `p`, and as many as there are. -/
def many1 (p : Char → Bool) : Shape :=
  (one p).andThen (many p)

/-- The text cut after its last character that satisfies `p`. -/
def cutLast (p : Char → Bool) : List Char → Option (List Char × List Char)
  | [] => none
  | c :: cs =>
    match cutLast p cs with
    | some (t, r) => some (c :: t, r)
    | none => if p c then some ([c], cs) else none

/-- Reads up to the last character that satisfies `p`. -/
def throughLast (p : Char → Bool) : Shape where
  read := cutLast p
  split {s t r} h := by
    induction s generalizing t with
    | nil => simp [cutLast] at h
    | cons c cs ih =>
      simp only [cutLast] at h
      split at h
      · rename_i u v hu
        simp only [Option.some.injEq, Prod.mk.injEq] at h
        obtain ⟨rfl, rfl⟩ := h
        simp [ih hu]
      · simp only [Option.ite_none_right_eq_some, Option.some.injEq, Prod.mk.injEq] at h
        simp [h.2.1.symm, h.2.2.symm]

/-- The shape never succeeds without reading something. -/
def Consumes (a : Shape) : Prop :=
  ∀ ⦃s t r : List Char⦄, a.read s = some (t, r) → t ≠ []

theorem consumes_literal {w : List Char} (hw : w ≠ []) : (literal w).Consumes := by
  intro s t r h
  simp only [literal, Option.ite_none_right_eq_some, Option.some.injEq, Prod.mk.injEq] at h
  exact h.2.1 ▸ hw

theorem consumes_one (p : Char → Bool) : (one p).Consumes := by
  intro s t r h
  cases s with
  | nil => simp [one] at h
  | cons c cs =>
    simp only [one, Option.ite_none_right_eq_some, Option.some.injEq, Prod.mk.injEq] at h
    simp [h.2.1.symm]

theorem Consumes.andThen {a : Shape} (ha : a.Consumes) (b : Shape) : (a.andThen b).Consumes := by
  intro s t r h
  simp only [Shape.andThen, Option.bind_eq_some_iff, Option.map_eq_some_iff, Prod.mk.injEq] at h
  obtain ⟨x, hx, y, hy, rfl, rfl⟩ := h
  simp [ha hx]

theorem Consumes.orElse {a b : Shape} (ha : a.Consumes) (hb : b.Consumes) :
    (a.orElse b).Consumes := by
  intro s t r h
  simp only [Shape.orElse, Option.or_eq_some_iff] at h
  rcases h with h | ⟨-, h⟩
  · exact ha h
  · exact hb h

theorem Consumes.followedBy {a : Shape} (ha : a.Consumes) (p : List Char → Bool) :
    (a.followedBy p).Consumes := by
  intro s t r h
  exact ha (Option.filter_eq_some_iff.1 h).1

theorem consumes_many1 (p : Char → Bool) : (many1 p).Consumes :=
  Consumes.andThen (consumes_one p) _

end Shape

end OverlayIndex
