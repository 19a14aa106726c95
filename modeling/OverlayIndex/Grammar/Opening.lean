/-
How a construct opens.

An opening says where on a line a construct may begin and what it looks like there: the text
before its name, the name and the text after it.  The three together are the mark of the
construct.
-/
import OverlayIndex.Grammar.Words
import OverlayIndex.Text.Cursor

namespace OverlayIndex

/-- Where on a line a mark may begin. -/
structure Place where
  /-- It may begin in column zero. -/
  atStart : Bool
  /-- It may begin right after such a character, if there are any. -/
  after : Option (Char → Bool)

namespace Place

/-- Only in column zero. -/
def lineStart : Place :=
  ⟨true, none⟩

/-- In column zero or after white space. -/
def afterBlank : Place :=
  ⟨true, some isBlank⟩

/-- In column zero, after white space or after a comma. -/
def inList : Place :=
  ⟨true, some fun c => isBlank c || c = ','⟩

/-- After a caret. -/
def afterCaret : Place :=
  ⟨false, some (· = '^')⟩

end Place

/-- What the beginning of a construct looks like. -/
structure Opening where
  place : Place
  /-- What stands before the name. -/
  head : Shape
  name : Shape
  /-- What stands after the name and still belongs to the mark. -/
  tail : Shape

/-- The beginning of a construct on a line: all of its mark, and the name in it. -/
structure Mark where
  whole : Span
  name : Span
  deriving DecidableEq, Repr

namespace Opening

/-- The mark that begins right at the cursor. -/
def readAt (o : Opening) (c : Cursor) : Option Mark :=
  (o.head.read c.right).bind fun h =>
  (o.name.read h.2).bind fun n =>
  (o.tail.read n.2).map fun t =>
    ⟨⟨c.left, h.1 ++ n.1 ++ t.1, t.2⟩, ⟨h.1.reverse ++ c.left, n.1, t.1 ++ t.2⟩⟩

/-- The mark that begins at the cursor or right after the character there. -/
def tryAt (o : Opening) (c : Cursor) : Option Mark :=
  (if o.place.atStart && c.atStart then o.readAt c else none).or
    (match o.place.after, c.right with
    | some p, x :: right => if p x then o.readAt ⟨x :: c.left, right⟩ else none
    | _, _ => none)

/-- The first mark from the cursor on.  One that begins in column zero only is not looked for
further on. -/
def find (o : Opening) (c : Cursor) : Option Mark :=
  match o.place.after with
  | none => o.tryAt c
  | some _ => c.search o.tryAt

/-- A mark lies on the line it was read from, and its name in it. -/
theorem readAt_spec {o : Opening} {c : Cursor} {m : Mark} (h : o.readAt c = some m) :
    m.whole.left = c.left ∧ m.whole.text ++ m.whole.right = c.right ∧
      m.name.line = m.whole.line := by
  simp only [readAt, Option.bind_eq_some_iff, Option.map_eq_some_iff] at h
  obtain ⟨x, hx, n, hn, t, ht, rfl⟩ := h
  have hx := o.head.split hx
  have hn := o.name.split hn
  have ht := o.tail.split ht
  refine ⟨rfl, ?_, ?_⟩
  · simp only [List.append_assoc, ht, hn, hx]
  · simp [Span.line]

/-- Where the name cannot be empty, a mark takes something off the line. -/
theorem length_readAt {o : Opening} (ho : o.name.Consumes) {c : Cursor} {m : Mark}
    (h : o.readAt c = some m) : m.whole.right.length < c.right.length := by
  have hs := (readAt_spec h).2.1
  simp only [readAt, Option.bind_eq_some_iff, Option.map_eq_some_iff] at h
  obtain ⟨x, hx, n, hn, t, ht, rfl⟩ := h
  have hne := List.length_pos_iff.2 (ho hn)
  have hl := congrArg List.length hs
  simp only [List.length_append] at hl
  simp only
  omega

theorem length_tryAt {o : Opening} (ho : o.name.Consumes) {c : Cursor} {m : Mark}
    (h : o.tryAt c = some m) : m.whole.right.length < c.right.length := by
  rw [tryAt, Option.or_eq_some_iff] at h
  rcases h with h | ⟨-, h⟩
  · split at h
    · exact length_readAt ho h
    · cases h
  · split at h
    · rename_i p x right hp hc
      split at h
      · have := length_readAt ho h
        simp only at this
        rw [hc, List.length_cons]
        omega
      · cases h
    · cases h

theorem length_find {o : Opening} (ho : o.name.Consumes) {c : Cursor} {m : Mark}
    (h : o.find c = some m) : m.whole.right.length < c.right.length := by
  rw [find] at h
  split at h
  · exact length_tryAt ho h
  · obtain ⟨skipped, rest, hr, hf⟩ := Cursor.search_spec h
    have := length_tryAt ho hf
    rw [← hr, List.length_append]
    simp only at this
    omega

end Opening

end OverlayIndex
