/-
Where on a line marks and terminators lie.

Whatever is found from a cursor on was cut out of the text ahead of the cursor, and it is
never empty.  A mark is further away than that: unless it begins in column zero, at least one
character stands between the cursor and the mark.  A boundary is only ever found in column
zero, with the cursor there too.
-/
import OverlayIndex.Parse.Line

namespace OverlayIndex

theorem byteLength_pos {cs : List Char} (h : cs ≠ []) : 0 < byteLength cs := by
  cases cs with
  | nil => exact absurd rfl h
  | cons c cs =>
      have := Char.utf8Size_pos c
      rw [byteLength_cons]
      omega

theorem eq_nil_of_byteLength {cs : List Char} (h : byteLength cs = 0) : cs = [] :=
  Classical.byContradiction fun hne => Nat.ne_of_gt (byteLength_pos hne) h

/-- In column zero all of the line is to the right. -/
theorem Cursor.eq_ofLine {c : Cursor} (h : c.left = []) : c = .ofLine c.line := by
  obtain ⟨left, right⟩ := c
  cases h
  rfl

/-- The span was cut from what stands to the right of the cursor. -/
def Span.Ahead (s : Span) (c : Cursor) : Prop :=
  ∃ skipped, s.left = skipped.reverse ++ c.left ∧ skipped ++ (s.text ++ s.right) = c.right

namespace Span.Ahead

variable {s : Span} {c : Cursor}

theorem start_ge (h : s.Ahead c) : byteLength c.left ≤ s.start := by
  obtain ⟨skipped, hleft, -⟩ := h
  rw [Span.start, hleft, byteLength_append]
  omega

/-- Moving on behind the span stays on the line. -/
theorem line_after (h : s.Ahead c) : s.after.line = c.line := by
  obtain ⟨skipped, hleft, hright⟩ := h
  simp only [Cursor.line, Span.after, hleft, ← hright]
  simp

theorem stop_le (h : s.Ahead c) : s.stop ≤ byteLength c.line := by
  rw [← h.line_after]
  simp only [Cursor.line, Span.after, Span.stop, byteLength_append, byteLength_reverse]
  omega

/-- What lies ahead of a place further on lies ahead of the cursor. -/
theorem of_skipped {skipped rest : List Char} (hr : skipped ++ rest = c.right)
    (h : s.Ahead ⟨skipped.reverse ++ c.left, rest⟩) : s.Ahead c := by
  obtain ⟨more, hleft, hright⟩ := h
  refine ⟨skipped ++ more, ?_, ?_⟩
  · rw [hleft, List.reverse_append, List.append_assoc]
  · rw [← hr, List.append_assoc]
    exact congrArg (skipped ++ ·) hright

end Span.Ahead

namespace Span

theorem start_lt_stop {s : Span} (h : s.text ≠ []) : s.start < s.stop := by
  have := byteLength_pos h
  rw [start, stop]
  omega

theorem atStart_after {s : Span} (h : s.text ≠ []) : s.after.atStart = false := by
  simp [after, Cursor.atStart, h]

theorem byteLength_after (s : Span) : byteLength s.after.left = s.stop := by
  rw [after, stop, byteLength_append, byteLength_reverse, Nat.add_comm]

end Span

/-! ### Terminators -/

namespace Terminator

theorem tryAt_spec {t : Terminator} {c : Cursor} {s : Span} (h : t.tryAt c = some s) :
    t.mayBegin c.left = true ∧ s.left = c.left ∧ s.text ++ s.right = c.right ∧
      t.shape.read c.right = some (s.text, s.right) := by
  simp only [tryAt, Option.ite_none_right_eq_some, Option.map_eq_some_iff] at h
  obtain ⟨hbegin, x, hx, rfl⟩ := h
  exact ⟨hbegin, rfl, t.shape.split hx, hx⟩

theorem ahead_tryAt {t : Terminator} {c : Cursor} {s : Span} (h : t.tryAt c = some s) :
    s.Ahead c := by
  obtain ⟨-, hleft, hright, -⟩ := tryAt_spec h
  exact ⟨[], hleft, hright⟩

theorem ahead_find {t : Terminator} {c : Cursor} {s : Span} (h : t.find c = some s) :
    s.Ahead c := by
  rw [find] at h
  split at h
  · exact ahead_tryAt h
  · obtain ⟨skipped, rest, hr, hf⟩ := Cursor.search_spec h
    exact (ahead_tryAt hf).of_skipped hr

theorem text_ne_nil_find {t : Terminator} {c : Cursor} {s : Span} (h : t.find c = some s) :
    s.text ≠ [] := by
  rw [find] at h
  split at h
  · exact t.consumes_shape (tryAt_spec h).2.2.2
  · obtain ⟨skipped, rest, -, hf⟩ := Cursor.search_spec h
    exact t.consumes_shape (tryAt_spec hf).2.2.2

theorem isEmpty_of_mayBegin {t : Terminator} (ht : t.isBoundary = true) {left : List Char}
    (h : t.mayBegin left = true) : left = [] := by
  cases t <;> simp_all [isBoundary, mayBegin]

/-- A boundary is found in column zero only. -/
theorem left_find_boundary {t : Terminator} (ht : t.isBoundary = true) {c : Cursor} {s : Span}
    (h : t.find c = some s) : c.left = [] ∧ s.left = [] := by
  rw [find, if_pos ht] at h
  obtain ⟨hbegin, hleft, -, -⟩ := tryAt_spec h
  have hnil := isEmpty_of_mayBegin ht hbegin
  exact ⟨hnil, hleft.trans hnil⟩

end Terminator

/-! ### Marks -/

/-- The name of a mark is not empty and lies inside the mark. -/
structure Mark.Framed (m : Mark) : Prop where
  name_nonempty : m.name.text ≠ []
  whole_nonempty : m.whole.text ≠ []
  start_le : m.whole.start ≤ m.name.start
  stop_le : m.name.stop ≤ m.whole.stop

/-- A mark that is found from a cursor on begins in column zero, with the cursor there too, or
leaves at least one byte between the cursor and itself. -/
def Mark.Clear (m : Mark) (c : Cursor) : Prop :=
  c.left = [] ∧ m.whole.left = [] ∨ byteLength c.left < m.whole.start

namespace Opening

variable {o : Opening} {c : Cursor} {m : Mark}

theorem framed_readAt (ho : o.name.Consumes) (h : o.readAt c = some m) : m.Framed := by
  simp only [readAt, Option.bind_eq_some_iff, Option.map_eq_some_iff] at h
  obtain ⟨x, -, n, hn, t, -, rfl⟩ := h
  have hne := ho hn
  refine ⟨hne, by simp [hne], ?_, ?_⟩
  · simp only [Span.start, byteLength_append, byteLength_reverse]
    omega
  · simp only [Span.stop, byteLength_append, byteLength_reverse]
    omega

theorem ahead_readAt (h : o.readAt c = some m) : m.whole.Ahead c := by
  obtain ⟨hleft, hright, -⟩ := readAt_spec h
  exact ⟨[], hleft, hright⟩

/-- A mark at the cursor is read right there or after one character. -/
theorem readAt_of_tryAt (h : o.tryAt c = some m) :
    (o.readAt c = some m ∧ o.place.atStart = true ∧ c.left = []) ∨
      ∃ p x right, o.place.after = some p ∧ c.right = x :: right ∧ p x = true ∧
        o.readAt ⟨x :: c.left, right⟩ = some m := by
  rw [tryAt, Option.or_eq_some_iff] at h
  rcases h with h | ⟨-, h⟩
  · split at h
    · rename_i hstart
      simp only [Cursor.atStart, Bool.and_eq_true, List.isEmpty_iff] at hstart
      exact Or.inl ⟨h, hstart.1, hstart.2⟩
    · cases h
  · split at h
    · rename_i p x right hp hc
      split at h
      · rename_i hx
        exact Or.inr ⟨p, x, right, hp, hc, hx, h⟩
      · cases h
    · cases h

/-- A mark that is found is read at some place ahead, right there or after one character. -/
theorem tryAt_of_find (h : o.find c = some m) :
    ∃ skipped rest, skipped ++ rest = c.right ∧
      o.tryAt ⟨skipped.reverse ++ c.left, rest⟩ = some m := by
  rw [find] at h
  split at h
  · exact ⟨[], c.right, rfl, h⟩
  · exact Cursor.search_spec h

theorem framed_find (ho : o.name.Consumes) (h : o.find c = some m) : m.Framed := by
  obtain ⟨skipped, rest, -, hf⟩ := tryAt_of_find h
  rcases readAt_of_tryAt hf with ⟨hr, -, -⟩ | ⟨p, x, right, -, -, -, hr⟩
  · exact framed_readAt ho hr
  · exact framed_readAt ho hr

theorem ahead_find (h : o.find c = some m) : m.whole.Ahead c := by
  obtain ⟨skipped, rest, hs, hf⟩ := tryAt_of_find h
  refine Span.Ahead.of_skipped hs ?_
  rcases readAt_of_tryAt hf with ⟨hr, -, -⟩ | ⟨p, x, right, -, hc, -, hr⟩
  · exact ahead_readAt hr
  · exact Span.Ahead.of_skipped (show [x] ++ right = _ from hc.symm) (ahead_readAt hr)

theorem clear_find (h : o.find c = some m) : m.Clear c := by
  obtain ⟨skipped, rest, hs, hf⟩ := tryAt_of_find h
  rcases readAt_of_tryAt hf with ⟨hr, -, hnil⟩ | ⟨p, x, right, -, hc, -, hr⟩
  · have hleft := (readAt_spec hr).1
    simp only [List.append_eq_nil_iff] at hnil
    exact Or.inl ⟨hnil.2, by rw [hleft]; simp [hnil]⟩
  · have hleft := (readAt_spec hr).1
    have hx := Char.utf8Size_pos x
    refine Or.inr ?_
    rw [Span.start, hleft]
    simp only [byteLength_cons, byteLength_append]
    omega

end Opening

end OverlayIndex
