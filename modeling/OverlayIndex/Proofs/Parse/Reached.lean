/-
The states a reader goes through.

While a text is read, the reader stands at a cursor on some line, with the draft of what it has
read so far, and looks for the next event.  `Reached` says which of these states come up.  What
holds at the start, is kept by every event and is kept by going on to the next line holds in all
of them.  The forest of a text is what remains when all frames of the last state are closed at
the end of the text.
-/
import OverlayIndex.Proofs.Parse.Grammatical
import OverlayIndex.Proofs.Parse.Laminar

namespace OverlayIndex

/-- Where the line before this one ends.  Nothing comes before the first line. -/
def edgeBefore (lines : List (List Char)) : Nat → Position
  | 0 => ⟨0, 0⟩
  | n + 1 => ⟨n, byteLength (lines[n]?.getD [])⟩

/-- The context of a line of the text. -/
def contextOf (lines : List (List Char)) (n : Nat) : LineContext :=
  ⟨n, edgeBefore lines n⟩

theorem edgeBefore_succ {lines : List (List Char)} {n : Nat} {line : List Char}
    (h : lines[n]? = some line) : edgeBefore lines (n + 1) = ⟨n, byteLength line⟩ := by
  rw [edgeBefore, h]
  rfl

/-- The position stands on a line of the text, at most at its end. -/
def OnLines (lines : List (List Char)) (p : Position) : Prop :=
  ∃ line, lines[p.line]? = some line ∧ p.col ≤ byteLength line

theorem onLines_edgeBefore {lines : List (List Char)} {n : Nat} {line : List Char}
    (h : lines[n]? = some line) : OnLines lines (edgeBefore lines (n + 1)) := by
  rw [edgeBefore_succ h]
  exact ⟨line, h, Nat.le_refl _⟩

/-- What is over before a line ends on a line before it. -/
theorem line_lt_of_lt_base {lines : List (List Char)} {n : Nat} {p : Position}
    (h : p < (contextOf lines n).base) : p.line < n := by
  cases n with
  | zero => exact absurd h (Position.not_lt_origin p)
  | succ n => exact Nat.lt_succ_of_le (Position.line_le (Position.lt_next_iff.1 h))

/-- The reader comes to stand at the cursor on line `n`, with this draft. -/
inductive Reached (lines : List (List Char)) : Nat → Draft → Cursor → Prop
  | first {line : List Char} (hline : lines[0]? = some line) :
      Reached lines 0 .empty (.ofLine (visible line))
  | event {n : Nat} {d : Draft} {c : Cursor} {x : Draft × Cursor} (h : Reached lines n d c)
      (hx : (contextOf lines n).step? d c = some x) : Reached lines n x.1 x.2
  | line {n : Nat} {d : Draft} {c : Cursor} {line : List Char} (h : Reached lines n d c)
      (hend : (contextOf lines n).step? d c = none) (hline : lines[n + 1]? = some line) :
      Reached lines (n + 1) (d.breakLine (edgeBefore lines (n + 1))) (.ofLine (visible line))

namespace LineContext

/-- An event leaves the cursor on its line. -/
theorem line_step {ctx : LineContext} {d : Draft} {c : Cursor} {x : Draft × Cursor}
    (hx : ctx.step? d c = some x) : x.2.line = c.line := by
  rcases step?_cases hx with ⟨k, hk, rfl⟩ | ⟨r, m, he, rfl⟩
  · obtain ⟨t, hfind, -, -⟩ := Draft.closing?_terminator hk
    by_cases hboundary : k.boundary = true
    · simp only [if_pos hboundary]
    · simp only [if_neg hboundary]
      exact (Terminator.ahead_find hfind).line_after
  · exact (Opening.ahead_find (Draft.opening?_spec (Draft.next?_add he)).2).line_after

end LineContext

namespace Reached

variable {lines : List (List Char)} {n : Nat} {d : Draft} {c : Cursor}

/-- The cursor stands on what is looked at of its line. -/
theorem exists_line (h : Reached lines n d c) :
    ∃ line, lines[n]? = some line ∧ c.line = visible line := by
  induction h with
  | @first line hline => exact ⟨line, hline, rfl⟩
  | event _ hx ih =>
      obtain ⟨line, hline, hc⟩ := ih
      exact ⟨line, hline, (LineContext.line_step hx).trans hc⟩
  | @line n d c line _ _ hline _ => exact ⟨line, hline, rfl⟩

theorem placed {line : List Char} (hline : lines[n]? = some line) :
    (contextOf lines n).Placed (OnLines lines) (byteLength line) := by
  refine ⟨fun col hcol => ⟨line, hline, hcol⟩, ?_, ?_⟩
  · intro hpos
    obtain ⟨k, rfl⟩ := Nat.exists_eq_succ_of_ne_zero (Nat.pos_iff_ne_zero.1 hpos)
    have hlt : k < lines.length := by
      have := (List.getElem?_eq_some_iff.1 hline).1
      omega
    exact onLines_edgeBefore (List.getElem?_eq_getElem hlt)
  · intro hpos
    obtain ⟨k, rfl⟩ := Nat.exists_eq_succ_of_ne_zero (Nat.pos_iff_ne_zero.1 hpos)
    exact Nat.lt_succ_self k

/-- What is over before the cursor is over before the end of the line. -/
theorem within_edge_of_floor {line : List Char} (hline : lines[n]? = some line)
    (hc : c.line = visible line) (hd : d.Within (OnLines lines) ((contextOf lines n).floor c)) :
    d.Within (OnLines lines) (edgeBefore lines (n + 1)).next := by
  have hlen := byteLength_visible_le line
  rw [← hc, Cursor.line, byteLength_append, byteLength_reverse] at hlen
  have hlt : byteLength c.left < byteLength line + 1 := by omega
  rw [edgeBefore_succ hline]
  exact hd.mono (LineContext.floor_le (placed hline) hlt)

/-- All that the draft holds is over before the cursor, and in good order. -/
theorem within (h : Reached lines n d c) :
    d.Within (OnLines lines) ((contextOf lines n).floor c) := by
  induction h with
  | first => exact Draft.within_empty _
  | event h hx ih =>
      obtain ⟨line, hline, hc⟩ := h.exists_line
      have hlen := byteLength_visible_le line
      rw [← hc] at hlen
      exact (LineContext.step_within (placed hline) hlen ih hx).2
  | @line n d c next h _ hnext ih =>
      obtain ⟨line, hline, hc⟩ := h.exists_line
      have hbase : (contextOf lines (n + 1)).base = (edgeBefore lines (n + 1)).next :=
        if_neg (Nat.succ_ne_zero n)
      exact Draft.breakLine_within_base (placed hnext)
        (hbase ▸ within_edge_of_floor hline hc ih)

theorem within_edge (h : Reached lines n d c) :
    d.Within (OnLines lines) (edgeBefore lines (n + 1)).next ∧
      OnLines lines (edgeBefore lines (n + 1)) := by
  obtain ⟨line, hline, hc⟩ := h.exists_line
  exact ⟨within_edge_of_floor hline hc h.within, onLines_edgeBefore hline⟩

/-- In column zero, all that the draft holds is over before the line. -/
theorem within_base (h : Reached lines n d c) (hleft : c.left = []) :
    d.Within (OnLines lines) (contextOf lines n).base := by
  have hwithin := h.within
  rwa [LineContext.floor, if_pos (by simp [Cursor.atStart, hleft])] at hwithin

/-- Nothing reaches past the place where the reader closes frames. -/
theorem close_within (h : Reached lines n d c) {k : Closing} (hk : d.closing? c = some k) :
    d.Within (OnLines lines) ((contextOf lines n).closePosition k).next ∧
      OnLines lines ((contextOf lines n).closePosition k) := by
  obtain ⟨line, hline, hc⟩ := h.exists_line
  obtain ⟨hwithin, hreal, -⟩ := LineContext.close_within (placed hline)
    (hc ▸ byteLength_visible_le line) h.within hk
  exact ⟨hwithin, hreal⟩

/-- What opens starts behind all that the draft holds. -/
theorem mark_placed (h : Reached lines n d c) {r : Rule} {m : Mark}
    (hfind : r.opening.find c = some m) :
    ((contextOf lines n).symbol r m).WellPlaced (OnLines lines) ∧
      (contextOf lines n).floor c ≤ ((contextOf lines n).symbol r m).extent.start := by
  obtain ⟨line, hline, hc⟩ := h.exists_line
  exact LineContext.mark_placed (placed hline) (hc ▸ byteLength_visible_le line) hfind

theorem grammatical (h : Reached lines n d c) : d.Grammatical := by
  induction h with
  | first => exact trivial
  | event _ hx ih => exact LineContext.step_grammatical ih hx
  | line _ _ _ ih => exact (Draft.breakLine_closesTo _ _).grammatical ih

/-! ### The way through a text -/

/-- Reading a line to its end stays among the states that come up. -/
theorem scan (h : Reached lines n d c) :
    ∃ c', Reached lines n ((contextOf lines n).scan d c) c' ∧
      (contextOf lines n).step? ((contextOf lines n).scan d c) c' = none :=
  (contextOf lines n).scan_preserves (Q := Reached lines n) (fun _ _ _ h hx => h.event hx) d c h

/-- Reading further lines stays among the states that come up, and ends on the last line. -/
theorem readLines :
    ∀ (rest : List (List Char)) {n : Nat} {d : Draft} {c : Cursor}, Reached lines n d c →
      (contextOf lines n).step? d c = none → lines.drop (n + 1) = rest →
      ∃ m d' c', Reached lines m d' c' ∧ (contextOf lines m).step? d' c' = none ∧
        m + 1 = n + 1 + rest.length ∧
        d.readLines (n + 1) (edgeBefore lines (n + 1)) rest = (d', edgeBefore lines (m + 1)) := by
  intro rest
  induction rest with
  | nil =>
      intro n d c h hend _
      exact ⟨n, d, c, h, hend, rfl, rfl⟩
  | cons line rest ih =>
      intro n d c h hend hdrop
      have hline : lines[n + 1]? = some line := by
        rw [← List.head?_drop, hdrop]
        rfl
      have hrest : lines.drop (n + 1 + 1) = rest := by
        rw [← List.drop_drop, hdrop]
        rfl
      obtain ⟨c', hscan, hnone⟩ := (h.line hend hline).scan
      obtain ⟨m, d', c'', hm, hmend, hlen, hread⟩ := ih hscan hnone hrest
      refine ⟨m, d', c'', hm, hmend, by rw [hlen, List.length_cons]; omega, ?_⟩
      rw [← hread, Draft.readLines, edgeBefore_succ hline]
      rfl

end Reached

/-- **The forest of a text is that of the last state, all frames closed at the end of the text.** -/
theorem parseChars_reached (text : List Char) :
    ∃ n d c, Reached (contentLines text) n d c ∧
      (contextOf (contentLines text) n).step? d c = none ∧
      n + 1 = (contentLines text).length ∧
      parseChars text = d.finish (edgeBefore (contentLines text) (n + 1)) := by
  obtain ⟨line, rest, hlines⟩ : ∃ line rest, contentLines text = line :: rest := by
    cases h : contentLines text with
    | nil => exact absurd (List.map_eq_nil_iff.1 h) (splitOn_ne_nil '\n' text)
    | cons line rest => exact ⟨line, rest, rfl⟩
  have hfirst : Reached (line :: rest) 0 .empty (.ofLine (visible line)) := .first rfl
  obtain ⟨c, hscan, hnone⟩ := hfirst.scan
  obtain ⟨n, d, c', hn, hend, hlen, hread⟩ := Reached.readLines rest hscan hnone rfl
  refine ⟨n, d, c', hlines ▸ hn, hlines ▸ hend, ?_, ?_⟩
  · rw [hlines, hlen, List.length_cons]
    omega
  · have hall : Draft.empty.readLines 0 ⟨0, 0⟩ (line :: rest)
        = (d, edgeBefore (line :: rest) (n + 1)) := by
      rw [← hread]
      rfl
    rw [parseChars, hlines, hall]

end OverlayIndex
