/-
Carriage returns before line feeds.

In a text that has none, a carriage return is put before every line feed.  That moves the bytes of
the text and nothing else: the lines have the same contents, since the reader drops the carriage
return that closes a line, and what stands before a place gives the place the same position.
-/
import OverlayIndex.Proofs.Text.Places

namespace OverlayIndex

variable {text before : List Char} {above : List (List Char)}

/-- The text with a carriage return before every line feed. -/
def withReturns (text : List Char) : List Char :=
  text.flatMap fun c => if c = '\n' then ['\r', '\n'] else [c]

@[simp] theorem withReturns_nil : withReturns [] = [] := rfl

@[simp] theorem withReturns_newline (cs : List Char) :
    withReturns ('\n' :: cs) = '\r' :: '\n' :: withReturns cs := rfl

theorem withReturns_cons {c : Char} (hc : c ≠ '\n') (cs : List Char) :
    withReturns (c :: cs) = c :: withReturns cs := by
  simp [withReturns, hc]

@[simp] theorem withReturns_append (as bs : List Char) :
    withReturns (as ++ bs) = withReturns as ++ withReturns bs :=
  List.flatMap_append

theorem withReturns_of_not_mem {cs : List Char} (h : '\n' ∉ cs) : withReturns cs = cs := by
  induction cs with
  | nil => rfl
  | cons c cs ih =>
      have hc : c ≠ '\n' := fun hc => h (by simp [hc])
      rw [withReturns_cons hc, ih fun hcs => h (by simp [hcs])]

/-! ### Lines -/

theorem splitLines_closedLines {last : List Char} (hlast : '\n' ∉ last) :
    ∀ lines : List (List Char), (∀ line ∈ lines, '\n' ∉ line) →
      splitLines (closedLines lines ++ last) = lines ++ [last] := by
  intro lines
  induction lines with
  | nil =>
      intro _
      exact splitLines_of_not_mem hlast
  | cons line lines ih =>
      intro h
      have hline := splitLines_of_not_mem (h line (by simp))
      have hrest := ih fun l hl => h l (by simp [hl])
      have hnewline := splitLines_newline (closedLines lines ++ last)
      rw [closedLines_cons, List.append_assoc, List.cons_append,
        splitLines_append (show splitLines line = [] ++ [line] from hline) hnewline, hrest]
      simp

theorem withReturns_closedLines :
    ∀ lines : List (List Char), (∀ line ∈ lines, '\n' ∉ line) →
      withReturns (closedLines lines) = closedLines (lines.map (· ++ ['\r'])) := by
  intro lines
  induction lines with
  | nil => intro _; rfl
  | cons line lines ih =>
      intro h
      rw [List.map_cons, closedLines_cons, closedLines_cons, withReturns_append, withReturns_newline,
        withReturns_of_not_mem (h line (by simp)), ih fun l hl => h l (by simp [hl])]
      simp

/-- Every line but the last gets a carriage return. -/
theorem splitLines_withReturns {last : List Char} (h : splitLines text = above ++ [last]) :
    splitLines (withReturns text) = above.map (· ++ ['\r']) ++ [last] := by
  have hlines : ∀ line ∈ above ++ [last], '\n' ∉ line := h ▸ newline_not_mem_splitLines
  have habove : ∀ line ∈ above, '\n' ∉ line := fun line hline => hlines line (by simp [hline])
  have hlast : '\n' ∉ last := hlines last (by simp)
  rw [before_eq h, withReturns_append, withReturns_closedLines above habove,
    withReturns_of_not_mem hlast]
  refine splitLines_closedLines hlast _ fun line hline => ?_
  obtain ⟨l, hl, rfl⟩ := List.mem_map.1 hline
  simp [habove l hl]

theorem placeAfter_withReturns (before : List Char) :
    placeAfter (withReturns before) = placeAfter before := by
  obtain ⟨above, left, h⟩ := exists_splitLines_concat before
  rw [placeAfter_eq h, placeAfter_eq (splitLines_withReturns h), List.length_map]

/-- No line feed has a carriage return before it. -/
def Returnless (text : List Char) : Prop :=
  ¬['\r', '\n'] <:+: text

/-- In such a text no line that a line feed ends has a carriage return at its end. -/
theorem Returnless.dropReturn_eq {last line : List Char} (h : Returnless text)
    (hlines : splitLines text = above ++ [last]) (hline : line ∈ above) : dropReturn line = line := by
  unfold dropReturn
  refine if_neg fun hend => h ?_
  obtain ⟨init, rfl⟩ := List.getLast?_eq_some_iff.1 hend
  obtain ⟨front, rest, rfl⟩ := List.append_of_mem hline
  refine ⟨closedLines front ++ init, closedLines rest ++ last, ?_⟩
  rw [before_eq hlines]
  simp [closedLines]

/-- **The contents of lines do not depend on line endings.** -/
theorem contentLines_withReturns (h : Returnless text) :
    contentLines (withReturns text) = contentLines text := by
  obtain ⟨above, last, hlines⟩ := exists_splitLines_concat text
  rw [contentLines, contentLines, splitLines_withReturns hlines, hlines, List.map_append,
    List.map_append, List.map_map]
  refine congrArg (· ++ [last].map dropReturn) (List.map_congr_left fun line hline => ?_)
  rw [h.dropReturn_eq hlines hline, Function.comp_apply, dropReturn_append_right line (by simp)]
  simp [dropReturn]

end OverlayIndex
