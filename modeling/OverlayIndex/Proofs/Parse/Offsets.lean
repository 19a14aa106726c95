/-
Positions of symbols and bytes of the text.

Symbols have their positions from lines that were split and stripped one by one, and the line index
has its offsets from the text as a whole.  Both count the same bytes.  A mark is cut out of the part
of a line that is looked at, so the text is cut there too, and the offset of each end of the cut is
the number of bytes before it.  The lines themselves are the same but for a carriage return at the
very end of the text, which the line index counts to the last line and the reader drops.
-/
import OverlayIndex.Proofs.Parse.Lawful
import OverlayIndex.Proofs.Text.Places

namespace OverlayIndex

/-! ### Bytes -/

theorem size_utf8Encode (cs : List Char) : cs.utf8Encode.size = byteLength cs := by
  induction cs with
  | nil => rfl
  | cons c cs ih =>
      rw [← List.singleton_append, List.utf8Encode_append, ByteArray.size_append, ih,
        byteLength_append, List.utf8Encode_singleton]
      simp

theorem toUTF8_eq (s : String) : s.toUTF8 = s.toList.utf8Encode := by
  simp [String.toUTF8]

/-- The bytes of a word that is cut out of a text. -/
theorem extract_utf8Encode (before word after : List Char) :
    (before ++ (word ++ after)).utf8Encode.extract (byteLength before)
      (byteLength before + byteLength word) = word.utf8Encode := by
  have hbefore := size_utf8Encode before
  have hword := size_utf8Encode word
  have hnone : after.utf8Encode.extract (byteLength before - (byteLength before + byteLength word))
      (byteLength before + byteLength word - (byteLength before + byteLength word)) = .empty := by
    simp
  rw [← List.append_assoc, List.utf8Encode_append, List.utf8Encode_append, ByteArray.extract_append,
    ByteArray.extract_append_eq_right hbefore.symm (by rw [hbefore, hword]), ByteArray.size_append,
    hbefore, hword, hnone, ByteArray.append_empty]

/-! ### Lines -/

/-- What the line index takes for the content of a line. -/
def indexedLine (line : List Char) (below : List (List Char)) : List Char :=
  if below = [] then line else dropReturn line

theorem indexedLine_prefix (line : List Char) (below : List (List Char)) :
    indexedLine line below <+: line := by
  unfold indexedLine
  by_cases hbelow : below = []
  · exact ⟨[], by rw [if_pos hbelow, List.append_nil]⟩
  · rcases dropReturn_cases line with h | h
    · exact ⟨[], by rw [if_neg hbelow, ← h, List.append_nil]⟩
    · exact ⟨['\r'], by rw [if_neg hbelow, ← h]⟩

/-- A text ends with a carriage return if its last line does. -/
theorem getLast?_of_lastLine {text line : List Char} {above : List (List Char)}
    (h : splitLines text = above ++ [line]) :
    text.getLast? = some '\r' ↔ line.getLast? = some '\r' := by
  rw [before_eq h, List.getLast?_append]
  cases hline : line.getLast? with
  | some c => simp
  | none =>
      have hnot : (closedLines above).getLast? ≠ some '\r' := fun hlast => by
        have := eq_newline_of_getLast? hlast
        revert this
        decide
      simpa using hnot

/-- A line as the line index has it is the line as it is read, and at the end of a text that ends
with a carriage return also that. -/
theorem indexedLine_eq {text line : List Char} {above below : List (List Char)}
    (h : splitLines text = above ++ line :: below) :
    indexedLine line below =
      if above.length + 1 = (contentLines text).length ∧ text.getLast? = some '\r'
      then dropReturn line ++ ['\r'] else dropReturn line := by
  have hlength : (contentLines text).length = above.length + (below.length + 1) := by
    rw [contentLines, h]
    simp
  unfold indexedLine
  by_cases hbelow : below = []
  · subst hbelow
    have hend := getLast?_of_lastLine h
    rw [if_pos rfl, hlength]
    unfold dropReturn
    by_cases hlast : line.getLast? = some '\r'
    · rw [if_pos ⟨rfl, hend.2 hlast⟩]
      obtain ⟨init, rfl⟩ := List.getLast?_eq_some_iff.1 hlast
      simp
    · rw [if_neg fun hboth => hlast (hend.1 hboth.2), if_neg hlast]
  · have hpos := List.length_pos_iff.2 hbelow
    rw [if_neg hbelow, if_neg (by omega)]

/-- The range of a line begins where the line does and holds the bytes of its content. -/
theorem LineIndex.extract_lineRange? {text line : List Char} {above below : List (List Char)}
    (h : splitLines text = above ++ line :: below) :
    ∃ before span, before <+: text ∧ placeAfter before = ⟨above.length, 0⟩ ∧
      (ofChars text).lineRange? above.length = some span ∧ span.start = byteLength before ∧
      text.utf8Encode.extract span.start span.stop = (indexedLine line below).utf8Encode := by
  obtain ⟨before, after, rfl, hbefore, hafter⟩ :=
    exists_cut (show splitLines text = above ++ ([] ++ line) :: below from h)
  obtain ⟨later, rfl, -⟩ := after_eq hafter
  obtain ⟨rest, hrest⟩ := indexedLine_prefix line below
  have hclosed : before = closedLines above := by
    rw [before_eq hbefore, List.append_nil]
  have hspan : (ofChars (before ++ (line ++ later))).lineRange? above.length =
      some ⟨byteLength before, byteLength before + byteLength (indexedLine line below)⟩ := by
    rw [lineRange?, ofChars, h, getElem?_spansFrom line below above 0, Nat.zero_add, ← hclosed]
    rfl
  have hbytes := extract_utf8Encode before (indexedLine line below) (rest ++ later)
  rw [← List.append_assoc _ rest, hrest] at hbytes
  exact ⟨before, _, List.prefix_append .., placeAfter_eq hbefore, hspan, rfl, hbytes⟩

/-! ### Symbols -/

/-- A stretch of what is looked at of a line is a stretch of the text, and its ends have the
offsets of the bytes before them. -/
theorem Span.exists_exact {text line : List Char} {n : Nat} {s : Span}
    (hline : (contentLines text)[n]? = some line) (hs : s.line = visible line) :
    ∃ before after, before ++ (s.text ++ after) = text ∧
      (LineIndex.ofChars text).Exact ⟨n, s.start⟩ (byteLength before) ∧
      (LineIndex.ofChars text).Exact ⟨n, s.stop⟩ (byteLength before + byteLength s.text) := by
  obtain ⟨more, hmore⟩ := visible_prefix line
  have hwhole : line = s.left.reverse ++ (s.text ++ (s.right ++ more)) := by
    rw [← hmore, ← hs, Span.line]
    simp
  obtain ⟨before, after, hcut⟩ := CutAt.exists_of_line (p := ⟨n, s.start⟩) s.left.reverse
    (s.text ++ (s.right ++ more)) (hwhole ▸ hline) (byteLength_reverse s.left).symm
  obtain ⟨after, rfl, hmoved⟩ := hcut.move
  have hstart := LineIndex.exact_placeAfter hcut.join (hcut.place ▸ hcut.isPlace)
  have hstop := LineIndex.exact_placeAfter hmoved.join (hmoved.place ▸ hmoved.isPlace)
  rw [hcut.place] at hstart
  rw [hmoved.place, byteLength_append] at hstop
  exact ⟨before, after, hcut.join, hstart, hstop⟩

/-- The offsets of a stretch of a line are those of its bytes in the text. -/
theorem Span.exists_bytes {text line : List Char} {n : Nat} {s : Span}
    (hline : (contentLines text)[n]? = some line) (hs : s.line = visible line) :
    ∃ start, (LineIndex.ofChars text).Exact ⟨n, s.start⟩ start ∧
      (LineIndex.ofChars text).Exact ⟨n, s.stop⟩ (start + byteLength s.text) ∧
      text.utf8Encode.extract start (start + byteLength s.text) = s.text.utf8Encode := by
  obtain ⟨before, after, rfl, hstart, hstop⟩ := s.exists_exact hline hs
  exact ⟨byteLength before, hstart, hstop, extract_utf8Encode before s.text after⟩

/-- **The positions of symbols are those of their bytes.**  By the line index of the text, the bytes
of a symbol's selection are its name, and its extent starts with the bytes of its detail; no position
is beyond the end of its line.  The line index has the lines that are read, and the range of each
begins where the line does and holds its bytes, with a carriage return at the end of the last one if
the text ends with it. -/
theorem parse_positions_exact (file : FileId) (text : String) :
    (∀ s ∈ (parse file text).symbols,
      (∃ start stop, (LineIndex.ofChars text.toList).Exact s.selection.start start ∧
        (LineIndex.ofChars text.toList).Exact s.selection.stop stop ∧
        text.toUTF8.extract start stop = s.name.toUTF8) ∧
      ∃ start, (LineIndex.ofChars text.toList).Exact s.extent.start start ∧
        text.toUTF8.extract start (start + s.detail.toUTF8.size) = s.detail.toUTF8) ∧
    (LineIndex.ofChars text.toList).size = (contentLines text.toList).length ∧
    ∀ i line, (contentLines text.toList)[i]? = some line →
      ∃ before span, before <+: text.toList ∧ placeAfter before = ⟨i, 0⟩ ∧
        (LineIndex.ofChars text.toList).lineRange? i = some span ∧ span.start = byteLength before ∧
        text.toUTF8.extract span.start span.stop =
          (if i + 1 = (contentLines text.toList).length ∧ text.toList.getLast? = some '\r'
            then line ++ ['\r'] else line).utf8Encode := by
  refine ⟨fun s hs => ?_, ?_, fun i line hline => ?_⟩
  · rw [SymbolTree.symbols_eq] at hs
    obtain ⟨line, c, m, hline, hc, hread, hstart, hname, hdetail, hselection⟩ :=
      parseChars_marked text.toList s hs
    obtain ⟨hleft, hright, hsame⟩ := Opening.readAt_spec hread
    have hwhole : m.whole.line = visible line := by
      rw [← hc, Span.line, Cursor.line, hleft, List.append_assoc, hright]
    obtain ⟨nameStart, hfirst, hlast, hnameBytes⟩ :=
      m.name.exists_bytes hline (hsame.trans hwhole)
    obtain ⟨wholeStart, hexact, -, hwholeBytes⟩ := m.whole.exists_bytes hline hwhole
    simp only [toUTF8_eq, size_utf8Encode, hname, hdetail, hselection, String.toList_ofList]
    refine ⟨⟨_, _, hfirst, hlast, hnameBytes⟩, wholeStart, ?_, hwholeBytes⟩
    rw [← hstart] at hexact
    exact hexact
  · rw [LineIndex.size, LineIndex.ofChars, LineIndex.length_spansFrom, contentLines, List.length_map]
  · rw [contentLines, List.getElem?_map, Option.map_eq_some_iff] at hline
    obtain ⟨raw, hraw, rfl⟩ := hline
    obtain ⟨hlt, rfl⟩ := List.getElem?_eq_some_iff.1 hraw
    have hlines : splitLines text.toList = (splitLines text.toList).take i ++
        (splitLines text.toList)[i] :: (splitLines text.toList).drop (i + 1) := by
      rw [← List.drop_eq_getElem_cons hlt, List.take_append_drop]
    have hlength : ((splitLines text.toList).take i).length = i :=
      List.length_take_of_le (Nat.le_of_lt hlt)
    have hrange := LineIndex.extract_lineRange? hlines
    rw [indexedLine_eq hlines, hlength] at hrange
    rw [toUTF8_eq]
    exact hrange

/-- A name with a letter of two bytes behind one line ending and before a lone carriage return. -/
def wideName : String :=
  "$NAME B\r\nXÄ N5\r"

theorem positions_of_wideName :
    (∃ s ∈ (parse ⟨0⟩ wideName).symbols, s.selection = .onLine 1 0 3 ∧
      ∃ start stop, (LineIndex.ofChars wideName.toList).Exact s.selection.start start ∧
        (LineIndex.ofChars wideName.toList).Exact s.selection.stop stop ∧
        wideName.toUTF8.extract start stop = s.name.toUTF8) ∧
    (contentLines wideName.toList)[1]? = some "XÄ N5".toList ∧
    ∃ span, (LineIndex.ofChars wideName.toList).lineRange? 1 = some span ∧
      wideName.toUTF8.extract span.start span.stop = ("XÄ N5".toList ++ ['\r']).utf8Encode := by
  have hsymbol : ∃ s ∈ (parse ⟨0⟩ wideName).symbols, s.selection = .onLine 1 0 3 := by decide +kernel
  have hline : (contentLines wideName.toList)[1]? = some "XÄ N5".toList := by decide +kernel
  have hlast : 1 + 1 = (contentLines wideName.toList).length ∧
      wideName.toList.getLast? = some '\r' := by decide +kernel
  obtain ⟨hsymbols, -, hlines⟩ := parse_positions_exact ⟨0⟩ wideName
  obtain ⟨s, hs, hselection⟩ := hsymbol
  obtain ⟨before, span, -, -, hspan, -, hbytes⟩ := hlines 1 _ hline
  rw [if_pos hlast] at hbytes
  exact ⟨⟨s, hs, hselection, (hsymbols s hs).1⟩, hline, span, hspan, hbytes⟩

end OverlayIndex
