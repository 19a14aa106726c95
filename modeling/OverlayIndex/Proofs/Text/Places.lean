/-
Places in a text.

A text is cut in two at a place, and so is the line on which the place is: what stands before the
place ends with the left part of the line, and what stands after it begins with the right part.
`placeAfter` is the position of a place by what stands before it.  The line index goes from
positions to byte offsets and back, and both ways it agrees with counting: the offset of a place is
the length of what stands before it.
-/
import OverlayIndex.Proofs.Parse.Laminar
import OverlayIndex.Text.Cut
import OverlayIndex.Text.LineIndex

namespace OverlayIndex

variable {text before after left right : List Char} {above below : List (List Char)}

/-! ### Cutting lines -/

theorem splitLines_newline (cs : List Char) : splitLines ('\n' :: cs) = [] :: splitLines cs := by
  simp [splitLines, splitOn]

theorem splitLines_cons {c : Char} {cs part : List Char} {parts : List (List Char)} (hc : c ≠ '\n')
    (h : splitLines cs = part :: parts) : splitLines (c :: cs) = (c :: part) :: parts := by
  unfold splitLines at h ⊢
  rw [splitOn, if_neg hc, h]

theorem exists_splitLines (cs : List Char) : ∃ part parts, splitLines cs = part :: parts :=
  List.exists_cons_of_ne_nil (splitOn_ne_nil '\n' cs)

/-- A text has a last line. -/
theorem exists_splitLines_concat (cs : List Char) : ∃ above left, splitLines cs = above ++ [left] :=
  ⟨_, _, (List.dropLast_concat_getLast (splitOn_ne_nil '\n' cs)).symm⟩

theorem splitLines_of_not_mem {cs : List Char} (h : '\n' ∉ cs) : splitLines cs = [cs] :=
  splitOn_of_not_mem h

/-- The lines of a text by its first character: a line feed is a line of its own above the others,
and any other character begins the first line. -/
theorem splitLines_cons_cases {c : Char} {cs line : List Char}
    (h : splitLines (c :: cs) = above ++ line :: below) :
    (c = '\n' ∧ above = [] ∧ line = [] ∧ below = splitLines cs) ∨
      (c = '\n' ∧ ∃ above', above = [] :: above' ∧ splitLines cs = above' ++ line :: below) ∨
      (c ≠ '\n' ∧ above = [] ∧ ∃ line', line = c :: line' ∧ splitLines cs = line' :: below) ∨
      (c ≠ '\n' ∧ ∃ part above', above = (c :: part) :: above' ∧
        splitLines cs = (part :: above') ++ line :: below) := by
  by_cases hc : c = '\n'
  · rw [hc, splitLines_newline] at h
    cases above with
    | nil =>
        obtain ⟨rfl, rfl⟩ := List.cons.inj h
        exact Or.inl ⟨hc, rfl, rfl, rfl⟩
    | cons first above =>
        obtain ⟨rfl, hcs⟩ := List.cons.inj h
        exact Or.inr (Or.inl ⟨hc, above, rfl, hcs⟩)
  · obtain ⟨part, parts, hcs⟩ := exists_splitLines cs
    rw [splitLines_cons hc hcs] at h
    cases above with
    | nil =>
        obtain ⟨rfl, rfl⟩ := List.cons.inj h
        exact Or.inr (Or.inr (Or.inl ⟨hc, rfl, part, rfl, hcs⟩))
    | cons first above =>
        obtain ⟨rfl, rfl⟩ := List.cons.inj h
        exact Or.inr (Or.inr (Or.inr ⟨hc, part, above, rfl, hcs⟩))

theorem splitLines_nil_cases {line : List Char} (h : splitLines [] = above ++ line :: below) :
    above = [] ∧ line = [] ∧ below = [] := by
  have hnil : [[]] = above ++ line :: below := h
  cases above with
  | nil =>
      obtain ⟨rfl, rfl⟩ := List.cons.inj hnil
      exact ⟨rfl, rfl, rfl⟩
  | cons first above => simp at hnil

/-- The last line of the one text goes on with the first line of the other. -/
theorem splitLines_append :
    ∀ {before : List Char} {above : List (List Char)} {left : List Char},
      splitLines before = above ++ [left] → splitLines after = right :: below →
      splitLines (before ++ after) = above ++ (left ++ right) :: below := by
  intro before
  induction before with
  | nil =>
      intro above left hbefore hafter
      obtain ⟨rfl, rfl, -⟩ := splitLines_nil_cases hbefore
      exact hafter
  | cons c cs ih =>
      intro above left hbefore hafter
      rcases splitLines_cons_cases hbefore with ⟨-, -, -, hnil⟩ | ⟨rfl, above', rfl, hcs⟩ |
        ⟨hc, rfl, left', rfl, hcs⟩ | ⟨hc, part, above', rfl, hcs⟩
      · exact absurd hnil.symm (splitOn_ne_nil '\n' cs)
      · rw [List.cons_append, splitLines_newline, ih hcs hafter]
        rfl
      · exact splitLines_cons hc (ih (show splitLines cs = [] ++ [left'] from hcs) hafter)
      · exact splitLines_cons hc (ih hcs hafter)

/-- Where a line is cut, the text is cut. -/
theorem exists_cut :
    ∀ {text : List Char} {above : List (List Char)} {left : List Char},
      splitLines text = above ++ (left ++ right) :: below →
      ∃ before after, before ++ after = text ∧ splitLines before = above ++ [left] ∧
        splitLines after = right :: below := by
  intro text
  induction text with
  | nil =>
      intro above left h
      obtain ⟨rfl, hline, rfl⟩ := splitLines_nil_cases h
      obtain ⟨rfl, rfl⟩ := List.append_eq_nil_iff.1 hline
      exact ⟨[], [], rfl, rfl, rfl⟩
  | cons c cs ih =>
      intro above left h
      rcases splitLines_cons_cases h with ⟨rfl, rfl, hline, rfl⟩ | ⟨rfl, above', rfl, hcs⟩ |
        ⟨hc, rfl, line', hline, hcs⟩ | ⟨hc, part, above', rfl, hcs⟩
      · obtain ⟨rfl, rfl⟩ := List.append_eq_nil_iff.1 hline
        exact ⟨[], '\n' :: cs, rfl, rfl, splitLines_newline cs⟩
      · obtain ⟨before, after, rfl, hbefore, hafter⟩ := ih hcs
        exact ⟨'\n' :: before, after, rfl, by rw [splitLines_newline, hbefore]; rfl, hafter⟩
      · cases left with
        | nil =>
            rw [List.nil_append] at hline
            exact ⟨[], c :: cs, rfl, rfl, by rw [splitLines_cons hc hcs, hline]⟩
        | cons x left =>
            obtain ⟨rfl, rfl⟩ := List.cons.inj hline
            obtain ⟨before, after, rfl, hbefore, hafter⟩ :=
              ih (show splitLines cs = [] ++ (left ++ right) :: below from hcs)
            exact ⟨x :: before, after, rfl, splitLines_cons hc hbefore, hafter⟩
      · obtain ⟨before, after, rfl, hbefore, hafter⟩ := ih hcs
        exact ⟨c :: before, after, rfl, splitLines_cons hc hbefore, hafter⟩

/-- These lines, each with its line feed. -/
def closedLines (lines : List (List Char)) : List Char :=
  lines.flatMap (· ++ ['\n'])

@[simp] theorem closedLines_cons (line : List Char) (lines : List (List Char)) :
    closedLines (line :: lines) = line ++ '\n' :: closedLines lines := by
  simp [closedLines]

theorem eq_newline_of_getLast? {above : List (List Char)} {c : Char}
    (h : (closedLines above).getLast? = some c) : c = '\n' := by
  rcases List.eq_nil_or_concat above with rfl | ⟨lines, last, rfl⟩
  · cases h
  · simp [closedLines] at h
    exact h.symm

/-- What stands before a place: the lines above, and the left part of its line. -/
theorem before_eq :
    ∀ {before : List Char} {above : List (List Char)} {left : List Char},
      splitLines before = above ++ [left] → before = closedLines above ++ left := by
  intro before
  induction before with
  | nil =>
      intro above left h
      obtain ⟨rfl, rfl, -⟩ := splitLines_nil_cases h
      rfl
  | cons c cs ih =>
      intro above left h
      rcases splitLines_cons_cases h with ⟨-, -, -, hnil⟩ | ⟨rfl, above', rfl, hcs⟩ |
        ⟨hc, rfl, left', rfl, hcs⟩ | ⟨hc, part, above', rfl, hcs⟩
      · exact absurd hnil.symm (splitOn_ne_nil '\n' cs)
      · simp [← ih hcs]
      · exact congrArg (c :: ·) (ih (show splitLines cs = [] ++ [left'] from hcs))
      · rw [ih hcs]
        simp

/-- What stands after a place: the right part of its line, up to a line feed or the end of the
text. -/
theorem after_eq :
    ∀ {after right : List Char}, splitLines after = right :: below →
      ∃ later, after = right ++ later ∧ (later = [] ∨ later.head? = some '\n') := by
  intro after
  induction after with
  | nil =>
      intro right h
      obtain ⟨-, rfl, -⟩ := splitLines_nil_cases (show splitLines [] = [] ++ right :: below from h)
      exact ⟨[], rfl, Or.inl rfl⟩
  | cons c cs ih =>
      intro right h
      rcases splitLines_cons_cases (show splitLines (c :: cs) = [] ++ right :: below from h) with
        ⟨rfl, -, rfl, -⟩ | ⟨-, above', habove, -⟩ | ⟨hc, -, right', rfl, hcs⟩ |
        ⟨-, part, above', habove, -⟩
      · exact ⟨'\n' :: cs, rfl, Or.inr rfl⟩
      · cases habove
      · obtain ⟨later, rfl, hlater⟩ := ih hcs
        exact ⟨later, rfl, hlater⟩
      · cases habove

/-! ### The position of a place -/

/-- The position of the place that has this text before it. -/
def placeAfter (before : List Char) : Position :=
  ⟨(splitLines before).length - 1, byteLength ((splitLines before).getLastD [])⟩

theorem placeAfter_eq (h : splitLines before = above ++ [left]) :
    placeAfter before = ⟨above.length, byteLength left⟩ := by
  simp [placeAfter, h]

/-- Text that has no line feed moves a place along its line. -/
theorem placeAfter_append_of_not_mem {cs : List Char} (before : List Char) (h : '\n' ∉ cs) :
    placeAfter (before ++ cs) =
      ⟨(placeAfter before).line, (placeAfter before).col + byteLength cs⟩ := by
  obtain ⟨above, left, hbefore⟩ := exists_splitLines_concat before
  have happend := splitLines_append hbefore (splitLines_of_not_mem h)
  rw [placeAfter_eq happend, placeAfter_eq hbefore, byteLength_append]

/-- A place further on has a later position. -/
theorem placeAfter_lt_append (before : List Char) {cs : List Char} (h : cs ≠ []) :
    placeAfter before < placeAfter (before ++ cs) := by
  obtain ⟨above, left, hbefore⟩ := exists_splitLines_concat before
  obtain ⟨right, below, hcs⟩ := exists_splitLines cs
  have happend := splitLines_append hbefore hcs
  rw [placeAfter_eq hbefore]
  rcases List.eq_nil_or_concat below with rfl | ⟨lines, last, hbelow⟩
  · have hright : right ≠ [] := by
      intro hnil
      rw [hnil] at hcs
      rw [before_eq (show splitLines cs = [] ++ [[]] from hcs)] at h
      exact h rfl
    have hpos := byteLength_pos hright
    rw [placeAfter_eq happend, Position.mk_lt_mk, byteLength_append]
    omega
  · rw [hbelow, List.concat_eq_append, ← List.cons_append, ← List.append_assoc] at happend
    rw [placeAfter_eq happend]
    refine Or.inl ?_
    simp

theorem placeAfter_le_append (before cs : List Char) :
    placeAfter before ≤ placeAfter (before ++ cs) := by
  by_cases h : cs = []
  · rw [h, List.append_nil]
  · exact le_of_lt (placeAfter_lt_append before h)

/-- Of two cuts of a text, one has more before it, unless they are the same. -/
theorem exists_between_of_not_longer {before' after' : List Char}
    (h : before ++ after = before' ++ after')
    (hlonger : ∀ between, between ≠ [] → before ≠ before' ++ between) :
    ∃ between, before' = before ++ between ∧ after = between ++ after' := by
  rcases List.append_eq_append_iff.1 h with ⟨between, hbefore, hafter⟩ | ⟨between, hbefore, hafter⟩
  · exact ⟨between, hbefore, hafter⟩
  · by_cases hnil : between = []
    · rw [hnil, List.append_nil] at hbefore
      rw [hnil, List.nil_append] at hafter
      exact ⟨[], by rw [hbefore, List.append_nil], hafter.symm⟩
    · exact absurd hbefore (hlonger between hnil)

/-- Of two places of a text, the one with the later position has more before it. -/
theorem exists_between {before' after' : List Char} (h : before ++ after = before' ++ after')
    (hle : placeAfter before ≤ placeAfter before') :
    ∃ between, before' = before ++ between ∧ after = between ++ after' := by
  refine exists_between_of_not_longer h fun between hne heq => ?_
  rw [heq] at hle
  exact not_le_of_gt (placeAfter_lt_append before' hne) hle

/-- Of two cuts of a line, the one at the later column has more before it. -/
theorem exists_between_of_byteLength_le {before' after' : List Char}
    (h : before ++ after = before' ++ after') (hle : byteLength before ≤ byteLength before') :
    ∃ between, before' = before ++ between ∧ after = between ++ after' := by
  refine exists_between_of_not_longer h fun between hne heq => ?_
  have hpos := byteLength_pos hne
  rw [heq, byteLength_append] at hle
  omega

/-- Of two places of a text, the one with more bytes before it comes later. -/
theorem placeAfter_lt_of_byteLength_lt {before' after' : List Char}
    (h : before ++ after = before' ++ after') (hlt : byteLength before < byteLength before') :
    placeAfter before < placeAfter before' := by
  by_contra hle
  obtain ⟨between, rfl, -⟩ := exists_between h.symm (not_lt.1 hle)
  rw [byteLength_append] at hlt
  omega

/-! ### Contents of lines -/

/-- A line is its content, and perhaps a carriage return. -/
theorem dropReturn_cases (line : List Char) :
    line = dropReturn line ∨ line = dropReturn line ++ ['\r'] := by
  unfold dropReturn
  by_cases h : line.getLast? = some '\r'
  · rw [if_pos h]
    obtain ⟨init, rfl⟩ := List.getLast?_eq_some_iff.1 h
    simp
  · rw [if_neg h]
    exact Or.inl rfl

theorem dropReturn_append_right {right : List Char} (left : List Char) (h : right ≠ []) :
    dropReturn (left ++ right) = left ++ dropReturn right := by
  have hgetLast : (left ++ right).getLast? = right.getLast? := by
    rw [List.getLast?_append, List.getLast?_eq_some_getLast h, Option.some_or]
  unfold dropReturn
  rw [hgetLast]
  by_cases hlast : right.getLast? = some '\r'
  · rw [if_pos hlast, if_pos hlast, List.dropLast_append_of_ne_nil h]
  · rw [if_neg hlast, if_neg hlast]

theorem newline_not_mem_splitLines :
    ∀ {text : List Char}, ∀ line ∈ splitLines text, '\n' ∉ line := by
  intro text
  induction text with
  | nil =>
      intro line hline
      have hnil : line ∈ [[]] := hline
      simp at hnil
      simp [hnil]
  | cons c cs ih =>
      intro line hline
      by_cases hc : c = '\n'
      · rw [hc, splitLines_newline] at hline
        rcases List.mem_cons.1 hline with rfl | hline
        · simp
        · exact ih line hline
      · obtain ⟨part, parts, hcs⟩ := exists_splitLines cs
        rw [splitLines_cons hc hcs] at hline
        rcases List.mem_cons.1 hline with rfl | hline
        · have hpart := ih part (by simp [hcs])
          simp [hpart, Ne.symm hc]
        · exact ih line (by simp [hcs, hline])

theorem newline_not_mem_content {line : List Char} (h : line ∈ contentLines text) :
    '\n' ∉ line := by
  intro hmem
  obtain ⟨whole, hwhole, rfl⟩ := List.mem_map.1 h
  refine newline_not_mem_splitLines whole hwhole ?_
  rcases dropReturn_cases whole with heq | heq
  · rw [heq]
    exact hmem
  · rw [heq]
    exact List.mem_append_left _ hmem

/-- No word goes on with this: the text or its line is over. -/
def EndsLine (later : List Char) : Prop :=
  later = [] ∨ later.head? = some '\n' ∨ later.head? = some '\r'

/-- At the position the text is cut into `before` and `after`, and the content of its line into
`left` and `right`. -/
structure CutAt (text : List Char) (p : Position) (before after left right : List Char) : Prop where
  join : before ++ after = text
  place : placeAfter before = p
  line : (contentLines text)[p.line]? = some (left ++ right)
  col : p.col = byteLength left
  earlier : ∃ above, before = closedLines above ++ left
  later : ∃ rest, after = right ++ rest ∧ EndsLine rest

namespace CutAt

variable {p : Position}

theorem isPlace (h : CutAt text p before after left right) : IsPlace text p := by
  refine ⟨left ++ right, h.line, ?_⟩
  rw [h.col, byteLength_append]
  omega

/-- A cut of a text is one of the content of a line if its line goes on with text that is not a
carriage return only. -/
theorem ofLines {tail : List Char} (hbefore : splitLines before = above ++ [left])
    (hafter : splitLines after = (right ++ tail) :: below) (htail : tail = [] ∨ tail = ['\r'])
    (hcontent : dropReturn (left ++ (right ++ tail)) = left ++ right) :
    CutAt (before ++ after) (placeAfter before) before after left right := by
  have hlines := splitLines_append hbefore hafter
  refine ⟨rfl, rfl, ?_, ?_, ⟨above, before_eq hbefore⟩, ?_⟩
  · rw [placeAfter_eq hbefore, contentLines, hlines]
    simp [hcontent]
  · rw [placeAfter_eq hbefore]
  · obtain ⟨later, hlater, hends⟩ := after_eq hafter
    refine ⟨tail ++ later, by rw [hlater, List.append_assoc], ?_⟩
    rcases htail with rfl | rfl
    · rcases hends with hends | hends
      · exact Or.inl hends
      · exact Or.inr (Or.inl hends)
    · exact Or.inr (Or.inr rfl)

/-- Where the content of a line is cut, the text is cut. -/
theorem exists_of_line (left right : List Char)
    (hline : (contentLines text)[p.line]? = some (left ++ right))
    (hcol : p.col = byteLength left) : ∃ before after, CutAt text p before after left right := by
  obtain ⟨line, hget, hcontent⟩ : ∃ line, (splitLines text)[p.line]? = some line ∧
      dropReturn line = left ++ right := by
    rw [contentLines, List.getElem?_map, Option.map_eq_some_iff] at hline
    exact hline
  obtain ⟨tail, htail, hjoin⟩ : ∃ tail, (tail = [] ∨ tail = ['\r']) ∧
      line = left ++ (right ++ tail) := by
    rcases dropReturn_cases line with h | h
    · exact ⟨[], Or.inl rfl, by rw [h, hcontent, List.append_nil]⟩
    · exact ⟨['\r'], Or.inr rfl, by rw [h, hcontent, List.append_assoc]⟩
  obtain ⟨hlt, hline⟩ := List.getElem?_eq_some_iff.1 hget
  have hlines : splitLines text = (splitLines text).take p.line ++
      (left ++ (right ++ tail)) :: (splitLines text).drop (p.line + 1) := by
    rw [← hjoin, ← hline, ← List.drop_eq_getElem_cons hlt, List.take_append_drop]
  obtain ⟨before, after, rfl, hbefore, hafter⟩ := exists_cut hlines
  have hplace : placeAfter before = p := by
    rw [placeAfter_eq hbefore, List.length_take, Nat.min_eq_left (Nat.le_of_lt hlt), ← hcol]
  refine ⟨before, after, ?_⟩
  rw [← hplace]
  exact ofLines hbefore hafter htail (by rw [← hjoin, hcontent])

/-- Where a word begins, the content of its line is cut. -/
theorem exists_of_text (before : List Char) {word : List Char} (rest : List Char)
    (hword : word ≠ []) (hline : '\n' ∉ word) (hreturn : word.getLast? ≠ some '\r') :
    ∃ left right, CutAt (before ++ (word ++ rest)) (placeAfter before) before (word ++ rest) left
      (word ++ right) := by
  obtain ⟨above, left, hbefore⟩ := exists_splitLines_concat before
  obtain ⟨first, below, hrest⟩ := exists_splitLines rest
  have hafter : splitLines (word ++ rest) = (word ++ first) :: below :=
    splitLines_append (show splitLines word = [] ++ [word] from splitLines_of_not_mem hline) hrest
  obtain ⟨tail, htail, hfirst⟩ : ∃ tail, (tail = [] ∨ tail = ['\r']) ∧
      first = dropReturn first ++ tail := by
    rcases dropReturn_cases first with h | h
    · exact ⟨[], Or.inl rfl, by rw [List.append_nil, ← h]⟩
    · exact ⟨['\r'], Or.inr rfl, h⟩
  have hcontent : dropReturn (left ++ (word ++ first)) = left ++ (word ++ dropReturn first) := by
    by_cases hnil : first = []
    · subst hnil
      have hdrop : dropReturn [] = [] := rfl
      rw [dropReturn_append_right left (by simpa using hword), List.append_nil, hdrop,
        List.append_nil, dropReturn, if_neg hreturn]
    · rw [← List.append_assoc, dropReturn_append_right (left ++ word) hnil, List.append_assoc]
  rw [hfirst, ← List.append_assoc] at hafter
  refine ⟨left, dropReturn first, ofLines hbefore hafter htail ?_⟩
  rw [List.append_assoc, ← hfirst, hcontent]

/-- A cut moves along its line. -/
theorem move {word : List Char} (h : CutAt text p before after left (word ++ right)) :
    ∃ after', after = word ++ after' ∧
      CutAt text ⟨p.line, p.col + byteLength word⟩ (before ++ word) after' (left ++ word) right := by
  obtain ⟨above, habove⟩ := h.earlier
  obtain ⟨rest, hrest, hends⟩ := h.later
  have hword : '\n' ∉ word := by
    intro hmem
    refine newline_not_mem_content (List.mem_of_getElem? h.line) ?_
    simp [hmem]
  refine ⟨right ++ rest, by rw [hrest, List.append_assoc], ?_, ?_, ?_, ?_, ⟨above, ?_⟩, rest, rfl,
    hends⟩
  · rw [← h.join, hrest]
    simp
  · rw [placeAfter_append_of_not_mem before hword, h.place]
  · rw [h.line, List.append_assoc]
  · rw [h.col, byteLength_append]
  · rw [habove, List.append_assoc]

end CutAt

/-! ### Positions and offsets -/

/-- A column of the content counts from the start of the line. -/
theorem LineSpan.offsetAt_of_le {s : LineSpan} {col : Nat} (h : s.start + col ≤ s.stop) :
    s.offsetAt col = s.start + col :=
  if_pos h

namespace LineIndex

theorem spansFrom_cons (start : Nat) (line : List Char) (lines : List (List Char)) :
    spansFrom start (line :: lines) =
      ⟨start, start + byteLength (if lines = [] then line else dropReturn line)⟩ ::
        spansFrom (start + byteLength line + 1) lines := by
  cases lines with
  | nil => rfl
  | cons next rest => simp [spansFrom]

/-- The span of a line starts behind all lines above it. -/
theorem getElem?_spansFrom (line : List Char) (below : List (List Char)) :
    ∀ (above : List (List Char)) (start : Nat),
      (spansFrom start (above ++ line :: below))[above.length]? =
        some ⟨start + byteLength (closedLines above), start + byteLength (closedLines above) +
          byteLength (if below = [] then line else dropReturn line)⟩ := by
  intro above
  induction above with
  | nil =>
      intro start
      rw [List.nil_append, spansFrom_cons]
      rfl
  | cons first above ih =>
      intro start
      have hsize : Char.utf8Size '\n' = 1 := rfl
      rw [List.cons_append, spansFrom_cons, List.length_cons, List.getElem?_cons_succ, ih]
      simp only [closedLines_cons, byteLength_append, byteLength_cons, hsize, Option.some.injEq,
        LineSpan.mk.injEq]
      omega

/-- The spans that start at or before an offset on a line are those of this line and of the lines
above it. -/
theorem takeWhile_spansFrom (line : List Char) (below : List (List Char)) (offset : Nat) :
    ∀ (above : List (List Char)) (start : Nat),
      start + byteLength (closedLines above) ≤ offset →
      offset ≤ start + byteLength (closedLines above) + byteLength line →
      (spansFrom start (above ++ line :: below)).takeWhile (·.start ≤ offset) =
        (spansFrom start (above ++ line :: below)).take (above.length + 1) := by
  intro above
  induction above with
  | nil =>
      intro start hstart hstop
      have hstart' : start ≤ offset := by omega
      have hnone : (spansFrom (start + byteLength line + 1) below).takeWhile (·.start ≤ offset)
          = [] := by
        cases below with
        | nil => rfl
        | cons next rest =>
            rw [spansFrom_cons, List.takeWhile_cons_of_neg]
            have hnil : byteLength (closedLines []) = 0 := rfl
            rw [decide_eq_true_eq, Nat.not_le]
            show offset < start + byteLength line + 1
            omega
      simp [spansFrom_cons, hnone, hstart']
  | cons first above ih =>
      intro start hstart hstop
      have hsize : Char.utf8Size '\n' = 1 := rfl
      simp only [closedLines_cons, byteLength_append, byteLength_cons, hsize] at hstart hstop
      have hstart' : start ≤ offset := by omega
      have hrest := ih (start + byteLength first + 1) (by omega) (by omega)
      simp [spansFrom_cons, hrest, hstart']

theorem length_spansFrom :
    ∀ (lines : List (List Char)) (start : Nat), (spansFrom start lines).length = lines.length := by
  intro lines
  induction lines with
  | nil => intro start; rfl
  | cons line lines ih =>
      intro start
      rw [spansFrom_cons, List.length_cons, List.length_cons, ih]

/-- The range of a line: from behind the lines above it to the end of its content. -/
theorem lineRange?_of_line {line : List Char} (h : splitLines text = above ++ line :: below) :
    (ofChars text).lineRange? above.length =
      some ⟨byteLength (closedLines above), byteLength (closedLines above) +
        byteLength (if below = [] then line else dropReturn line)⟩ := by
  have hspan := getElem?_spansFrom line below above 0
  rw [Nat.zero_add] at hspan
  rw [lineRange?, ofChars, h]
  exact hspan

/-- The position of an offset on a line: the column counts from behind the lines above. -/
theorem position_of_line {line : List Char} {offset : Nat}
    (h : splitLines text = above ++ line :: below)
    (hstart : byteLength (closedLines above) ≤ offset)
    (hstop : offset ≤ byteLength (closedLines above) + byteLength line) :
    (ofChars text).position offset =
      ⟨above.length, offset - byteLength (closedLines above)⟩ := by
  have hreached := takeWhile_spansFrom line below offset above 0 (by omega) (by omega)
  have hspan := getElem?_spansFrom line below above 0
  unfold position ofChars
  rw [h]
  simp only [hreached, List.length_take, length_spansFrom, List.getLast?_take, Nat.add_sub_cancel,
    hspan]
  simp

/-- **The position of an offset is that of the place with so many bytes before it.** -/
theorem position_byteLength (before after : List Char) :
    (ofChars (before ++ after)).position (byteLength before) = placeAfter before := by
  obtain ⟨above, left, hbefore⟩ := exists_splitLines_concat before
  obtain ⟨right, below, hafter⟩ := exists_splitLines after
  have hlength : byteLength before = byteLength (closedLines above) + byteLength left := by
    rw [← byteLength_append, ← before_eq hbefore]
  rw [position_of_line (splitLines_append hbefore hafter) (by omega)
    (by rw [byteLength_append]; omega), placeAfter_eq hbefore, hlength, Nat.add_sub_cancel_left]

/-- The line index gives the position this offset, and the position is on its line: nothing is cut
off at the end of the line's content. -/
structure Exact (idx : LineIndex) (p : Position) (offset : Nat) : Prop where
  offset_eq : idx.offset? p = some offset
  unclamped : ∃ span, idx.lineRange? p.line = some span ∧ offset = span.start + p.col ∧
    offset ≤ span.stop

/-- **The offset of a place of the text is the number of bytes before it.** -/
theorem exact_placeAfter (h : before ++ after = text) (hplace : IsPlace text (placeAfter before)) :
    (ofChars text).Exact (placeAfter before) (byteLength before) := by
  obtain ⟨above, left, hbefore⟩ := exists_splitLines_concat before
  obtain ⟨right, below, hafter⟩ := exists_splitLines after
  have hlength : byteLength before = byteLength (closedLines above) + byteLength left := by
    rw [← byteLength_append, ← before_eq hbefore]
  have hlines : splitLines text = above ++ (left ++ right) :: below := by
    rw [← h, splitLines_append hbefore hafter]
  obtain ⟨line, hline, hcol⟩ := hplace
  rw [placeAfter_eq hbefore] at hline hcol ⊢
  have hcontent : line = dropReturn (left ++ right) := by
    rw [contentLines, hlines] at hline
    simpa using hline.symm
  have hspan := lineRange?_of_line hlines
  -- The line index may count a carriage return that the content does not have, never less.
  have hroom : byteLength left ≤ byteLength (if below = [] then left ++ right
      else dropReturn (left ++ right)) := by
    by_cases hbelow : below = []
    · rw [if_pos hbelow, byteLength_append]
      omega
    · rw [if_neg hbelow, ← hcontent]
      exact hcol
  refine ⟨?_, _, hspan, ?_, ?_⟩
  · rw [offset?, ← lineRange?, hspan, Option.map_some,
      LineSpan.offsetAt_of_le (by simp only; omega), Option.some.injEq]
    exact hlength.symm
  · simp only
    omega
  · simp only
    omega

theorem offset?_placeAfter (h : before ++ after = text) (hplace : IsPlace text (placeAfter before)) :
    (ofChars text).offset? (placeAfter before) = some (byteLength before) :=
  (exact_placeAfter h hplace).offset_eq

end LineIndex

end OverlayIndex
