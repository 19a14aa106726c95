/-
The run that a token is cut from.

A run is a stretch of token characters that no other stretch of token characters reaches beyond.
Every column between two characters is inside exactly one run or at one of its ends; where no token
character is near, the run is empty.  The two scans that start at the column, one to either side,
meet the ends of this run wherever in it they start.  So the token is a matter of the run alone: it
is the run without the points at its ends, and there is none if nothing else is left.
-/
import OverlayIndex.Proofs.Resolve.RoundTrip
import OverlayIndex.Proofs.Resolve.WholeIdentifiers

namespace OverlayIndex

variable {line : List Char} {col : Nat} {s t run token : Span}

/-! ### Stretches of a line -/

theorem isCharBoundary_iff {text : List Char} {offset : Nat} :
    IsCharBoundary text offset ↔ (cutAtByte offset text).isSome = true := by
  constructor
  · rintro ⟨before, after, rfl, rfl⟩
    rw [cutAtByte_append]
    rfl
  · intro h
    obtain ⟨⟨before, after⟩, hcut⟩ := Option.isSome_iff_exists.1 h
    exact ⟨before, after, cutAtByte_spec hcut⟩

instance (text : List Char) (offset : Nat) : Decidable (IsCharBoundary text offset) :=
  decidable_of_iff _ isCharBoundary_iff.symm

/-- A text is cut at a byte in one way only. -/
theorem eq_of_cut {before after before' after' : List Char}
    (h : before ++ after = before' ++ after') (hlength : byteLength before = byteLength before') :
    before = before' ∧ after = after' := by
  have hcut := cutAtByte_append before after
  rw [h, hlength, cutAtByte_append] at hcut
  cases hcut
  exact ⟨rfl, rfl⟩

namespace Span

/-- The column is inside the stretch or at one of its ends.  A column past the end of the line
stands for the end. -/
def Touches (s : Span) (col : Nat) : Prop :=
  s.start ≤ min col (byteLength s.line) ∧ min col (byteLength s.line) ≤ s.stop

instance (s : Span) (col : Nat) : Decidable (s.Touches col) :=
  inferInstanceAs (Decidable (_ ∧ _))

/-- Stretches of a line with the same range are the same. -/
theorem eq_of_range (hline : s.line = t.line) (hstart : s.start = t.start)
    (hstop : s.stop = t.stop) : s = t := by
  obtain ⟨left, text, right⟩ := s
  obtain ⟨left', text', right'⟩ := t
  simp only [line, start, stop, List.append_assoc] at hline hstart hstop
  obtain ⟨hleft, hrest⟩ := eq_of_cut hline (by simpa using hstart)
  obtain ⟨rfl, rfl⟩ := eq_of_cut hrest (by omega)
  rw [List.reverse_inj.1 hleft]

/-- A stretch that reaches from before another to behind it has it in the middle. -/
theorem exists_around (hline : s.line = t.line) (hstart : s.start ≤ t.start)
    (hstop : t.stop ≤ s.stop) : ∃ x y,
      t.left = x.reverse ++ s.left ∧ s.text = x ++ t.text ++ y ∧ t.right = y ++ s.right := by
  simp only [line, List.append_assoc] at hline
  obtain ⟨x, hx, hrest⟩ := exists_between_of_byteLength_le hline (by
    rw [byteLength_reverse, byteLength_reverse]
    exact hstart)
  have hleft : t.left = x.reverse ++ s.left := by
    rw [← List.reverse_inj, hx, List.reverse_append, List.reverse_reverse]
  rw [← List.append_assoc] at hrest
  obtain ⟨y, hy, hright⟩ := exists_between_of_byteLength_le hrest.symm (by
    simp only [stop, hleft, byteLength_append, byteLength_reverse] at hstop ⊢
    omega)
  exact ⟨x, y, hleft, hy, hright⟩

theorem isCharBoundary_start (s : Span) : IsCharBoundary s.line s.start :=
  ⟨s.left.reverse, s.text ++ s.right, (List.append_assoc ..).symm, byteLength_reverse _⟩

theorem isCharBoundary_stop (s : Span) : IsCharBoundary s.line s.stop :=
  ⟨s.left.reverse ++ s.text, s.right, rfl, by rw [byteLength_append, byteLength_reverse, stop]⟩

end Span

/-! ### Runs -/

/-- A stretch of the line with token characters only. -/
structure IsStretch (line : List Char) (s : Span) : Prop where
  line_eq : s.line = line
  chars : ∀ c ∈ s.text, isTokenChar c = true

/-- A stretch of token characters that no other one reaches beyond. -/
structure IsRun (line : List Char) (run : Span) : Prop extends IsStretch line run where
  maximal : ∀ s, IsStretch line s → s.start ≤ run.start → run.stop ≤ s.stop → s = run

/-- A run takes in all token characters around it: a stretch that is longer by some of them would
have to be the run itself. -/
theorem IsRun.eq_nil_of_longer {left text right x y : List Char}
    (h : IsRun line ⟨x.reverse ++ left, text, y ++ right⟩) (hx : ∀ c ∈ x, isTokenChar c = true)
    (hy : ∀ c ∈ y, isTokenChar c = true) : x = [] ∧ y = [] := by
  have hlonger : IsStretch line ⟨left, x ++ text ++ y, right⟩ := by
    refine ⟨?_, fun c hc => ?_⟩
    · rw [← h.line_eq]
      simp [Span.line]
    · rcases List.mem_append.1 hc with hc | hc
      · exact (List.mem_append.1 hc).elim (hx c) (h.chars c)
      · exact hy c hc
  have heq := h.maximal _ hlonger
    (by simp only [Span.start, byteLength_append]; omega)
    (by simp only [Span.stop, byteLength_append, byteLength_reverse]; omega)
  have hlength := congrArg (fun s : Span => s.text.length) heq
  simp only [List.length_append] at hlength
  exact ⟨List.length_eq_zero_iff.1 (by omega), List.length_eq_zero_iff.1 (by omega)⟩

theorem IsRun.left_stops (h : IsRun line run) : run.left.head?.any isTokenChar = false := by
  obtain ⟨left, text, right⟩ := run
  cases left with
  | nil => rfl
  | cons c left =>
      rw [List.head?_cons, Option.any_some]
      by_contra hc
      have hnil := (h.eq_nil_of_longer (x := [c]) (y := []) (by simpa using hc) (by simp)).1
      cases hnil

theorem IsRun.right_stops (h : IsRun line run) : run.right.head?.any isTokenChar = false := by
  obtain ⟨left, text, right⟩ := run
  cases right with
  | nil => rfl
  | cons c right =>
      rw [List.head?_cons, Option.any_some]
      by_contra hc
      have hnil := (h.eq_nil_of_longer (x := []) (y := [c]) (by simp) (by simpa using hc)).2
      cases hnil

/-- **A run is a stretch of token characters between others.** -/
theorem isRun_iff : IsRun line run ↔ IsStretch line run ∧
    run.left.head?.any isTokenChar = false ∧ run.right.head?.any isTokenChar = false := by
  constructor
  · intro h
    exact ⟨h.toIsStretch, h.left_stops, h.right_stops⟩
  · rintro ⟨hrun, hleft, hright⟩
    refine ⟨hrun, fun s hs hstart hstop => ?_⟩
    have hline := hs.line_eq.trans hrun.line_eq.symm
    obtain ⟨x, y, hx, htext, hy⟩ := Span.exists_around hline hstart hstop
    -- What `s` has before the run and behind it would have to stop at the ends of the run.
    have hmem : ∀ c ∈ x ++ run.text ++ y, isTokenChar c = true := htext ▸ hs.chars
    have hxnil : x.reverse = [] := eq_nil_of_stops (q := isTokenChar)
      (fun c hc => hmem c (by simp [List.mem_reverse.1 hc])) (hx ▸ hleft)
    obtain rfl : y = [] := eq_nil_of_stops (fun c hc => hmem c (by simp [hc])) (hy ▸ hright)
    obtain rfl : x = [] := List.reverse_eq_nil_iff.1 hxnil
    refine Span.eq_of_range hline ?_ ?_
    · rw [Span.start, Span.start, hx]
      rfl
    · rw [Span.stop, Span.stop, hx, htext]
      simp

/-- **The scans to either side of a cursor give the run that the cursor is at**, and no other. -/
theorem Cursor.tokenRun_eq_iff {c : Cursor} :
    c.tokenRun = run ↔ IsRun c.line run ∧ run.Touches (byteLength c.left) := by
  obtain ⟨left, right⟩ := c
  constructor
  · rintro rfl
    obtain ⟨out, a, hleft, ha, hout⟩ := exists_run_back isTokenChar left.reverse
    obtain ⟨b, rest, rfl, hb, hrest⟩ := exists_run isTokenChar right
    obtain rfl : left = (out ++ a).reverse := by rw [← hleft, List.reverse_reverse]
    rw [Cursor.tokenRun_eq hout hrest ha hb]
    refine ⟨isRun_iff.2 ⟨⟨?_, ?_⟩, ?_, hrest⟩, ?_⟩
    · simp [Span.line, Cursor.line]
    · exact fun c hc => (List.mem_append.1 hc).elim (ha c) (hb c)
    · rw [List.head?_reverse]
      exact hout
    · simp only [Span.Touches, Span.start, Span.stop, Span.line, byteLength_append,
        byteLength_reverse]
      omega
  · rintro ⟨h, hstart, hstop⟩
    have hline : run.left.reverse ++ (run.text ++ run.right) = left.reverse ++ right := by
      rw [← List.append_assoc]
      exact h.line_eq
    have hmin : min (byteLength left) (byteLength run.line) = byteLength left := by
      rw [h.line_eq, Cursor.line, byteLength_append, byteLength_reverse]
      exact Nat.min_eq_left (Nat.le_add_right _ _)
    rw [hmin] at hstart hstop
    obtain ⟨a, b, htext, hleft⟩ := exists_inside hline
      (by rw [byteLength_reverse, byteLength_reverse]; exact hstart)
      (by rw [byteLength_reverse, byteLength_reverse]; exact hstop)
    obtain rfl : left = (run.left.reverse ++ a).reverse := by rw [← hleft, List.reverse_reverse]
    obtain rfl : right = b ++ run.right := by
      rw [htext, List.reverse_reverse, List.append_assoc, List.append_assoc] at hline
      exact (List.append_cancel_left (List.append_cancel_left hline)).symm
    have hchars := h.chars
    rw [htext] at hchars
    rw [Cursor.tokenRun_eq (by rw [List.getLast?_reverse]; exact h.left_stops) h.right_stops
      (fun c hc => hchars c (List.mem_append_left b hc))
      (fun c hc => hchars c (List.mem_append_right a hc)), ← htext, List.reverse_reverse]

/-- A column between two characters has a cursor, and the run there is what its scans give. -/
theorem exists_cursorAt? (h : IsCharBoundary line (min col (byteLength line))) :
    ∃ c, cursorAt? line col = some c ∧
      ∀ run, c.tokenRun = run ↔ IsRun line run ∧ run.Touches col := by
  obtain ⟨before, after, rfl, hlength⟩ := h
  refine ⟨⟨before.reverse, after⟩, ?_, fun run => ?_⟩
  · rw [cursorAt?, ← hlength, cutAtByte_append]
    rfl
  · rw [Cursor.tokenRun_eq_iff, Cursor.line, List.reverse_reverse, byteLength_reverse]
    refine and_congr_right fun hrun => ?_
    rw [Span.Touches, Span.Touches, hrun.line_eq, ← hlength, byteLength_append,
      Nat.min_eq_left (Nat.le_add_right _ _)]

/-! ### The token of a run -/

/-- The token is the run without the points at its ends: its range is that of the run, shorter by
one byte for each point. -/
structure Span.TrimsTo (run token : Span) : Prop where
  line_eq : token.line = run.line
  isToken : IsToken token.text
  cut : ∃ lead trail, run.text = points lead ++ (token.text ++ points trail) ∧
    token.start = run.start + lead ∧ run.stop = token.stop + trail

theorem IsStretch.trimsTo_iff (h : IsStretch line run) :
    run.TrimsTo token ↔ run.trimPoints = token ∧ token.text ≠ [] := by
  obtain ⟨left, text, right⟩ := run
  constructor
  · rintro ⟨hline, htoken, lead, trail, rfl, hstart, hstop⟩
    refine ⟨?_, htoken.nonempty⟩
    rw [Span.trimPoints_eq htoken]
    refine Span.eq_of_range ?_ ?_ ?_
    · rw [hline]
      simp [Span.line, reverse_points]
    · rw [hstart, Span.start, Span.start, byteLength_append, byteLength_points, Nat.add_comm]
    · simp only [Span.stop, Span.start, byteLength_append, byteLength_points] at hstart hstop ⊢
      omega
  · rintro ⟨rfl, hne⟩
    obtain ⟨lead, word, trail, rfl, htoken⟩ := exists_isToken h.chars fun hall =>
      hne (Span.text_trimPoints_eq_nil_iff.2 hall)
    rw [Span.trimPoints_eq htoken]
    refine ⟨?_, htoken, lead, trail, rfl, ?_, ?_⟩
    · simp [Span.line, reverse_points]
    · rw [Span.start, Span.start, byteLength_append, byteLength_points, Nat.add_comm]
    · simp only [Span.stop, byteLength_append, byteLength_points]
      omega

section AtRun

variable (h : IsRun line run) (hcol : IsCharBoundary line (min col (byteLength line)))
  (htouches : run.Touches col)
include h hcol htouches

/-- The token at any column of a run, in terms of the run. -/
theorem IsRun.tokenAt?_eq :
    tokenAt? line col = if run.trimPoints.text = [] then none else some run.trimPoints := by
  obtain ⟨c, hc, hrun⟩ := exists_cursorAt? hcol
  rw [tokenAt?, hc, Option.bind_some, (hrun run).2 ⟨h, htouches⟩]

theorem IsRun.tokenAt?_eq_none_iff : tokenAt? line col = none ↔ ∀ c ∈ run.text, c = '.' := by
  have hpoints : run.trimPoints.text = [] ↔ ∀ c ∈ run.text, c = '.' := by
    rw [Span.text_trimPoints_eq_nil_iff]
    exact forall₂_congr fun c _ => decide_eq_true_iff
  rw [h.tokenAt?_eq hcol htouches, ← hpoints]
  by_cases hnil : run.trimPoints.text = []
  · rw [if_pos hnil]
    exact iff_of_true rfl hnil
  · rw [if_neg hnil]
    exact iff_of_false (Option.some_ne_none _) hnil

theorem IsRun.tokenAt?_eq_some_iff : tokenAt? line col = some token ↔ run.TrimsTo token := by
  rw [h.tokenAt?_eq hcol htouches, h.toIsStretch.trimsTo_iff, Option.ite_none_left_eq_some,
    Option.some_inj]
  constructor
  · rintro ⟨hne, rfl⟩
    exact ⟨rfl, hne⟩
  · rintro ⟨rfl, hne⟩
    exact ⟨hne, rfl⟩

end AtRun

/-- What stands next to a token is a point or no token character. -/
theorem point_or_stops {rest : List Char} (h : rest.head?.any isTokenChar = false) {n : Nat}
    {c : Char} (hc : (points n ++ rest).head? = some c) : c = '.' ∨ isTokenChar c = false := by
  cases n with
  | zero =>
      have hrest : rest.head? = some c := hc
      rw [hrest] at h
      exact Or.inr h
  | succ n => exact Or.inl (Option.some.inj hc).symm

/-- **The token at a column depends on the run at the column only.**  Inside a character there is no
token.  Elsewhere there is one run at the column.  There is no token if the run has nothing but
points, in particular if it is empty; otherwise the token is the run without the points at its ends.
So all columns of the run have the same token.  A token is not empty, its ends are between
characters, and next to it there is on either side the end of the line, a point or what is no token
character. -/
theorem token_is_trimmed_run (line : List Char) (col : Nat) :
    (¬IsCharBoundary line (min col (byteLength line)) → tokenAt? line col = none) ∧
    (IsCharBoundary line (min col (byteLength line)) →
      (∃! run, IsRun line run ∧ run.Touches col) ∧
      ∀ run, IsRun line run → run.Touches col →
        (tokenAt? line col = none ↔ ∀ c ∈ run.text, c = '.') ∧
        (∀ token, tokenAt? line col = some token ↔ run.TrimsTo token) ∧
        ∀ col', IsCharBoundary line (min col' (byteLength line)) → run.Touches col' →
          tokenAt? line col' = tokenAt? line col) ∧
    ∀ token, tokenAt? line col = some token →
      token.line = line ∧ token.start < token.stop ∧
      IsCharBoundary line token.start ∧ IsCharBoundary line token.stop ∧
      (∀ c, token.left.head? = some c → c = '.' ∨ isTokenChar c = false) ∧
      ∀ c, token.right.head? = some c → c = '.' ∨ isTokenChar c = false := by
  refine ⟨fun hcol => ?_, fun hcol => ⟨?_, fun run hrun htouches => ⟨?_, fun token => ?_, ?_⟩⟩,
    fun token htoken => ?_⟩
  · rw [isCharBoundary_iff, Option.not_isSome_iff_eq_none] at hcol
    rw [tokenAt?, cursorAt?, hcol]
    rfl
  · obtain ⟨c, -, hc⟩ := exists_cursorAt? hcol
    exact ⟨c.tokenRun, (hc _).1 rfl, fun run hrun => ((hc run).2 hrun).symm⟩
  · exact hrun.tokenAt?_eq_none_iff hcol htouches
  · exact hrun.tokenAt?_eq_some_iff hcol htouches
  · intro col' hcol' htouches'
    rw [hrun.tokenAt?_eq hcol htouches, hrun.tokenAt?_eq hcol' htouches']
  · obtain ⟨left, lead, word, trail, right, hat, rfl⟩ := exists_runAt htoken
    have hline : Span.line ⟨points lead ++ left.reverse, word, points trail ++ right⟩ = line := by
      rw [hat.join]
      simp [Span.line, reverse_points]
    refine ⟨hline, Span.start_lt_stop hat.isToken.nonempty, ?_, ?_, fun c hc => ?_, fun c hc => ?_⟩
    · exact hline ▸ Span.isCharBoundary_start _
    · exact hline ▸ Span.isCharBoundary_stop _
    · exact point_or_stops (by rw [List.head?_reverse]; exact hat.left_stops) hc
    · exact point_or_stops hat.right_stops hc

/-- A line with a name between points. -/
def pointedLine : List Char :=
  "X = ..CÜST.NAME. + 1".toList

/-- The name with its points. -/
def pointedRun : Span :=
  ⟨" = X".toList, "..CÜST.NAME.".toList, " + 1".toList⟩

/-- The name. -/
def pointedName : Span :=
  ⟨".. = X".toList, "CÜST.NAME".toList, ". + 1".toList⟩

/-- The columns before the points and behind them have the name between them, and the column inside
its second letter has none. -/
theorem pointed_name_is_trimmed :
    (¬IsCharBoundary pointedLine 8 ∧ tokenAt? pointedLine 8 = none) ∧
      (IsRun pointedLine pointedRun ∧ pointedRun.Touches 4 ∧ pointedRun.Touches 17 ∧
        pointedRun.TrimsTo pointedName) ∧
      tokenAt? pointedLine 4 = some pointedName ∧ tokenAt? pointedLine 17 = some pointedName ∧
      pointedName.start = 6 ∧ pointedName.stop = 16 := by
  have hrun : IsRun pointedLine pointedRun := by
    refine isRun_iff.2 ⟨⟨by decide, List.all_eq_true.1 (by decide +kernel)⟩, ?_, ?_⟩
    · decide +kernel
    · decide +kernel
  have htouches : pointedRun.Touches 4 ∧ pointedRun.Touches 17 := by decide
  have hname : pointedRun.TrimsTo pointedName :=
    ⟨by decide, ⟨by decide, List.all_eq_true.1 (by decide +kernel), by decide, by decide⟩,
      2, 1, by decide, by decide, by decide⟩
  have hcol : IsCharBoundary pointedLine (min 4 (byteLength pointedLine)) ∧
      IsCharBoundary pointedLine (min 17 (byteLength pointedLine)) := by decide
  obtain ⟨-, htoken, hsame⟩ :=
    ((token_is_trimmed_run pointedLine 4).2.1 hcol.1).2 pointedRun hrun htouches.1
  have hfour := (htoken pointedName).2 hname
  have hinside : ¬IsCharBoundary pointedLine 8 := by decide
  exact ⟨⟨hinside, (token_is_trimmed_run pointedLine 8).1 hinside⟩,
    ⟨hrun, htouches.1, htouches.2, hname⟩, hfour, (hsame 17 hcol.2 htouches.2).trans hfour,
    by decide, by decide⟩

end OverlayIndex
