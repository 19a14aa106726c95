/-
Columns past the end of a line.

To find the token, a column past the end of the line is taken for the end.  To find the overlay
around the position and the block under it, the column is taken as it is.  The block makes no
difference, since a parenthesis follows it on the line.  The overlay makes none either, unless it
ends with the line at hand: the end of the line is then the last place in it, and a column further
on is outside.  So past the end of an overlay's last line the token is still found, but nothing
that the overlay declares.
-/
import OverlayIndex.Proofs.Resolve.Inclusions

namespace OverlayIndex

theorem textTokenAt?_past_end {text line : List Char} {n c : Nat}
    (hline : (contentLines text)[n]? = some line) (hc : byteLength line ≤ c) :
    textTokenAt? text ⟨n, c⟩ = textTokenAt? text ⟨n, byteLength line⟩ := by
  unfold textTokenAt? tokenAt? cursorAt?
  simp only [hline, Option.bind_some, Nat.min_eq_right hc, Nat.min_self]

namespace SymbolTree

variable {t : SymbolTree} {text line : List Char} {n c : Nat}

/-- An overlay ends at this position. -/
def EndsEntryAt (t : SymbolTree) (p : Position) : Prop :=
  ∃ i s, t.get? i = some s ∧ s.kind = .entry ∧ s.extent.stop = p

/-- The ends of an extent are places of the text.  So none starts between the end of a line and a
column past it, and one that stops there stops at the end of the line. -/
theorem contains_past_end_iff {s : Symbol} (hs : s.WellPlaced (IsPlace text))
    (hline : (contentLines text)[n]? = some line) (hc : byteLength line < c) :
    s.extent.contains ⟨n, c⟩ = true ↔
      s.extent.contains ⟨n, byteLength line⟩ = true ∧ s.extent.stop ≠ ⟨n, byteLength line⟩ := by
  have hcol : ∀ {q : Position}, IsPlace text q → q.line = n → q.col ≤ byteLength line := by
    intro q hq hn
    obtain ⟨l, hl, hlength⟩ := hq
    rw [hn, hline] at hl
    cases hl
    exact hlength
  have hstart := hcol hs.start_real
  have hstop := hcol hs.stop_real
  generalize s.extent = extent at hstart hstop ⊢
  obtain ⟨start, ⟨stopLine, stopCol⟩⟩ := extent
  rw [Extent.contains_iff, Extent.contains_iff]
  simp only [Position.le_def, ne_eq, Position.mk.injEq] at hstart hstop ⊢
  omega

/-- A column past the end of a line is in the overlay that the end of the line is in, unless that
ends there. -/
theorem around_past_end_iff (ht : t.forest = parseChars text)
    (hline : (contentLines text)[n]? = some line) (hc : byteLength line < c) {e : SymbolId} :
    t.Around ⟨n, c⟩ e ↔
      t.Around ⟨n, byteLength line⟩ e ∧ ¬t.EndsEntryAt ⟨n, byteLength line⟩ := by
  have hplaced : ∀ {i : SymbolId} {s : Symbol}, t.get? i = some s →
      s.WellPlaced (IsPlace text) := by
    intro i s hs
    obtain ⟨hi, hlam⟩ := parseChars_laminar text
    exact (hlam.mem s (mem_parseChars hs ht)).2.2
  constructor
  · rintro ⟨s, hs, hkind, hin⟩
    obtain ⟨hin', hstop⟩ := (contains_past_end_iff (hplaced hs) hline hc).1 hin
    refine ⟨⟨s, hs, hkind, hin'⟩, ?_⟩
    rintro ⟨i, u, hu, hkind', hstop'⟩
    -- The overlay that ends there holds its end, so it is the one around.
    have hbefore := (hplaced hu).start_lt_stop
    rw [hstop'] at hbefore
    have haround : t.Around ⟨n, byteLength line⟩ i :=
      ⟨u, hu, hkind', Extent.contains_iff.2 ⟨le_of_lt hbefore, le_of_eq hstop'.symm⟩⟩
    have hsame := IsParsed.around_unique ⟨text, ht⟩ haround ⟨s, hs, hkind, hin'⟩
    rw [hsame, hs] at hu
    cases hu
    exact hstop hstop'
  · rintro ⟨⟨s, hs, hkind, hin⟩, hends⟩
    refine ⟨s, hs, hkind, (contains_past_end_iff (hplaced hs) hline hc).2 ⟨hin, ?_⟩⟩
    exact fun hstop => hends ⟨e, s, hs, hkind, hstop⟩

/-- No name of a block reaches to the end of its line, since a parenthesis follows it. -/
theorem inclusionAt?_past_end (ht : t.forest = parseChars text)
    (hline : (contentLines text)[n]? = some line) (hc : byteLength line ≤ c) :
    t.inclusionAt? ⟨n, c⟩ = none := by
  rw [Option.eq_none_iff_forall_ne_some]
  intro target hon
  obtain ⟨i, s, hs, -, htarget, hsline, -, hcol⟩ :=
    (IsParsed.inclusionAt?_eq_some_iff ⟨text, ht⟩).1 hon
  obtain ⟨left, right, hblock, hstart⟩ := exists_line_around_block (mem_parseChars hs ht) htarget
  rw [hsline, hline] at hblock
  cases hblock
  rw [hstart] at hcol
  simp only [byteLength_append, byteLength_cons] at hc hcol
  have hparen : 0 < ')'.utf8Size := Char.utf8Size_pos _
  omega

end SymbolTree

namespace Workspace

variable {σ : Type} [Source σ] {w : Workspace σ} {f : FileId} {x : String} {p q : Position}

/-- Two positions with the same token, overlay and inclusion come to the same. -/
theorem ReadsAs.resolve_congr (h : w.ReadsAs f x)
    (htoken : textTokenAt? x.toList p = textTokenAt? x.toList q)
    (hentry : (parse f x).entryAt? p = (parse f x).entryAt? q)
    (hblock : (parse f x).inclusionAt? p = (parse f x).inclusionAt? q) :
    answer (resolve f p) w = answer (resolve f q) w := by
  unfold resolve findBlockAt
  simp only [answer_bind, (h.token _).1, (h.token _).2, htoken]
  cases textTokenAt? x.toList q with
  | none => rfl
  | some name => simp only [answer_bind, h.tree, hentry, hblock]

/-- Outside of overlays and off the names of blocks nothing is found. -/
theorem ReadsAs.resolve_outside (h : w.ReadsAs f x) (hentry : (parse f x).entryAt? p = none)
    (hblock : (parse f x).inclusionAt? p = none) : answer (resolve f p) w = .notFound := by
  unfold resolve findBlockAt
  simp only [answer_bind, (h.token _).1, (h.token _).2]
  cases textTokenAt? x.toList p with
  | none => rfl
  | some name =>
      simp only [answer_bind, h.tree, hentry, hblock]
      rfl

end Workspace

open Workspace

/-- **A column past the end of a line counts as the end, except past the end of an overlay.**  Where
no overlay ends with the line, both come to the same.  Where one does, the column further on comes
to nothing, whatever the end of the line comes to. -/
theorem resolve_past_line_end_iff {σ : Type} [Source σ] {w : Workspace σ} {f : FileId} {x : String}
    (h : w.ReadsAs f x) {n c : Nat} {line : List Char}
    (hline : (contentLines x.toList)[n]? = some line) (hc : byteLength line ≤ c) :
    (answer (resolve f ⟨n, c⟩) w = answer (resolve f ⟨n, byteLength line⟩) w ↔
      c = byteLength line ∨ ¬(parse f x).EndsEntryAt ⟨n, byteLength line⟩ ∨
        answer (resolve f ⟨n, byteLength line⟩) w = .notFound) ∧
    (byteLength line < c → (parse f x).EndsEntryAt ⟨n, byteLength line⟩ →
      answer (resolve f ⟨n, c⟩) w = .notFound) := by
  have hparsed : (parse f x).IsParsed := ⟨x.toList, rfl⟩
  have hblock : ∀ c, byteLength line ≤ c → (parse f x).inclusionAt? ⟨n, c⟩ = none :=
    fun c hc => SymbolTree.inclusionAt?_past_end rfl hline hc
  have hnothing : byteLength line < c → (parse f x).EndsEntryAt ⟨n, byteLength line⟩ →
      answer (resolve f ⟨n, c⟩) w = .notFound := by
    intro hlt hends
    refine h.resolve_outside ?_ (hblock c hc)
    rw [Option.eq_none_iff_forall_ne_some]
    intro e he
    have haround := hparsed.entryAt?_eq_some_iff.1 he
    exact ((SymbolTree.around_past_end_iff rfl hline hlt).1 haround).2 hends
  have hsame : byteLength line < c → ¬(parse f x).EndsEntryAt ⟨n, byteLength line⟩ →
      answer (resolve f ⟨n, c⟩) w = answer (resolve f ⟨n, byteLength line⟩) w := by
    intro hlt hends
    refine h.resolve_congr (textTokenAt?_past_end hline hc) (Option.ext fun e => ?_) ?_
    · rw [hparsed.entryAt?_eq_some_iff, hparsed.entryAt?_eq_some_iff,
        SymbolTree.around_past_end_iff rfl hline hlt, and_iff_left hends]
    · rw [hblock c hc, hblock _ (Nat.le_refl _)]
  refine ⟨⟨fun heq => ?_, ?_⟩, hnothing⟩
  · rcases Nat.lt_or_ge (byteLength line) c with hlt | hge
    · by_cases hends : (parse f x).EndsEntryAt ⟨n, byteLength line⟩
      · exact Or.inr (Or.inr (heq ▸ hnothing hlt hends))
      · exact Or.inr (Or.inl hends)
    · exact Or.inl (Nat.le_antisymm hge hc)
  · intro hcases
    rcases Nat.lt_or_ge (byteLength line) c with hlt | hge
    · by_cases hends : (parse f x).EndsEntryAt ⟨n, byteLength line⟩
      · rcases hcases with heq | hnot | hnone
        · exact absurd heq (Nat.ne_of_gt hlt)
        · exact absurd hends hnot
        · rw [hnone, hnothing hlt hends]
      · exact hsame hlt hends
    · rw [Nat.le_antisymm hge hc]

/-- An overlay that uses its variable at the ends of two lines, of which the second is its last. -/
def usedLast : String :=
  "$ENTRY E\n$DATA\nA N5\n$PROG\nX = A\nY = A"

/-- The workspace over this overlay in which its file has a number. -/
def usedLastWorkspace : Workspace MemorySource :=
  after (fileId ⟨"E.rtm"⟩)
    (Workspace.ofSource (MemorySource.empty.insert ⟨"E.rtm"⟩ usedLast) .standard)

theorem readsAs_usedLastWorkspace : usedLastWorkspace.ReadsAs ⟨0⟩ usedLast :=
  ((Current.ofSource (MemorySource.calm _) .standard).after_fileId _).1.readsAs rfl

/-- What the look-ups at and past the ends of the two lines come to. -/
theorem lookups_usedLastWorkspace :
    (contentLines usedLast.toList)[4]? = some "X = A".toList ∧
      (contentLines usedLast.toList)[5]? = some "Y = A".toList ∧
      answer (goto ⟨0⟩ ⟨4, 5⟩) usedLastWorkspace =
        some ⟨⟨0⟩, 2, .var, "A", .onLine 2 0 4, .onLine 2 0 1⟩ ∧
      answer (goto ⟨0⟩ ⟨5, 5⟩) usedLastWorkspace =
        some ⟨⟨0⟩, 2, .var, "A", .onLine 2 0 4, .onLine 2 0 1⟩ ∧
      answer (goto ⟨0⟩ ⟨5, 6⟩) usedLastWorkspace = none ∧
      (parse ⟨0⟩ usedLast).symbols.all
        (fun s => !decide (s.kind = .entry ∧ s.extent.stop = ⟨4, 5⟩)) = true := by
  decide +kernel

/-- Past the end of the overlay's last line the variable is not found. -/
theorem past_last_line_is_lost :
    (contentLines usedLast.toList)[5]? = some "Y = A".toList ∧ byteLength "Y = A".toList = 5 ∧
      answer (resolve ⟨0⟩ ⟨5, 6⟩) usedLastWorkspace ≠
        answer (resolve ⟨0⟩ ⟨5, 5⟩) usedLastWorkspace := by
  obtain ⟨-, hline, -, hfound, hnone, -⟩ := lookups_usedLastWorkspace
  refine ⟨hline, by decide +kernel, fun heq => ?_⟩
  rw [answer_goto, heq, ← answer_goto, hfound] at hnone
  cases hnone

/-- Past the end of the line before it is. -/
theorem past_inner_line_is_found :
    usedLastWorkspace.ReadsAs ⟨0⟩ usedLast ∧
      (contentLines usedLast.toList)[4]? = some "X = A".toList ∧
      answer (resolve ⟨0⟩ ⟨4, 9⟩) usedLastWorkspace =
        answer (resolve ⟨0⟩ ⟨4, 5⟩) usedLastWorkspace ∧
      answer (goto ⟨0⟩ ⟨4, 5⟩) usedLastWorkspace =
        some ⟨⟨0⟩, 2, .var, "A", .onLine 2 0 4, .onLine 2 0 1⟩ := by
  obtain ⟨hline, -, hfound, -, -, hstops⟩ := lookups_usedLastWorkspace
  have hlength : byteLength "X = A".toList = 5 := by decide +kernel
  have hends : ¬(parse ⟨0⟩ usedLast).EndsEntryAt ⟨4, byteLength "X = A".toList⟩ := by
    rintro ⟨i, s, hs, hkind, hstop⟩
    rw [SymbolTree.get?_eq] at hs
    have hno := List.all_eq_true.1 hstops s (List.mem_of_getElem? hs)
    rw [hlength] at hstop
    simp [hkind, hstop] at hno
  have hsame := (resolve_past_line_end_iff readsAs_usedLastWorkspace (c := 9) hline (by omega)).1.2
    (Or.inr (Or.inl hends))
  rw [hlength] at hsame
  exact ⟨readsAs_usedLastWorkspace, hline, hsame, hfound⟩

end OverlayIndex
