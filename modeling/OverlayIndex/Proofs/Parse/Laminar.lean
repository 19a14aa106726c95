/-
Extents in a draft never cross.

A row is laminar between two positions when its symbols come one strictly after the other
between the two, and the row below each symbol is laminar inside that symbol's extent.  While
a text is read, the end of an open construct is not known yet, so the invariant on a draft
speaks about what is: the row collected in each frame lies after the frame's own start, the
row around a frame lies before it, and everything is over before a position `top`.

Frames close one by one and all at one position.  So the one thing to show of a closing is
that nothing collected so far reaches past that position, and it then takes the place of `top`.
Of an opening it has to be shown that it starts at `top` or later.
-/
import OverlayIndex.Proofs.Position
import OverlayIndex.Proofs.Parse.Moves
import OverlayIndex.Proofs.Parse.Scan
import OverlayIndex.Parse.Document

namespace OverlayIndex

/-- The extent is not empty, holds the selection, and both its ends are places of the text. -/
structure Symbol.WellPlaced (real : Position → Prop) (s : Symbol) : Prop where
  start_lt_stop : s.extent.start < s.extent.stop
  selection : s.extent.encloses s.selection = true
  start_real : real s.extent.start
  stop_real : real s.extent.stop

/-- Extending a symbol to a place of the text keeps it well placed. -/
theorem Symbol.WellPlaced.extendTo {real : Position → Prop} {s : Symbol} (h : s.WellPlaced real)
    {p : Position} (hp : real p) : (s.extendTo p).WellPlaced real := by
  have hle : s.extent.stop ≤ max s.extent.stop p := le_max_left _ _
  obtain ⟨hsel, hsel'⟩ := Extent.encloses_iff.1 h.selection
  refine ⟨lt_of_lt_of_le h.start_lt_stop hle, ?_, h.start_real, ?_⟩
  · exact Extent.encloses_iff.2 ⟨hsel, le_trans hsel' hle⟩
  · show real (max s.extent.stop p)
    rcases le_total s.extent.stop p with hmax | hmax
    · rw [max_eq_right hmax]; exact hp
    · rw [max_eq_left hmax]; exact h.stop_real

namespace Forest

/-- The symbols of the row start at `lo` or later and end before `hi`, each strictly after the one
before, and each holds the row below it. -/
def Laminar (real : Position → Prop) : Position → Position → Forest Symbol → Prop
  | _, _, nil => True
  | lo, hi, node s below beside =>
    lo ≤ s.extent.start ∧ s.extent.stop < hi ∧ s.WellPlaced real ∧
      below.Laminar real s.extent.start.next s.extent.stop.next ∧
      beside.Laminar real s.extent.stop.next hi

variable {real : Position → Prop}

theorem Laminar.mono {lo hi hi' : Position} (hle : hi ≤ hi') {f : Forest Symbol}
    (h : f.Laminar real lo hi) : f.Laminar real lo hi' := by
  induction f generalizing lo with
  | nil => trivial
  | node s below beside _ ih =>
      obtain ⟨hlo, hhi, hs, hbelow, hbeside⟩ := h
      exact ⟨hlo, lt_of_lt_of_le hhi hle, hs, hbelow, ih hbeside⟩

theorem Laminar.append {lo mid hi : Position} (hlo : lo ≤ mid) (hhi : mid ≤ hi)
    {f g : Forest Symbol} (hf : f.Laminar real lo mid) (hg : g.Laminar real mid hi) :
    (f ++ g).Laminar real lo hi := by
  induction f generalizing lo with
  | nil =>
      cases g with
      | nil => trivial
      | node s below beside =>
          obtain ⟨hmid, hrest⟩ := hg
          exact ⟨le_trans hlo hmid, hrest⟩
  | node s below beside _ ih =>
      obtain ⟨hstart, hstop, hs, hbelow, hbeside⟩ := hf
      refine ⟨hstart, lt_of_lt_of_le hstop hhi, hs, hbelow, ?_⟩
      exact ih (Position.next_le_iff.2 hstop) hbeside

theorem laminar_single {lo : Position} {s : Symbol} (hs : s.WellPlaced real)
    (hlo : lo ≤ s.extent.start) : (single s).Laminar real lo s.extent.stop.next :=
  ⟨hlo, Position.lt_next _, hs, trivial, trivial⟩

end Forest

namespace Draft

variable {real : Position → Prop}

/-- All that the frames and the roots hold is over before `top`, and in good order. -/
def Stacked (real : Position → Prop) (roots : Forest Symbol) : Position → List Frame → Prop
  | top, [] => roots.Laminar real Position.origin top
  | top, f :: frames =>
    f.symbol.WellPlaced real ∧ f.symbol.extent.stop < top ∧
      f.below.Laminar real f.symbol.extent.start.next top ∧
      Stacked real roots f.symbol.extent.start frames

/-- All that the draft holds is over before `top`, and in good order. -/
def Within (real : Position → Prop) (d : Draft) (top : Position) : Prop :=
  Stacked real d.roots top d.frames

theorem Stacked.mono {roots : Forest Symbol} {top top' : Position} {frames : List Frame}
    (h : Stacked real roots top frames) (hle : top ≤ top') : Stacked real roots top' frames := by
  cases frames with
  | nil => exact Forest.Laminar.mono hle h
  | cons f frames =>
      obtain ⟨hs, hstop, hbelow, hrest⟩ := h
      exact ⟨hs, lt_of_lt_of_le hstop hle, hbelow.mono hle, hrest⟩

theorem Within.mono {d : Draft} {top top' : Position} (h : d.Within real top)
    (hle : top ≤ top') : d.Within real top' :=
  Stacked.mono h hle

theorem within_empty (top : Position) : empty.Within real top :=
  trivial

/-- A frame needs room, so before the first position of a text there is none. -/
theorem frames_of_within_origin {d : Draft} (h : d.Within real Position.origin) :
    d.frames = [] := by
  rcases hd : d.frames with _ | ⟨f, frames⟩
  · rfl
  · rw [Within, hd] at h
    exact absurd h.2.1 (Position.not_lt_origin _)

/-! ### Moves -/

/-- A row that fits behind all that a draft holds may be hung into it. -/
theorem hang_within {d : Draft} {mid top : Position} (h : d.Within real mid) (hle : mid ≤ top)
    {done : Forest Symbol} (hdone : done.Laminar real mid top) :
    (d.hang done).Within real top := by
  obtain ⟨frames, roots⟩ := d
  cases frames with
  | nil => exact Forest.Laminar.append (Position.origin_le mid) hle h hdone
  | cons f frames =>
      obtain ⟨hs, hstop, hbelow, hrest⟩ := h
      have hmid : f.symbol.extent.start.next ≤ mid :=
        Position.next_le_iff.2 (lt_trans hs.start_lt_stop hstop)
      exact ⟨hs, lt_of_lt_of_le hstop hle, hbelow.append hmid hle hdone, hrest⟩

/-- The mark of the innermost frame ends at `stop` or before, so if the frame closes there, its
symbol ends at `stop` exactly. -/
theorem Stacked.stop_extendTo {roots : Forest Symbol} {stop : Position} {f : Frame}
    {frames : List Frame} (h : Stacked real roots stop.next (f :: frames)) :
    (f.symbol.extendTo stop).extent.stop = stop :=
  max_eq_right (Position.lt_next_iff.1 h.2.1)

/-- Closing a frame at a position that nothing reaches past leaves nothing that does. -/
theorem pop_within {stop : Position} (hreal : real stop) :
    ∀ d : Draft, d.Within real stop.next → (d.pop stop).Within real stop.next := by
  rintro ⟨frames, roots⟩ h
  cases frames with
  | nil => exact h
  | cons f frames =>
      have hmax := Stacked.stop_extendTo h
      obtain ⟨hs, hstop, hbelow, hrest⟩ := h
      have hclose : (f.close stop).Laminar real f.symbol.extent.start stop.next := by
        refine ⟨le_refl _, ?_, hs.extendTo hreal, ?_, trivial⟩
        · rw [hmax]
          exact Position.lt_next stop
        · rw [hmax]
          exact hbelow
      exact hang_within (d := ⟨frames, roots⟩) hrest
        (le_of_lt (lt_trans hs.start_lt_stop hstop)) hclose

theorem ClosesTo.within {d d' : Draft} {stop : Position} (hd : ClosesTo stop d d')
    (h : d.Within real stop.next) (hreal : real stop) : d'.Within real stop.next :=
  hd.preserves (pop_within hreal) h

/-- A closed construct that starts behind all others may be hung. -/
theorem hang_single_within {d : Draft} {lo : Position} (h : d.Within real lo) {s : Symbol}
    (hs : s.WellPlaced real) (hlo : lo ≤ s.extent.start) :
    (d.hang (.single s)).Within real s.extent.stop.next :=
  hang_within h (le_trans hlo (le_of_lt (lt_trans hs.start_lt_stop (Position.lt_next _))))
    (Forest.laminar_single hs hlo)

/-- A construct that starts behind all others may be added. -/
theorem add_within {d : Draft} {lo : Position} (h : d.Within real lo) {s : Symbol}
    (hs : s.WellPlaced real) (hlo : lo ≤ s.extent.start) (r : Rule) :
    (d.add r s).Within real s.extent.stop.next := by
  rcases d.add_cases r s with ⟨-, hadd⟩ | ⟨-, hadd⟩
  · exact hadd.within (hang_single_within h hs hlo) hs.stop_real
  · rw [hadd]
    exact ⟨hs, Position.lt_next _, trivial, Stacked.mono h hlo⟩

end Draft

/-! ### Reading a line -/

theorem beforeComment_prefix : ∀ line : List Char, beforeComment line <+: line := by
  intro line
  induction line with
  | nil => exact List.prefix_refl _
  | cons c cs ih =>
      rw [beforeComment]
      split
      · exact List.nil_prefix
      · exact List.cons_prefix_cons.2 ⟨rfl, ih⟩

theorem visible_prefix (line : List Char) : visible line <+: line := by
  rw [visible]
  split
  · exact List.nil_prefix
  · exact beforeComment_prefix line

theorem byteLength_visible_le (line : List Char) : byteLength (visible line) ≤ byteLength line := by
  obtain ⟨rest, hrest⟩ := visible_prefix line
  rw [← hrest, byteLength_append, hrest]
  omega

namespace LineContext

variable {real : Position → Prop}

/-- The columns of the line are places of the text, and so is the end of the line before, if
there is one. -/
structure Placed (real : Position → Prop) (ctx : LineContext) (length : Nat) : Prop where
  onLine : ∀ col ≤ length, real ⟨ctx.number, col⟩
  edge_real : 0 < ctx.number → real ctx.edge
  edge_line : 0 < ctx.number → ctx.edge.line < ctx.number

/-- What was read before the line is over before this position. -/
def base (ctx : LineContext) : Position :=
  if ctx.number = 0 then Position.origin else ctx.edge.next

/-- What was read before the cursor is over before this position. -/
def floor (ctx : LineContext) (c : Cursor) : Position :=
  if c.atStart then ctx.base else ⟨ctx.number, byteLength c.left + 1⟩

theorem base_le {ctx : LineContext} {length : Nat} (h : ctx.Placed real length) (col : Nat) :
    ctx.base ≤ ⟨ctx.number, col⟩ := by
  rw [base]
  by_cases hzero : ctx.number = 0
  · rw [if_pos hzero]
    exact Position.origin_le _
  · rw [if_neg hzero]
    exact Position.next_le_of_line_lt (h.edge_line (Nat.pos_of_ne_zero hzero))

theorem floor_le {ctx : LineContext} {length : Nat} (h : ctx.Placed real length) {c : Cursor}
    {col : Nat} (hcol : byteLength c.left < col) : ctx.floor c ≤ ⟨ctx.number, col⟩ := by
  rw [floor]
  split
  · exact base_le h col
  · exact Position.mk_le_mk.2 hcol

theorem floor_after {ctx : LineContext} {s : Span} (hs : s.text ≠ []) :
    ctx.floor s.after = (⟨ctx.number, s.stop⟩ : Position).next := by
  rw [floor, Span.atStart_after hs, Span.byteLength_after]
  rfl

/-- A mark that is found starts at the floor or later. -/
theorem floor_le_mark {ctx : LineContext} {length : Nat} (h : ctx.Placed real length) {c : Cursor}
    {m : Mark} (hm : m.Clear c) : ctx.floor c ≤ ⟨ctx.number, m.whole.start⟩ := by
  rcases hm with ⟨hc, -⟩ | hlt
  · rw [floor, if_pos (by simp [Cursor.atStart, hc])]
    exact base_le h _
  · exact floor_le h hlt

/-- The symbol of a mark on the line is well placed. -/
theorem symbol_wellPlaced {ctx : LineContext} {length : Nat} (h : ctx.Placed real length)
    {m : Mark} (hm : m.Framed) (hlen : m.whole.stop ≤ length) (r : Rule) :
    (ctx.symbol r m).WellPlaced real := by
  have hlt := Span.start_lt_stop hm.whole_nonempty
  refine ⟨Position.mk_lt_mk.2 hlt, ?_, h.onLine _ (by omega), h.onLine _ hlen⟩
  exact Extent.encloses_iff.2 ⟨Position.mk_le_mk.2 hm.start_le, Position.mk_le_mk.2 hm.stop_le⟩

/-- The symbol of a mark that is found is well placed, and starts at the floor or later. -/
theorem mark_placed {ctx : LineContext} {length : Nat} (h : ctx.Placed real length) {c : Cursor}
    (hlen : byteLength c.line ≤ length) {r : Rule} {m : Mark} (hfind : r.opening.find c = some m) :
    (ctx.symbol r m).WellPlaced real ∧ ctx.floor c ≤ (ctx.symbol r m).extent.start :=
  ⟨symbol_wellPlaced h (Opening.framed_find r.consumes_name hfind)
      (Nat.le_trans (Opening.ahead_find hfind).stop_le hlen) r,
    floor_le_mark h (Opening.clear_find hfind)⟩

/-- Frames close at a place of the text that nothing reaches past, and what is read from there on
starts behind it. -/
theorem close_within {ctx : LineContext} {length : Nat} (h : ctx.Placed real length)
    {d : Draft} {c : Cursor} (hlen : byteLength c.line ≤ length)
    (hd : d.Within real (ctx.floor c)) {k : Closing} (hk : d.closing? c = some k) :
    d.Within real (ctx.closePosition k).next ∧ real (ctx.closePosition k) ∧
      ctx.floor (if k.boundary then c else k.span.after) = (ctx.closePosition k).next := by
  obtain ⟨t, hfind, hb, hframes⟩ := Draft.closing?_terminator hk
  have hahead := Terminator.ahead_find hfind
  by_cases hboundary : k.boundary = true
  · -- A boundary stands in column zero; the line is not the first, since there are frames.
    obtain ⟨hc, hleft⟩ := Terminator.left_find_boundary (hb ▸ hboundary) hfind
    have hfloor : ctx.floor c = ctx.base := by
      rw [floor, if_pos (by simp [Cursor.atStart, hc])]
    have hnum : ctx.number ≠ 0 := by
      intro hzero
      rw [hfloor, base, if_pos hzero] at hd
      exact hframes (Draft.frames_of_within_origin hd)
    have hpos : ctx.closePosition k = ctx.edge := by
      simp [closePosition, hboundary, Span.start, hleft]
    have hbase : ctx.base = ctx.edge.next := if_neg hnum
    rw [hfloor, hbase] at hd
    rw [hpos, if_pos hboundary, hfloor, hbase]
    exact ⟨hd, h.edge_real (Nat.pos_of_ne_zero hnum), rfl⟩
  · have hne := Terminator.text_ne_nil_find hfind
    have hpos : ctx.closePosition k = ⟨ctx.number, k.span.stop⟩ := by
      simp [closePosition, hboundary]
    rw [hpos, if_neg hboundary, floor_after hne]
    refine ⟨hd.mono (floor_le h ?_), h.onLine _ (Nat.le_trans hahead.stop_le hlen), rfl⟩
    have hge := hahead.start_ge
    have hlt := Span.start_lt_stop hne
    exact Nat.lt_succ_of_lt (Nat.lt_of_le_of_lt hge hlt)

/-- One event keeps the draft in order. -/
theorem step_within {ctx : LineContext} {length : Nat} (h : ctx.Placed real length)
    {d : Draft} {c : Cursor} (hlen : byteLength c.line ≤ length)
    (hd : d.Within real (ctx.floor c)) {x : Draft × Cursor} (hx : ctx.step? d c = some x) :
    byteLength x.2.line ≤ length ∧ x.1.Within real (ctx.floor x.2) := by
  rcases step?_cases hx with ⟨k, hk, rfl⟩ | ⟨r, m, he, rfl⟩
  · obtain ⟨hwithin, hreal, hfloor⟩ := close_within h hlen hd hk
    refine ⟨?_, ?_⟩
    · obtain ⟨t, hfind, -, -⟩ := Draft.closing?_terminator hk
      simp only
      split
      · exact hlen
      · exact (Terminator.ahead_find hfind).line_after.symm ▸ hlen
    · simp only [hfloor]
      exact (d.close_closesTo _ _).within hwithin hreal
  · have hfind := (Draft.opening?_spec (Draft.next?_add he)).2
    have hframed := Opening.framed_find r.consumes_name hfind
    obtain ⟨hplaced, hfloor⟩ := mark_placed h hlen hfind
    simp only [floor_after hframed.whole_nonempty]
    exact ⟨(Opening.ahead_find hfind).line_after.symm ▸ hlen,
      Draft.add_within hd hplaced hfloor r⟩

/-- Reading a line keeps the draft in order, and what it adds ends on the line. -/
theorem scan_within {ctx : LineContext} {line : List Char}
    (h : ctx.Placed real (byteLength line)) {d : Draft} (hd : d.Within real ctx.base) :
    (ctx.scan d (.ofLine (visible line))).Within real
      (⟨ctx.number, byteLength line⟩ : Position).next := by
  obtain ⟨c, ⟨hlen, hwithin⟩, -⟩ := ctx.scan_preserves
    (Q := fun d c => byteLength c.line ≤ byteLength line ∧ d.Within real (ctx.floor c))
    (fun d c x hQ hx => step_within h hQ.1 hQ.2 hx) d (.ofLine (visible line))
    ⟨byteLength_visible_le line, hd⟩
  refine hwithin.mono (floor_le h ?_)
  show byteLength c.left < byteLength line + 1
  simp only [Cursor.line, byteLength_append, byteLength_reverse] at hlen
  omega

end LineContext

/-! ### Reading a text -/

namespace Draft

variable {real : Position → Prop}

theorem breakLine_of_frames_nil {d : Draft} (h : d.frames = []) (stop : Position) :
    d.breakLine stop = d := by
  obtain ⟨frames, roots⟩ := d
  subst h
  simp [breakLine, settle]

/-- Closing the frames that end with their line keeps the draft in order. -/
theorem breakLine_within_base {ctx : LineContext} {length : Nat} (h : ctx.Placed real length)
    {d : Draft} (hd : d.Within real ctx.base) :
    (d.breakLine ctx.edge).Within real ctx.base := by
  by_cases hzero : ctx.number = 0
  · have hbase : ctx.base = Position.origin := if_pos hzero
    rw [breakLine_of_frames_nil (frames_of_within_origin (hbase ▸ hd))]
    exact hd
  · have hbase : ctx.base = ctx.edge.next := if_neg hzero
    rw [hbase] at hd ⊢
    exact (d.breakLine_closesTo _).within hd (h.edge_real (Nat.pos_of_ne_zero hzero))

/-- What reading lines leaves is over before the end of the last one. -/
theorem readLines_within :
    ∀ (lines : List (List Char)) (d : Draft) (number : Nat) (edge : Position),
      (∀ i line, lines[i]? = some line → ∀ col ≤ byteLength line, real ⟨number + i, col⟩) →
      (0 < number → real edge ∧ edge.line < number) →
      d.Within real (LineContext.base ⟨number, edge⟩) →
      (d.readLines number edge lines).1.Within real
        (LineContext.base ⟨number + lines.length, (d.readLines number edge lines).2⟩) ∧
      (0 < number + lines.length → real (d.readLines number edge lines).2) := by
  intro lines
  induction lines with
  | nil =>
      intro d number edge _ hedge hd
      exact ⟨hd, fun hpos => (hedge hpos).1⟩
  | cons line lines ih =>
      intro d number edge hlines hedge hd
      have hline := hlines 0 line rfl
      have hctx : LineContext.Placed real ⟨number, edge⟩ (byteLength line) :=
        ⟨hline, fun hpos => (hedge hpos).1, fun hpos => (hedge hpos).2⟩
      have hscan := LineContext.scan_within hctx (breakLine_within_base hctx hd)
      have hrest := ih _ (number + 1) ⟨number, byteLength line⟩
        (fun i l hl col hcol => by
          have := hlines (i + 1) l (by simpa using hl) col hcol
          rwa [show number + (i + 1) = number + 1 + i by omega] at this)
        (fun _ => ⟨hline _ (Nat.le_refl _), Nat.lt_succ_self _⟩) hscan
      rw [readLines, List.length_cons, show number + (lines.length + 1) = number + 1 + lines.length by
        omega]
      exact hrest

end Draft

/-- The position is a place of the text: its line exists and its column is at most the length of
the line's content. -/
def IsPlace (text : List Char) (p : Position) : Prop :=
  ∃ line, (contentLines text)[p.line]? = some line ∧ p.col ≤ byteLength line

/-- **The forest of a text is laminar.** -/
theorem parseChars_laminar (text : List Char) :
    ∃ hi, (parseChars text).Laminar (IsPlace text) Position.origin hi := by
  have hplaces : ∀ i line, (contentLines text)[i]? = some line → ∀ col ≤ byteLength line,
      IsPlace text ⟨0 + i, col⟩ :=
    fun i line hline col hcol => ⟨line, by simpa using hline, hcol⟩
  have hread := Draft.readLines_within (contentLines text) .empty 0 ⟨0, 0⟩ hplaces
    (fun hpos => absurd hpos (Nat.lt_irrefl 0)) (Draft.within_empty _)
  have hpos : 0 < 0 + (contentLines text).length := by
    have := List.length_pos_iff.2 (splitOn_ne_nil '\n' text)
    simpa [contentLines, splitLines] using this
  have hbase : LineContext.base ⟨0 + (contentLines text).length,
      (Draft.empty.readLines 0 ⟨0, 0⟩ (contentLines text)).2⟩
      = (Draft.empty.readLines 0 ⟨0, 0⟩ (contentLines text)).2.next :=
    if_neg (Nat.pos_iff_ne_zero.1 hpos)
  rw [hbase] at hread
  exact ⟨_, (Draft.finish_closesTo _ _).within hread.1 (hread.2 hpos)⟩

end OverlayIndex
