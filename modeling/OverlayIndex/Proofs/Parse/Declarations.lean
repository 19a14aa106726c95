/-
No declaration is lost or invented.

Overlays, blocks and data areas hold declarations, and each declaration begins a line of its own.
A line inside such a construct declares something if its beginning is the mark of a construct that
may stand there and no earlier declaration reaches over the line; it then declares the first such
construct in the list of the rule.

Whether a line declares something is settled when the reader leaves its column zero.  An open
declaration reaches at least to where the reader is, so in the frames around the innermost one
the line is taken.  In the innermost frame all declarations are over, and what opens there is the
first mark in the list that begins the line.  `Settles` says this of the first lines of a
construct and a row of symbols in it, where the last one may still be open.
-/
import OverlayIndex.Proofs.Parse.Extents
import OverlayIndex.Proofs.Parse.Roots

namespace OverlayIndex

/-! ### What a line declares -/

namespace Rule

/-- The mark of the construct begins the line. -/
def begins (line : List Char) (r : Rule) : Bool :=
  (r.opening.readAt (.ofLine (visible line))).isSome

/-- The construct holds declarations. -/
def isBlock : Rule → Bool
  | entry | name | dataArea => true
  | _ => false

theorem lineStart_of_isBlock {r r' : Rule} (h : r.isBlock = true) (hr : r' ∈ r.children) :
    r'.opening.place = .lineStart := by
  cases r <;> simp only [isBlock, Bool.false_eq_true] at h <;>
    simp only [children, List.mem_cons, List.not_mem_nil, or_false] at hr
  · rcases hr with rfl | rfl | rfl | rfl | rfl <;> rfl
  · rcases hr with rfl | rfl <;> rfl
  · rcases hr with rfl
    rfl

theorem isBoundary_of_isBlock {r : Rule} (h : r.isBlock = true) {t : Terminator}
    (ht : t ∈ r.terminators) : t.isBoundary = true := by
  cases r <;> simp_all [isBlock, terminators, Terminator.isBoundary]

theorem isLeaf_of_isBlock {r : Rule} (h : r.isBlock = true) : r.isLeaf = false := by
  cases r <;> simp_all [isBlock, isLeaf, children]

end Rule

/-- The first mark in the list that begins the line is that of the first construct that does. -/
theorem map_firstMark? (rs : List Rule) (line : List Char) :
    (firstMark? rs line).map (·.1) = rs.find? (·.begins line) := by
  induction rs with
  | nil => rfl
  | cons r rs ih =>
      rw [firstMark?, List.findSome?_cons, List.find?_cons, Rule.begins]
      cases r.opening.readAt (.ofLine (visible line)) with
      | none => exact ih
      | some m => rfl

/-- Of this row in a construct of rule `r`, a symbol starts with line `l` if and only if no earlier
one reaches over the line and the line begins with a mark, and it is of the first rule with such a
mark. -/
def Accounts (lines : List (List Char)) (r : Rule) (row : List Symbol) (l : Nat) : Prop :=
  ∀ line, lines[l]? = some line → ∀ r',
    (∃ u ∈ row, u.extent.start = ⟨l, 0⟩ ∧ u.rule = r') ↔
      (¬ ∃ u ∈ row, u.extent.start.line < l ∧ l ≤ u.extent.stop.line) ∧
        r.children.find? (·.begins line) = some r'

/-- The lines after `first` and before `next` account for the row, and every symbol of the row
begins a line after `first`. -/
structure Settles (lines : List (List Char)) (r : Rule) (first next : Nat) (row : List Symbol) :
    Prop where
  accounts : ∀ l, first < l → l < next → Accounts lines r row l
  starts : ∀ u ∈ row, u.extent.start.col = 0 ∧ first < u.extent.start.line

namespace Settles

variable {lines : List (List Char)} {r : Rule} {first n : Nat} {row : List Symbol}

/-- One more line is settled on which nothing starts, because something reaches over it or it begins
with no mark. -/
theorem quiet (h : Settles lines r first n row) (hearly : ∀ u ∈ row, u.extent.start.line < n)
    (hquiet : (∃ u ∈ row, n ≤ u.extent.stop.line) ∨
      ∀ line, lines[n]? = some line → r.children.find? (·.begins line) = none) :
    Settles lines r first (n + 1) row := by
  refine ⟨fun l hfirst hl => ?_, h.starts⟩
  rcases Nat.lt_or_eq_of_le (Nat.le_of_lt_succ hl) with hlt | rfl
  · exact h.accounts l hfirst hlt
  · intro line hline r'
    constructor
    · rintro ⟨u, hu, hstart, -⟩
      have hlt := hearly u hu
      rw [hstart] at hlt
      exact absurd hlt (Nat.lt_irrefl l)
    · rintro ⟨hfree, hfind⟩
      rcases hquiet with ⟨u, hu, hreach⟩ | hnone
      · exact absurd ⟨u, hu, hearly u hu, hreach⟩ hfree
      · rw [hnone line hline] at hfind
        cases hfind

/-- A symbol that starts on a later line does not count. -/
theorem accounts_append {l : Nat} {s : Symbol} (hs : l < s.extent.start.line)
    (h : Accounts lines r row l) : Accounts lines r (row ++ [s]) l := by
  intro line hline r'
  have hleft : (∃ u ∈ row ++ [s], u.extent.start = ⟨l, 0⟩ ∧ u.rule = r') ↔
      ∃ u ∈ row, u.extent.start = ⟨l, 0⟩ ∧ u.rule = r' := by
    constructor
    · rintro ⟨u, hu, hstart, hrule⟩
      rcases List.mem_append.1 hu with hu | hu
      · exact ⟨u, hu, hstart, hrule⟩
      · rw [List.mem_singleton.1 hu] at hstart
        rw [hstart] at hs
        exact absurd hs (Nat.lt_irrefl l)
    · rintro ⟨u, hu, hrest⟩
      exact ⟨u, List.mem_append_left _ hu, hrest⟩
  have hright : (∃ u ∈ row ++ [s], u.extent.start.line < l ∧ l ≤ u.extent.stop.line) ↔
      ∃ u ∈ row, u.extent.start.line < l ∧ l ≤ u.extent.stop.line := by
    constructor
    · rintro ⟨u, hu, hlt, hle⟩
      rcases List.mem_append.1 hu with hu | hu
      · exact ⟨u, hu, hlt, hle⟩
      · rw [List.mem_singleton.1 hu] at hlt
        exact absurd hlt (Nat.not_lt_of_gt hs)
    · rintro ⟨u, hu, hrest⟩
      exact ⟨u, List.mem_append_left _ hu, hrest⟩
  rw [hleft, hright]
  exact h line hline r'

/-- One more line is settled on which a symbol starts. -/
theorem declare (h : Settles lines r first n row) (hfirst : first < n)
    (hover : ∀ u ∈ row, u.extent.start.line < n ∧ u.extent.stop.line < n) {s : Symbol}
    (hs : s.extent.start = ⟨n, 0⟩)
    (hfind : ∀ line, lines[n]? = some line → r.children.find? (·.begins line) = some s.rule) :
    Settles lines r first (n + 1) (row ++ [s]) := by
  have hsline : s.extent.start.line = n := congrArg Position.line hs
  refine ⟨fun l hl hl' => ?_, fun u hu => ?_⟩
  · rcases Nat.lt_or_eq_of_le (Nat.le_of_lt_succ hl') with hlt | rfl
    · exact accounts_append (hsline ▸ hlt) (h.accounts l hl hlt)
    · intro line hline r'
      rw [hfind line hline, Option.some.injEq]
      constructor
      · rintro ⟨u, hu, hstart, hrule⟩
        rcases List.mem_append.1 hu with hu | hu
        · have hlt := (hover u hu).1
          rw [hstart] at hlt
          exact absurd hlt (Nat.lt_irrefl l)
        · rw [List.mem_singleton.1 hu] at hrule
          refine ⟨?_, hrule⟩
          rintro ⟨v, hv, hlt, hle⟩
          rcases List.mem_append.1 hv with hv | hv
          · exact absurd (hover v hv).2 (Nat.not_lt_of_le hle)
          · rw [List.mem_singleton.1 hv, hsline] at hlt
            exact absurd hlt (Nat.lt_irrefl l)
      · rintro ⟨-, hrule⟩
        exact ⟨s, by simp, hs, hrule⟩
  · rcases List.mem_append.1 hu with hu | hu
    · exact h.starts u hu
    · rw [List.mem_singleton.1 hu, hs]
      exact ⟨rfl, hfirst⟩

end Settles

/-! ### Drafts -/

/-- The symbols directly inside a frame: the closed ones, and the one that is open, if any, as it
would be if it ended at `p`. -/
def Frame.row (f : Frame) (inner : Option Symbol) (p : Position) : List Symbol :=
  f.below.heads ++ (inner.map (·.extendTo p)).toList

@[simp] theorem Frame.row_none (f : Frame) (p : Position) : f.row none p = f.below.heads := by
  simp [row]

@[simp] theorem Frame.row_some (f : Frame) (s : Symbol) (p : Position) :
    f.row (some s) p = f.below.heads ++ [s.extendTo p] := rfl

/-- The lines before `next` account for what is directly inside the frame. -/
def Frame.Settled (lines : List (List Char)) (next : Nat) (inner : Option Symbol) (f : Frame) :
    Prop :=
  f.rule.isBlock = true → ∀ p : Position, next ≤ p.line + 1 →
    Settles lines f.rule f.symbol.extent.start.line next (f.row inner p)

/-- The lines inside the symbol account for the row below it. -/
def Symbol.Declares (lines : List (List Char)) (_outer : List Rule) (s : Symbol)
    (below : Forest Symbol) : Prop :=
  s.rule.isBlock = true →
    Settles lines s.rule s.extent.start.line (s.extent.stop.line + 1) below.heads

namespace Draft

variable {lines : List (List Char)} {stop : Position} {d : Draft}

/-- The lines before `next` account for what is directly inside each frame; `inner` is open inside
the first one. -/
def Settled (lines : List (List Char)) (next : Nat) : Option Symbol → List Frame → Prop
  | _, [] => True
  | inner, f :: frames => f.Settled lines next inner ∧ Settled lines next (some f.symbol) frames

/-- The frames of the draft may close at `stop`: up to that line, all is settled. -/
structure Settling (lines : List (List Char)) (stop : Position) (d : Draft) : Prop where
  chained : Chained d.frames
  within : d.Within (OnLines lines) stop.next
  settled : Settled lines (stop.line + 1) none d.frames
  kept : Kept (Symbol.Declares lines) d.roots d.frames

theorem pop_settling (hreal : OnLines lines stop) :
    ∀ d : Draft, d.Settling lines stop → (d.pop stop).Settling lines stop := by
  rintro ⟨frames, roots⟩ h
  cases frames with
  | nil => exact h
  | cons f frames =>
      obtain ⟨hrule, -, -, hrest⟩ := h.chained
      obtain ⟨hf, houter⟩ := h.settled
      refine ⟨chained_hang (d := ⟨frames, roots⟩) hrest _, pop_within hreal _ h.within, ?_, ?_⟩
      · cases frames with
        | nil => trivial
        | cons g frames =>
            refine ⟨fun hblock p _ => ?_, houter.2⟩
            have hrow : (g.add (f.close stop)).row none p = g.row (some f.symbol) stop := by
              simp [Frame.add, Frame.close, Forest.heads]
            rw [hrow]
            exact houter.1 hblock stop (Nat.le_refl _)
      · refine pop_kept h.kept fun g rest hg => ?_
        obtain ⟨rfl, rfl⟩ := List.cons.inj hg
        refine ⟨hrule, fun hblock => ?_⟩
        rw [Symbol.rule_extendTo, hrule] at hblock ⊢
        have hrow := hf hblock stop (Nat.le_refl _)
        rw [Frame.row_none] at hrow
        rw [Stacked.stop_extendTo h.within]
        exact hrow

theorem ClosesTo.settling {d' : Draft} (hd : ClosesTo stop d d') (hreal : OnLines lines stop)
    (h : d.Settling lines stop) : d'.Settling lines stop :=
  hd.preserves (pop_settling hreal) h

/-- What is open reaches over the line, so the frames around it are settled. -/
theorem Settled.raise {real : Position → Prop} {roots : Forest Symbol} {n : Nat} :
    ∀ {frames : List Frame} {g : Symbol}, Stacked real roots g.extent.start frames →
      g.extent.start.line < n → Settled lines n (some g) frames →
      Settled lines (n + 1) (some g) frames := by
  intro frames
  induction frames with
  | nil => intro g _ _ _; trivial
  | cons f frames ih =>
      intro g hstacked hg h
      obtain ⟨hf, hstop, hbelow, hrest⟩ := hstacked
      have hstart := Position.line_le (le_of_lt (lt_trans hf.start_lt_stop hstop))
      refine ⟨fun hblock p hp => ?_, ih hrest (Nat.lt_of_le_of_lt hstart hg) h.2⟩
      refine (h.1 hblock p (by omega)).quiet ?_ (Or.inl ⟨g.extendTo p, ?_, ?_⟩)
      · intro u hu
        rw [Frame.row_some, List.mem_append, List.mem_singleton] at hu
        rcases hu with hu | rfl
        · obtain ⟨-, hlt, hu⟩ := hbelow.mem u ((Forest.heads_sublist _).subset hu)
          exact Nat.lt_of_le_of_lt
            (Position.line_le (le_of_lt (lt_trans hu.start_lt_stop hlt))) hg
        · exact hg
      · simp
      · have hle : p.line ≤ (g.extendTo p).extent.stop.line :=
          Position.line_le (le_max_right _ _)
        omega

end Draft

/-! ### Every state -/

namespace Reached

variable {lines : List (List Char)} {n : Nat} {d : Draft} {c : Cursor} {f : Frame}
  {frames : List Frame}

/-- In column zero, the innermost frame started on an earlier line, and what is closed in it is over
there. -/
theorem lines_of_left_nil (h : Reached lines n d c) (hleft : c.left = [])
    (hf : d.frames = f :: frames) :
    f.symbol.extent.start.line < n ∧
      ∀ u ∈ f.below.heads, u.extent.start.line < n ∧ u.extent.stop.line < n := by
  have hwithin := h.within_base hleft
  rw [Draft.Within, hf] at hwithin
  obtain ⟨-, -, hbelow, -⟩ := hwithin
  refine ⟨h.start_line_lt hleft hf, fun u hu => ?_⟩
  obtain ⟨-, hlt, hu⟩ := hbelow.mem u ((Forest.heads_sublist _).subset hu)
  exact ⟨line_lt_of_lt_base (lt_trans hu.start_lt_stop hlt), line_lt_of_lt_base hlt⟩

/-- Behind column zero, the frames around the innermost one are settled. -/
theorem outer_settled (h : Reached lines n d c)
    (hset : Draft.Settled lines (linesBegun n c) none d.frames) (hf : d.frames = f :: frames) :
    Draft.Settled lines (n + 1) (some f.symbol) frames := by
  rw [hf] at hset
  by_cases hleft : c.left = []
  · rw [linesBegun_of_nil hleft] at hset
    have hwithin := h.within
    rw [Draft.Within, hf] at hwithin
    exact hset.2.raise hwithin.2.2.2 (h.lines_of_left_nil hleft hf).1
  · rw [linesBegun_of_ne hleft] at hset
    exact hset.2

/-- A line that begins with no mark is settled. -/
theorem top_settled (h : Reached lines n d c)
    (hset : Draft.Settled lines (linesBegun n c) none d.frames) (hf : d.frames = f :: frames)
    (hnone : d.opening? c = none) : f.Settled lines (n + 1) none := by
  intro hblock p hp
  rw [hf] at hset
  by_cases hleft : c.left = []
  · rw [linesBegun_of_nil hleft] at hset
    have hrow := hset.1 hblock p (by omega)
    rw [Frame.row_none] at hrow ⊢
    refine hrow.quiet (fun u hu => ((h.lines_of_left_nil hleft hf).2 u hu).1) (Or.inr ?_)
    intro line hline
    obtain ⟨line', hline', hc⟩ := h.exists_line
    rw [hline] at hline'
    cases hline'
    have hperm : d.permitted = f.rule.children := by rw [Draft.permitted, hf]
    rw [Cursor.eq_ofLine hleft, hc, Draft.opening?_of_lineStart
      (fun r hr => Rule.lineStart_of_isBlock hblock (hperm ▸ hr)), hperm] at hnone
    rw [← map_firstMark?, hnone]
    rfl
  · rw [linesBegun_of_ne hleft] at hset
    exact hset.1 hblock p hp

/-- A line that begins with a mark is settled by the first construct in the list that it may be. -/
theorem top_declares (h : Reached lines n d c)
    (hset : Draft.Settled lines (linesBegun n c) none d.frames) (hf : d.frames = f :: frames)
    {r : Rule} {m : Mark} (hopening : d.opening? c = some (r, m)) (hblock : f.rule.isBlock = true)
    {s : Symbol} (hs : s.extent.start = ((contextOf lines n).symbol r m).extent.start)
    (hrule : s.rule = r) :
    Settles lines f.rule f.symbol.extent.start.line (n + 1) (f.below.heads ++ [s]) := by
  have hperm : d.permitted = f.rule.children := by rw [Draft.permitted, hf]
  have hplaces : ∀ r ∈ d.permitted, r.opening.place = .lineStart :=
    fun r hr => Rule.lineStart_of_isBlock hblock (hperm ▸ hr)
  have hleft := Draft.left_of_opening? hplaces hopening
  obtain ⟨line, hline, hc⟩ := h.exists_line
  rw [Cursor.eq_ofLine hleft, hc, Draft.opening?_of_lineStart hplaces, hperm] at hopening
  rw [hf, linesBegun_of_nil hleft] at hset
  have hrow := hset.1 hblock ⟨n, 0⟩ (Nat.le_succ n)
  rw [Frame.row_none] at hrow
  obtain ⟨hstart, hover⟩ := h.lines_of_left_nil hleft hf
  refine hrow.declare hstart hover ?_ ?_
  · have hzero := Opening.start_readAt_ofLine (firstMark?_spec hopening).2
    rw [hs, LineContext.symbol, Span.extent, Extent.onLine, hzero]
    rfl
  · intro line' hline'
    rw [hline] at hline'
    cases hline'
    rw [← map_firstMark?, hopening, hrule]
    rfl

/-- What has just opened holds nothing, and there is no line in it yet. -/
theorem settled_new (lines : List (List Char)) (n : Nat) (r : Rule) (m : Mark) :
    Frame.Settled lines (n + 1) none ⟨r, (contextOf lines n).symbol r m, .nil⟩ := by
  intro _ p _
  refine ⟨fun l hl hl' => ?_, fun u hu => by simp [Forest.heads] at hu⟩
  have hstart : ((contextOf lines n).symbol r m).extent.start.line = n := rfl
  simp only [hstart] at hl
  omega

/-- A boundary closes frames at the end of the line before. -/
theorem closePosition_of_boundary (h : Reached lines n d c) {k : Closing}
    (hboundary : k.boundary = true) (hleft : c.left = []) (hspan : k.span.left = [])
    (hf : d.frames = f :: frames) : ((contextOf lines n).closePosition k).line + 1 = n := by
  have hposition : (contextOf lines n).closePosition k = edgeBefore lines n := by
    simp [LineContext.closePosition, hboundary, Span.start, hspan, contextOf]
  have hlt := (h.lines_of_left_nil hleft hf).1
  rw [hposition]
  cases n with
  | zero => exact absurd hlt (Nat.not_lt_zero _)
  | succ n => rfl

/-- Where the reader closes frames, all is settled. -/
theorem close_settling (h : Reached lines n d c)
    (hset : Draft.Settled lines (linesBegun n c) none d.frames)
    (hkept : Draft.Kept (Symbol.Declares lines) d.roots d.frames) {k : Closing}
    (hk : d.closing? c = some k) :
    d.Settling lines ((contextOf lines n).closePosition k) ∧
      ((contextOf lines n).closePosition k).line + 1 =
        linesBegun n (if k.boundary then c else k.span.after) := by
  obtain ⟨i, g, t, hg, ht, hb, hfind, -, hkb⟩ := Draft.mem_closingsFrom.1 (mem_of_earliest hk)
  obtain ⟨f, frames, hf⟩ := List.exists_cons_of_ne_nil (Draft.closing?_terminator hk).choose_spec.2.2
  suffices hline : Draft.Settled lines (((contextOf lines n).closePosition k).line + 1) none
      d.frames ∧ ((contextOf lines n).closePosition k).line + 1 =
        linesBegun n (if k.boundary then c else k.span.after) from
    ⟨⟨h.lawful.chained, (h.close_within hk).1, hline.1, hkept⟩, hline.2⟩
  by_cases hboundary : k.boundary = true
  · -- The line before is over, and the line itself has not been looked at.
    obtain ⟨hleft, hspan⟩ := Terminator.left_find_boundary (hkb ▸ hboundary) hfind
    rw [linesBegun_of_nil hleft] at hset
    rw [h.closePosition_of_boundary hboundary hleft hspan hf, if_pos hboundary,
      linesBegun_of_nil hleft]
    exact ⟨hset, rfl⟩
  · -- The construct that ends on the line is the innermost one, and it holds no declarations.
    have hafter := Span.left_after_ne_nil (Terminator.text_ne_nil_find hfind)
    have hpos : (contextOf lines n).closePosition k = ⟨n, k.span.stop⟩ := by
      simp [LineContext.closePosition, hboundary, contextOf]
    rw [hpos, if_neg hboundary, linesBegun_of_ne hafter]
    refine ⟨?_, rfl⟩
    rw [hf]
    refine ⟨fun hblock => ?_, h.outer_settled hset hf⟩
    rw [hkb] at hboundary
    obtain rfl : i = 0 := by
      have hzero := hb.resolve_right hboundary
      omega
    rw [hf] at hg
    cases hg
    exact absurd (Rule.isBoundary_of_isBlock hblock ht) hboundary

/-- Where a line ends, all is settled. -/
theorem edge_settling (h : Reached lines n d c)
    (hset : Draft.Settled lines (linesBegun n c) none d.frames)
    (hkept : Draft.Kept (Symbol.Declares lines) d.roots d.frames) (hnone : d.opening? c = none) :
    d.Settling lines (edgeBefore lines (n + 1)) := by
  refine ⟨h.lawful.chained, h.within_edge.1, ?_, hkept⟩
  show Draft.Settled lines (n + 1) none d.frames
  cases hf : d.frames with
  | nil => trivial
  | cons f frames => exact ⟨h.top_settled hset hf hnone, h.outer_settled hset hf⟩

/-- A construct that is over as soon as it is read settles its line. -/
theorem leaf_settling (h : Reached lines n d c)
    (hset : Draft.Settled lines (linesBegun n c) none d.frames)
    (hkept : Draft.Kept (Symbol.Declares lines) d.roots d.frames) {r : Rule} {m : Mark}
    (hopening : d.opening? c = some (r, m)) (hleaf : r.isLeaf = true) :
    (d.hang (.single ((contextOf lines n).symbol r m))).Settling lines
      ((contextOf lines n).symbol r m).extent.stop := by
  have hfind := (Draft.opening?_spec hopening).2
  have hrule : ((contextOf lines n).symbol r m).rule = r := LineContext.rule_symbol hfind
  obtain ⟨hplaced, hfloor⟩ := h.mark_placed hfind
  refine ⟨Draft.chained_hang h.lawful.chained _, Draft.hang_single_within h.within hplaced hfloor,
    ?_, Draft.hang_kept hkept ⟨fun hblock => ?_, trivial, trivial⟩⟩
  · show Draft.Settled lines (n + 1) none _
    cases hf : d.frames with
    | nil =>
        rw [Draft.hang, hf]
        trivial
    | cons f frames =>
        have houter := h.outer_settled hset hf
        rw [Draft.hang, hf]
        refine ⟨fun hblock p _ => ?_, houter⟩
        rw [Frame.row_none, Frame.add, Forest.heads_append]
        exact h.top_declares hset hf hopening hblock rfl hrule
  · rw [hrule] at hblock
    rw [Rule.isLeaf_of_isBlock hblock] at hleaf
    cases hleaf

/-- In every state, the lines that have been looked at in column zero are settled. -/
theorem settled (h : Reached lines n d c) :
    Draft.Settled lines (linesBegun n c) none d.frames ∧
      Draft.Kept (Symbol.Declares lines) d.roots d.frames := by
  induction h with
  | first => exact ⟨trivial, trivial⟩
  | @event n d c x h hx ih =>
      obtain ⟨hset, hkept⟩ := ih
      rcases LineContext.step?_cases hx with ⟨k, hk, rfl⟩ | ⟨r, m, he, rfl⟩
      · obtain ⟨hsettling, hline⟩ := h.close_settling hset hkept hk
        have hclosed := (d.close_closesTo k.count _).settling (h.close_within hk).2 hsettling
        refine ⟨?_, hclosed.kept⟩
        have hsettled := hclosed.settled
        rwa [hline] at hsettled
      · have hopening := Draft.next?_add he
        have hfind := (Draft.opening?_spec hopening).2
        have hrule : ((contextOf lines n).symbol r m).rule = r := LineContext.rule_symbol hfind
        have hafter := Span.left_after_ne_nil
          (Opening.framed_find r.consumes_name hfind).whole_nonempty
        simp only [linesBegun_of_ne hafter]
        rcases d.add_cases r ((contextOf lines n).symbol r m) with ⟨hleaf, hadd⟩ | ⟨-, hadd⟩
        · have hclosed := hadd.settling (h.mark_placed hfind).1.stop_real
            (h.leaf_settling hset hkept hopening hleaf)
          exact ⟨hclosed.settled, hclosed.kept⟩
        · rw [hadd]
          refine ⟨⟨settled_new lines n r m, ?_⟩, trivial, hkept⟩
          cases hf : d.frames with
          | nil => trivial
          | cons f frames =>
              refine ⟨fun hblock p _ => ?_, h.outer_settled hset hf⟩
              rw [Frame.row_some]
              exact h.top_declares hset hf hopening hblock rfl hrule
  | @line n d c next h hend _ ih =>
      obtain ⟨hset, hkept⟩ := ih
      have hnone := (Draft.next?_eq_none_iff.1 (Option.map_eq_none_iff.1 hend)).2
      have hclosed := (d.breakLine_closesTo (edgeBefore lines (n + 1))).settling h.within_edge.2
        (h.edge_settling hset hkept hnone)
      rw [linesBegun_of_nil (c := .ofLine (visible next)) rfl]
      exact ⟨hclosed.settled, hclosed.kept⟩

end Reached

/-! ### Every text -/

/-- **In every text, the lines of a construct account for what it declares.** -/
theorem parseChars_declares (text : List Char) :
    (parseChars text).Every (Symbol.Declares (contentLines text)) [] := by
  obtain ⟨n, d, c, h, hend, -, hparse⟩ := parseChars_reached text
  obtain ⟨hset, hkept⟩ := h.settled
  have hnone := (Draft.next?_eq_none_iff.1 (Option.map_eq_none_iff.1 hend)).2
  rw [hparse]
  exact ((d.finish_closesTo _).settling h.within_edge.2 (h.edge_settling hset hkept hnone)).kept

/-- The symbol declares what its lines say and nothing else, when `row` is what stands directly in
it. -/
structure Symbol.DeclaresExactly (lines : List (List Char)) (s : Symbol) (row : List Symbol) :
    Prop where
  /-- A line inside the symbol, behind its first, declares something if and only if nothing declared
  on an earlier line reaches over it and it begins with a mark that the rule of the symbol lists. -/
  declares : ∀ l line, lines[l]? = some line → s.extent.start.line < l →
    s.extent.contains ⟨l, 0⟩ = true →
    ((∃ u ∈ row, u.extent.start = ⟨l, 0⟩) ↔
      (¬ ∃ u ∈ row, u.extent.start.line < l ∧ u.extent.contains ⟨l, 0⟩ = true) ∧
        ∃ r ∈ s.rule.children, r.begins line = true)
  /-- It declares the first in the list that it may. -/
  firstRule : ∀ u ∈ row, ∀ line, lines[u.extent.start.line]? = some line →
    ∃ r, s.rule.children.find? (·.begins line) = some r ∧ u.rule = r ∧ u.kind = r.kind
  /-- It declares one thing at most. -/
  once : row.Pairwise fun u v => u.extent.start.line < v.extent.start.line
  /-- Whatever stands in the symbol begins such a line. -/
  begins : ∀ u ∈ row, ∃ l line, lines[l]? = some line ∧ u.extent.start = ⟨l, 0⟩ ∧
    s.extent.start.line < l ∧ s.extent.contains ⟨l, 0⟩ = true

theorem contains_line_iff {e : Extent} {l : Nat} (h : e.start.line < l) :
    e.contains ⟨l, 0⟩ = true ↔ l ≤ e.stop.line := by
  rw [Extent.contains_iff]
  constructor
  · rintro ⟨-, hstop⟩
    exact Position.line_le hstop
  · intro hle
    refine ⟨Or.inl h, ?_⟩
    rcases Nat.lt_or_eq_of_le hle with hlt | heq
    · exact Or.inl hlt
    · exact Or.inr ⟨heq, Nat.zero_le _⟩

theorem Rule.exists_begins_iff {rs : List Rule} {line : List Char} :
    (∃ r ∈ rs, r.begins line = true) ↔ ∃ r, rs.find? (·.begins line) = some r := by
  rw [← Option.isSome_iff_exists, List.find?_isSome]

/-- A symbol whose lines account for a row inside it declares exactly that row. -/
theorem Settles.declaresExactly {text : List Char} {s : Symbol} {row : Forest Symbol}
    (h : Settles (contentLines text) s.rule s.extent.start.line (s.extent.stop.line + 1) row.heads)
    (hrow : row.Laminar (IsPlace text) s.extent.start.next s.extent.stop.next) :
    s.DeclaresExactly (contentLines text) row.heads := by
  have hmem : ∀ u ∈ row.heads, s.extent.contains u.extent.start = true ∧
      IsPlace text u.extent.start := by
    intro u hu
    obtain ⟨hlo, hhi, hu⟩ := hrow.mem u (row.heads_sublist.subset hu)
    exact ⟨Extent.contains_iff.2 ⟨le_of_lt (Position.next_le_iff.1 hlo),
      le_trans (le_of_lt hu.start_lt_stop) (Position.lt_next_iff.1 hhi)⟩, hu.start_real⟩
  have hstart : ∀ u ∈ row.heads, u.extent.start = ⟨u.extent.start.line, 0⟩ := by
    intro u hu
    rw [← (h.starts u hu).1]
  refine ⟨?_, ?_, ?_, ?_⟩
  · intro l line hline hl hin
    have haccounts := h.accounts l hl (Nat.lt_succ_of_le ((contains_line_iff hl).1 hin)) line hline
    have hcover : (∃ u ∈ row.heads, u.extent.start.line < l ∧ u.extent.contains ⟨l, 0⟩ = true) ↔
        ∃ u ∈ row.heads, u.extent.start.line < l ∧ l ≤ u.extent.stop.line :=
      exists_congr fun u => and_congr_right fun _ => and_congr_right contains_line_iff
    rw [hcover, Rule.exists_begins_iff]
    constructor
    · rintro ⟨u, hu, hu'⟩
      obtain ⟨hfree, hfind⟩ := (haccounts u.rule).1 ⟨u, hu, hu', rfl⟩
      exact ⟨hfree, _, hfind⟩
    · rintro ⟨hfree, r, hfind⟩
      obtain ⟨u, hu, hu', -⟩ := (haccounts r).2 ⟨hfree, hfind⟩
      exact ⟨u, hu, hu'⟩
  · intro u hu line hline
    have hl := (h.starts u hu).2
    have hin := (hmem u hu).1
    rw [hstart u hu, contains_line_iff hl] at hin
    have haccounts := h.accounts _ hl (Nat.lt_succ_of_le hin) line hline u.rule
    exact ⟨u.rule, (haccounts.1 ⟨u, hu, hstart u hu, rfl⟩).2, rfl, u.kind_rule.symm⟩
  · refine (hrow.starts_increase.sublist row.heads_sublist).imp_of_mem fun {u v} hu hv hlt => ?_
    rw [hstart u hu, hstart v hv] at hlt
    rcases hlt with hlt | ⟨-, hlt⟩
    · exact hlt
    · exact absurd hlt (Nat.lt_irrefl 0)
  · intro u hu
    obtain ⟨hin, line, hline, -⟩ := hmem u hu
    rw [hstart u hu] at hin
    exact ⟨_, line, hline, hstart u hu, (h.starts u hu).2, hin⟩

/-- The row below each symbol of a laminar forest is laminar inside the symbol's extent. -/
theorem Forest.Laminar.every {real : Position → Prop} {lo hi : Position} {f : Forest Symbol}
    (h : f.Laminar real lo hi) (outer : List Rule) :
    f.Every (fun _ s below => below.Laminar real s.extent.start.next s.extent.stop.next) outer := by
  induction f generalizing lo hi outer with
  | nil => trivial
  | node s below beside ih₁ ih₂ =>
      obtain ⟨-, -, -, hbelow, hbeside⟩ := h
      exact ⟨hbelow, ih₁ hbelow _, ih₂ hbeside _⟩

namespace SymbolTree

variable {t : SymbolTree}

/-- The symbols directly inside symbol `i`. -/
def childSymbols (t : SymbolTree) (i : SymbolId) : List Symbol :=
  (t.children i).filterMap t.get?

theorem childSymbols_eq {i : SymbolId} {below : Forest Symbol}
    (hsits : t.forest.Sits (i + 1) (some i) below) (h : t.children i = below.rootIds (i + 1)) :
    t.childSymbols i = below.heads := by
  have hmap := get?_rootIds below (i + 1) (some i) hsits
  calc t.childSymbols i
      = ((below.rootIds (i + 1)).map t.get?).filterMap id := by
        rw [childSymbols, h, List.filterMap_map]; rfl
    _ = below.heads := by rw [hmap, List.filterMap_map]; exact List.filterMap_some

/-- Overlays, blocks and data areas declare what their lines say and nothing else. -/
structure Declarative (lines : List (List Char)) (t : SymbolTree) : Prop where
  exactly : ∀ i s, t.get? i = some s → s.kind ∈ [.entry, .name, .dataArea] →
    s.DeclaresExactly lines (t.childSymbols i)

end SymbolTree

/-- **No declaration is lost and none is invented.** -/
theorem parse_declarations (file : FileId) (text : String) :
    (parse file text).Declarative (contentLines text.toList) := by
  refine ⟨fun i s hs hkind => ?_⟩
  have hblock : s.rule.isBlock = true := by
    rw [← s.kind_rule] at hkind
    cases hr : s.rule <;> simp_all [Rule.kind, Rule.isBlock]
  obtain ⟨hi, hlaminar⟩ := parseChars_laminar text.toList
  obtain ⟨below, hsits, hchildren, hsettles, hrow⟩ := SymbolTree.every_get? (t := parse file text)
    ((parseChars_declares text.toList).and (hlaminar.every [])) hs
  rw [SymbolTree.childSymbols_eq hsits hchildren]
  exact (hsettles hblock).declaresExactly hrow

end OverlayIndex
