/-
The roots of a text are its units.

A line that starts with `$ENTRY` or `$NAME`, white space and a name opens a unit, and every root
is a unit that some line opens.  Whatever is open when such a line comes is closed first, since
the line then starts a unit in the sense of `OpensUnit`, and nothing else can happen in column
zero.  With nothing open, the next event is the mark of the unit.  So the roots, the unit that is
still open counted in, are at all times the units of the lines that have been read.
-/
import Mathlib.Data.List.Basic
import OverlayIndex.Proofs.Parse.Preorder
import OverlayIndex.Proofs.Parse.Units

namespace OverlayIndex

/-! ### Lines that open a unit -/

/-- The first of these constructs that the line opens in column zero: its rule and its mark. -/
def firstMark? (rs : List Rule) (line : List Char) : Option (Rule × Mark) :=
  rs.findSome? fun r => (r.opening.readAt (.ofLine (visible line))).map (r, ·)

/-- The unit that the line opens: its rule and its mark. -/
def unitMark? (line : List Char) : Option (Rule × Mark) :=
  firstMark? Rule.topLevel line

/-- What a symbol has from its mark, wherever it ends. -/
structure Heading where
  kind : Kind
  name : String
  start : Position
  selection : Extent
  deriving DecidableEq, Repr

/-- The kind and the name of a symbol, where it starts and where its name stands. -/
def Symbol.heading (s : Symbol) : Heading :=
  ⟨s.kind, s.name, s.extent.start, s.selection⟩

/-- The heading of a unit whose mark begins line `n`. -/
def unitHeading (n : Nat) (u : Rule × Mark) : Heading :=
  ⟨u.1.kind, String.ofList u.2.name.text, ⟨n, 0⟩, u.2.name.extent n⟩

/-- The headings of the units that the lines open, in order. -/
def unitHeadings (lines : List (List Char)) : List Heading :=
  lines.zipIdx.filterMap fun x => (unitMark? x.1).map (unitHeading x.2)

/-- The symbol of a mark in column zero has the heading of a unit. -/
theorem heading_symbol {lines : List (List Char)} {n : Nat} {r : Rule} {m : Mark}
    (h : m.whole.start = 0) :
    ((contextOf lines n).symbol r m).heading = unitHeading n (r, m) := by
  simp [unitHeading, Symbol.heading, LineContext.symbol, Span.extent, Extent.onLine, h, contextOf]

theorem unitHeadings_take_succ {lines : List (List Char)} {n : Nat} {line : List Char}
    (h : lines[n]? = some line) :
    unitHeadings (lines.take (n + 1)) =
      unitHeadings (lines.take n) ++ ((unitMark? line).map (unitHeading n)).toList := by
  have hlen : (lines.take n).length = n := by
    have hlt := (List.getElem?_eq_some_iff.1 h).1
    rw [List.length_take]
    omega
  rw [unitHeadings, List.take_add_one, h, List.zipIdx_append, List.filterMap_append, hlen,
    Nat.zero_add]
  refine congrArg _ ?_
  cases hm : unitMark? line <;> simp [hm]

/-- The code points of the ranges. -/
def expandRanges (ranges : List (Nat × Nat)) : List Nat :=
  ranges.flatMap fun r => List.range' r.1 (r.2 + 1 - r.1)

theorem mem_expandRanges {ranges : List (Nat × Nat)} {n : Nat} (h : inRanges ranges n = true) :
    n ∈ expandRanges ranges := by
  simp only [inRanges, List.any_eq_true, Bool.and_eq_true, decide_eq_true_eq] at h
  obtain ⟨r, hr, hlo, hhi⟩ := h
  refine List.mem_flatMap.2 ⟨r, hr, List.mem_range'_1.2 ⟨hlo, ?_⟩⟩
  omega

/-- White space is no part of a word. -/
theorem isWord_of_isBlank {c : Char} (h : isBlank c = true) : isWord c = false := by
  have hall : ∀ n ∈ expandRanges blankRanges, isWord (Char.ofNat n) = false := by
    decide +kernel
  have hc := hall c.toNat (mem_expandRanges h)
  rwa [Char.ofNat_toNat] at hc

/-- A directive is read off its word and white space. -/
theorem Shape.read_directive {w : String} {s t r : List Char}
    (h : (directive w).read s = some (t, r)) :
    ∃ rest, s = w.toList ++ rest ∧ endsWord rest = true := by
  simp only [directive, andThen, Option.bind_eq_some_iff, Option.map_eq_some_iff,
    Prod.mk.injEq] at h
  obtain ⟨x, hx, y, hy, -, -⟩ := h
  have hsplit := (literal w.toList).split hx
  simp only [literal, Option.ite_none_right_eq_some, Option.some.injEq] at hx
  obtain ⟨-, rfl⟩ := hx
  obtain ⟨b, bs, hb, hblank⟩ := (startsWith_one isBlank).andThen (many isBlank) hy
  refine ⟨_, hsplit.symm, ?_⟩
  rw [← (many1 isBlank).split hy, hb]
  simp [endsWord, isWord_of_isBlank hblank]

theorem firstMark?_spec {rs : List Rule} {line : List Char} {r : Rule} {m : Mark}
    (h : firstMark? rs line = some (r, m)) :
    r ∈ rs ∧ r.opening.readAt (.ofLine (visible line)) = some m := by
  obtain ⟨r', hr, hm⟩ := List.exists_of_findSome?_eq_some h
  simp only [Option.map_eq_some_iff, Prod.mk.injEq] at hm
  obtain ⟨m', hm, rfl, rfl⟩ := hm
  exact ⟨hr, hm⟩

/-- A line that opens a unit starts one. -/
theorem opensUnit_of_unitMark? {line : List Char} {r : Rule} {m : Mark}
    (h : unitMark? line = some (r, m)) : OpensUnit line := by
  obtain ⟨hr, hm⟩ := firstMark?_spec h
  simp only [Opening.readAt, Option.bind_eq_some_iff] at hm
  obtain ⟨y, hy, -⟩ := hm
  simp only [Rule.topLevel, List.mem_cons, List.not_mem_nil, or_false] at hr
  rcases hr with rfl | rfl
  · obtain ⟨rest, hline, hends⟩ := Shape.read_directive (w := "$ENTRY") hy
    exact ⟨"$ENTRY", by simp, rest, hline, hends⟩
  · obtain ⟨rest, hline, hends⟩ := Shape.read_directive (w := "$NAME") hy
    exact ⟨"$NAME", by simp, rest, hline, hends⟩

/-! ### Marks in column zero -/

namespace Opening

variable {o : Opening}

/-- A mark that begins in column zero only is read there and nowhere else. -/
theorem find_lineStart (ho : o.place = .lineStart) (c : Cursor) :
    o.find c = if c.left = [] then o.readAt c else none := by
  rw [find, tryAt, ho]
  simp only [Place.lineStart, Cursor.atStart, Bool.true_and, List.isEmpty_iff, Option.or_none]

theorem start_readAt_ofLine {line : List Char} {m : Mark} (h : o.readAt (.ofLine line) = some m) :
    m.whole.start = 0 := by
  rw [Span.start, (readAt_spec h).1]
  rfl

end Opening

theorem Rule.place_of_mem_topLevel {r : Rule} (h : r ∈ topLevel) :
    r.opening.place = .lineStart := by
  simp only [topLevel, List.mem_cons, List.not_mem_nil, or_false] at h
  rcases h with rfl | rfl <;> rfl

/-- Where all keys are the same, the first element is the one with the least. -/
theorem earliest_of_const {α : Type} {key : α → Nat} {k : Nat} :
    ∀ {as : List α}, (∀ a ∈ as, key a = k) → earliest key as = as.head? := by
  intro as
  induction as with
  | nil => intro _; rfl
  | cons a as ih =>
      intro h
      have ha := h a (by simp)
      rw [earliest, ih fun b hb => h b (by simp [hb])]
      cases as with
      | nil => rfl
      | cons b as => simp [ha, h b (by simp)]

/-- Where only marks in column zero count, a line opens the first construct in the list that begins
it. -/
theorem Draft.opening?_of_lineStart {d : Draft}
    (h : ∀ r ∈ d.permitted, r.opening.place = .lineStart) (line : List Char) :
    d.opening? (.ofLine (visible line)) = firstMark? d.permitted line := by
  have hmarks : (d.permitted.filterMap fun r =>
      (r.opening.find (.ofLine (visible line))).map (r, ·)) =
      d.permitted.filterMap fun r =>
        (r.opening.readAt (.ofLine (visible line))).map (r, ·) := by
    refine List.filterMap_congr fun r hr => ?_
    rw [Opening.find_lineStart (h r hr)]
    rfl
  have hzero : ∀ x ∈ d.permitted.filterMap fun r =>
      (r.opening.readAt (.ofLine (visible line))).map (r, ·), x.2.whole.start = 0 := by
    intro x hx
    simp only [List.mem_filterMap, Option.map_eq_some_iff] at hx
    obtain ⟨r, -, m, hm, rfl⟩ := hx
    exact Opening.start_readAt_ofLine hm
  rw [opening?, hmarks, earliest_of_const hzero, List.head?_filterMap]
  rfl

theorem Draft.permitted_of_frames_nil {d : Draft} (hd : d.frames = []) :
    d.permitted = Rule.topLevel ∧ ∀ r ∈ d.permitted, r.opening.place = .lineStart := by
  have hperm : d.permitted = Rule.topLevel := by rw [permitted, hd]
  exact ⟨hperm, fun r hr => Rule.place_of_mem_topLevel (hperm ▸ hr)⟩

/-- With nothing open, a line opens its unit in column zero. -/
theorem Draft.opening?_of_frames_nil {d : Draft} (hd : d.frames = []) (line : List Char) :
    d.opening? (.ofLine (visible line)) = unitMark? line := by
  obtain ⟨hperm, hstart⟩ := permitted_of_frames_nil hd
  rw [opening?_of_lineStart hstart, hperm, unitMark?]

/-- Where only marks in column zero count, nothing opens behind it. -/
theorem Draft.left_of_opening? {d : Draft}
    (hstart : ∀ r ∈ d.permitted, r.opening.place = .lineStart) {c : Cursor} {r : Rule} {m : Mark}
    (h : d.opening? c = some (r, m)) : c.left = [] := by
  obtain ⟨hr, hfind⟩ := opening?_spec h
  rw [Opening.find_lineStart (hstart r hr)] at hfind
  exact Classical.byContradiction fun hleft => by
    rw [if_neg hleft] at hfind
    cases hfind

/-! ### The units of a draft -/

namespace Draft

/-- The headings of the roots, the outermost open construct counted in. -/
def headings (d : Draft) : List Heading :=
  (d.roots.heads ++ (d.frames.map (·.symbol)).getLast?.toList).map Symbol.heading

theorem headings_hang (d : Draft) (done : Forest Symbol) :
    (d.hang done).headings = if d.frames = [] then d.headings ++ done.heads.map Symbol.heading
      else d.headings := by
  obtain ⟨frames, roots⟩ := d
  cases frames with
  | nil => simp [hang, headings]
  | cons f frames => simp [hang, headings, Frame.add]

theorem headings_pop (d : Draft) (stop : Position) : (d.pop stop).headings = d.headings := by
  obtain ⟨frames, roots⟩ := d
  cases frames with
  | nil => rfl
  | cons f frames =>
      show (hang ⟨frames, roots⟩ (f.close stop)).headings = _
      rw [headings_hang]
      cases frames with
      | nil => simp [headings, Frame.close, Forest.heads, Symbol.heading, Symbol.extendTo,
          Extent.extendTo]
      | cons g frames => simp [headings]

theorem ClosesTo.headings_eq {stop : Position} {d d' : Draft} (h : ClosesTo stop d d') :
    d'.headings = d.headings :=
  h.preserves (Q := fun e => e.headings = d.headings)
    (fun e he => (headings_pop e stop).trans he) rfl

/-- A construct is a root if nothing is open when it opens. -/
theorem headings_add (d : Draft) (r : Rule) (s : Symbol) :
    (d.add r s).headings = if d.frames = [] then d.headings ++ [s.heading] else d.headings := by
  rcases d.add_cases r s with ⟨-, hadd⟩ | ⟨-, hadd⟩
  · rw [hadd.headings_eq, headings_hang]
    rfl
  · rw [hadd]
    obtain ⟨frames, roots⟩ := d
    cases frames with
    | nil => simp [headings]
    | cons f frames => simp [headings, List.getLast?_cons]

end Draft

/-! ### The units of a text -/

theorem Span.left_after_ne_nil {s : Span} (h : s.text ≠ []) : s.after.left ≠ [] := by
  simp [after, h]

namespace Reached

variable {lines : List (List Char)} {n : Nat} {d : Draft} {c : Cursor} {line : List Char}

/-- With something open, an event leads away from column zero only on a line that opens no unit. -/
theorem unitMark?_of_leaves (h : Reached lines n d c) (hc : c.line = visible line)
    (hleft : c.left = []) (hopen : d.frames ≠ []) {x : Draft × Cursor}
    (hx : (contextOf lines n).step? d c = some x) (hx' : x.2.left ≠ []) :
    unitMark? line = none := by
  refine Option.eq_none_iff_forall_ne_some.2 fun ⟨r, m⟩ hu => hx' ?_
  obtain ⟨k, hk⟩ := Draft.step?_of_opensUnit (opensUnit_of_unitMark? hu) h.grammatical hopen
    (contextOf lines n)
  rw [← hc, ← Cursor.eq_ofLine hleft, hx] at hk
  cases hk
  exact hleft

/-- No event is left in column zero only on a line that opens no unit. -/
theorem unitMark?_of_end (h : Reached lines n d c) (hc : c.line = visible line)
    (hleft : c.left = []) (hend : (contextOf lines n).step? d c = none) :
    unitMark? line = none := by
  refine Option.eq_none_iff_forall_ne_some.2 fun ⟨r, m⟩ hu => ?_
  rw [Cursor.eq_ofLine hleft, hc] at hend
  by_cases hopen : d.frames = []
  · have hnone := (Draft.next?_eq_none_iff.1 (Option.map_eq_none_iff.1 hend)).2
    rw [d.opening?_of_frames_nil hopen, hu] at hnone
    cases hnone
  · obtain ⟨k, hk⟩ := Draft.step?_of_opensUnit (opensUnit_of_unitMark? hu) h.grammatical hopen
      (contextOf lines n)
    rw [hk] at hend
    cases hend

/-- How many lines have been looked at in column zero. -/
def linesBegun (n : Nat) (c : Cursor) : Nat :=
  if c.left = [] then n else n + 1

theorem linesBegun_of_nil (h : c.left = []) : linesBegun n c = n :=
  if_pos h

theorem linesBegun_of_ne (h : c.left ≠ []) : linesBegun n c = n + 1 :=
  if_neg h

/-- A line that opens no unit may be counted before or after it has been looked at. -/
theorem take_linesBegun (hline : lines[n]? = some line)
    (hnone : c.left = [] → unitMark? line = none) :
    unitHeadings (lines.take (linesBegun n c)) = unitHeadings (lines.take (n + 1)) := by
  by_cases hleft : c.left = []
  · rw [linesBegun_of_nil hleft, unitHeadings_take_succ hline, hnone hleft]
    simp
  · rw [linesBegun_of_ne hleft]

/-- In every state, the roots are the units of the lines that have been looked at. -/
theorem headings_eq (h : Reached lines n d c) :
    d.headings = unitHeadings (lines.take (linesBegun n c)) := by
  induction h with
  | first => rfl
  | @event n d c x h hx ih =>
      obtain ⟨line, hline, hc⟩ := h.exists_line
      have hleaves := fun hleft hopen => h.unitMark?_of_leaves hc hleft hopen hx
      rcases LineContext.step?_cases hx with ⟨k, hk, rfl⟩ | ⟨r, m, he, rfl⟩
      · obtain ⟨t, hfind, -, hopen⟩ := Draft.closing?_terminator hk
        rw [(d.close_closesTo _ _).headings_eq, ih]
        by_cases hboundary : k.boundary = true
        · simp only [if_pos hboundary]
        · have hafter := Span.left_after_ne_nil (Terminator.text_ne_nil_find hfind)
          simp only [if_neg hboundary] at hleaves ⊢
          rw [linesBegun_of_ne hafter]
          exact take_linesBegun hline fun hleft => hleaves hleft hopen hafter
      · have hopening := Draft.next?_add he
        have hfind := (Draft.opening?_spec hopening).2
        have hafter := Span.left_after_ne_nil
          (Opening.framed_find r.consumes_name hfind).whole_nonempty
        rw [linesBegun_of_ne hafter, Draft.headings_add, ih]
        by_cases hopen : d.frames = []
        · -- The mark is that of the unit which the line opens.
          have hleft := Draft.left_of_opening? (Draft.permitted_of_frames_nil hopen).2 hopening
          rw [Cursor.eq_ofLine hleft, hc, d.opening?_of_frames_nil hopen] at hopening
          rw [if_pos hopen, linesBegun_of_nil hleft, unitHeadings_take_succ hline, hopening,
            heading_symbol (Opening.start_readAt_ofLine (firstMark?_spec hopening).2)]
          rfl
        · rw [if_neg hopen]
          exact take_linesBegun hline fun hleft => hleaves hleft hopen hafter
  | @line n d c next h hend hnext ih =>
      obtain ⟨line, hline, hc⟩ := h.exists_line
      rw [(d.breakLine_closesTo _).headings_eq, ih,
        linesBegun_of_nil (c := .ofLine (visible next)) rfl]
      exact take_linesBegun hline fun hleft => h.unitMark?_of_end hc hleft hend

end Reached

/-- The roots of a text are the units of its lines. -/
theorem parseChars_headings (text : List Char) :
    (parseChars text).heads.map Symbol.heading = unitHeadings (contentLines text) := by
  obtain ⟨n, d, c, h, hend, hlen, hparse⟩ := parseChars_reached text
  obtain ⟨line, hline, hc⟩ := h.exists_line
  have hfinish := (d.finish_closesTo (edgeBefore (contentLines text) (n + 1))).headings_eq
  rw [Draft.headings, List.map_nil, List.getLast?_nil, Option.toList_none, List.append_nil,
    ← hparse] at hfinish
  rw [hfinish, h.headings_eq,
    Reached.take_linesBegun hline fun hleft => h.unitMark?_of_end hc hleft hend, hlen,
    List.take_length]

/-- **The roots of a text are the units that its lines open, one for each and in order.**  Nothing
else is a root, whatever is open when the line of a unit comes. -/
theorem parse_roots_are_units (file : FileId) (text : String) :
    (parse file text).roots.map (fun i => ((parse file text).get? i).map Symbol.heading) =
        (unitHeadings (contentLines text.toList)).map some ∧
      ∀ i, i ∈ (parse file text).roots ↔
        i < (parse file text).size ∧ (parse file text).parent? i = none := by
  refine ⟨?_, fun i => SymbolTree.mem_roots_iff⟩
  have hheads := SymbolTree.get?_rootIds (t := parse file text) (parse file text).forest 0 none
    (Forest.sits_self _)
  calc (parse file text).roots.map (fun i => ((parse file text).get? i).map Symbol.heading)
      = ((parse file text).roots.map (parse file text).get?).map (Option.map Symbol.heading) := by
        rw [List.map_map]; rfl
    _ = ((parse file text).forest.heads.map some).map (Option.map Symbol.heading) :=
        congrArg _ hheads
    _ = ((parseChars text.toList).heads.map Symbol.heading).map some := by
        rw [List.map_map, List.map_map]; rfl
    _ = (unitHeadings (contentLines text.toList)).map some := by
        rw [parseChars_headings]

end OverlayIndex
