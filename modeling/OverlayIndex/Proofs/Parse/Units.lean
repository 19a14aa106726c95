/-
Texts that are read unit by unit.

A line that starts a unit closes whatever is open, and it closes it where the end of the text
would have: at the end of the line before.  The outermost frame is always that of a unit, and
its terminator stands in column zero of the line; no other event can come first there, since a
terminator that is not a boundary does not start with a dollar sign and a terminator wins over
a mark.  Frames close in some number of turns, and all of them at the same position, so what is
left in the end does not depend on how many close at a time.  From there on the text is read as
if it stood alone.
-/
import OverlayIndex.Proofs.Parse.Grammatical
import OverlayIndex.Proofs.Parse.Shift

namespace OverlayIndex

/-- The line starts a unit: `$ENTRY` or `$NAME` stands in column zero, and the word ends there. -/
def OpensUnit (line : List Char) : Prop :=
  ∃ w ∈ ["$ENTRY", "$NAME"], ∃ rest, visible line = w.toList ++ rest ∧ endsWord rest = true

/-- The first line of the text starts a unit. -/
def StartsUnit (text : List Char) : Prop :=
  ∃ line, (contentLines text).head? = some line ∧ OpensUnit line

/-! ### Closing everything -/

namespace Draft

/-- Hanging a row and then closing all frames is what closing all frames does with a row. -/
theorem finish_hang (d : Draft) (stop : Position) (done : Forest Symbol) :
    (d.hang done).finish stop =
      (settle (fun _ => true) stop d.roots d.frames done).roots := by
  obtain ⟨frames, roots⟩ := d
  cases frames with
  | nil => simp [hang, finish, settle]
  | cons f frames => simp [hang, finish, settle, Frame.add]

theorem finish_pop (d : Draft) (stop : Position) : (d.pop stop).finish stop = d.finish stop := by
  obtain ⟨frames, roots⟩ := d
  cases frames with
  | nil => rfl
  | cons f frames =>
      show (hang ⟨frames, roots⟩ (f.close stop)).finish stop = _
      rw [finish_hang]
      simp [finish, settle, Frame.add]

/-- Closing some frames first makes no difference to closing all. -/
theorem ClosesTo.finish_eq {stop : Position} {d d' : Draft} (h : ClosesTo stop d d') :
    d'.finish stop = d.finish stop :=
  h.preserves (Q := fun e => e.finish stop = d.finish stop)
    (fun e he => (finish_pop e stop).trans he) rfl

theorem finish_of_frames_nil {d : Draft} (h : d.frames = []) (stop : Position) :
    (⟨[], d.finish stop⟩ : Draft) = d := by
  obtain ⟨frames, roots⟩ := d
  cases h
  simp [finish, settle]

/-- The outermost frame is that of a unit. -/
theorem Conforms.outermost {roots : Forest Symbol} :
    ∀ {frames : List Frame}, Conforms roots frames → frames ≠ [] →
      ∃ (i : Nat) (f : Frame), frames[i]? = some f ∧ f.rule ∈ Rule.topLevel := by
  intro frames
  induction frames with
  | nil => intro _ hne; exact absurd rfl hne
  | cons f frames ih =>
      rintro ⟨-, hperm, -, hrest⟩ -
      cases frames with
      | nil => exact ⟨0, f, rfl, hperm⟩
      | cons g frames =>
          obtain ⟨i, top, hi, htop⟩ := ih hrest (by simp)
          exact ⟨i + 1, top, by simpa using hi, htop⟩

end Draft

/-! ### The terminators on the first line of a unit -/

namespace Shape

theorem read_keyword {w : String} {rest : List Char} (h : endsWord rest = true) :
    (keyword w).read (w.toList ++ rest) = some (w.toList, rest) := by
  simp [keyword, followedBy, literal, h]

theorem read_literal_of_ne {a c : Char} (h : a ≠ c) (w cs : List Char) :
    (literal (a :: w)).read (c :: cs) = none := by
  simp [literal, h]

theorem read_keyword_of_ne {w : String} {a c : Char} {ws : List Char} (hw : w.toList = a :: ws)
    (h : a ≠ c) (cs : List Char) : (keyword w).read (c :: cs) = none := by
  simp [keyword, followedBy, hw, read_literal_of_ne h]

theorem read_orElse (a b : Shape) (s : List Char) :
    (a.orElse b).read s = (a.read s).or (b.read s) := rfl

end Shape

/-- Only boundaries start with a dollar sign. -/
theorem Terminator.isBoundary_of_read_dollar {t : Terminator} {cs : List Char}
    {x : List Char × List Char} (h : t.shape.read ('$' :: cs) = some x) : t.isBoundary = true := by
  cases t with
  | nextUnit | nextDirective | nextProc | nextInclusion => rfl
  | doubleCaret =>
      rw [shape, Shape.read_literal_of_ne (by decide)] at h
      cases h
  | leave =>
      rw [shape, Shape.read_orElse, Shape.read_keyword_of_ne rfl (by decide),
        Shape.read_keyword_of_ne rfl (by decide)] at h
      cases h
  | endProc =>
      rw [shape, Shape.read_keyword_of_ne rfl (by decide)] at h
      cases h

/-- What is found at a dollar sign in column zero is a boundary. -/
theorem Terminator.isBoundary_of_find_dollar {t : Terminator} {cs : List Char} {s : Span}
    (hs : t.find (.ofLine ('$' :: cs)) = some s) (hstart : s.start = 0) : t.isBoundary = true := by
  refine Classical.byContradiction fun ht => ht ?_
  rw [find, if_neg ht] at hs
  obtain ⟨skipped, rest, hr, hf⟩ := Cursor.search_spec hs
  obtain ⟨-, hleft, -, hread⟩ := tryAt_spec hf
  have hskipped : skipped = [] := by
    simp only [Span.start, hleft, byteLength_append, byteLength_reverse] at hstart
    exact eq_nil_of_byteLength (Nat.eq_zero_of_add_eq_zero_right hstart)
  have hrest : rest = '$' :: cs := by
    rw [← List.nil_append rest, ← hskipped]
    exact hr
  rw [hrest] at hread
  exact isBoundary_of_read_dollar hread

namespace OpensUnit

variable {line : List Char}

theorem dollar (h : OpensUnit line) : ∃ cs, visible line = '$' :: cs := by
  obtain ⟨w, hw, rest, hline, -⟩ := h
  simp only [List.mem_cons, List.not_mem_nil, or_false] at hw
  rcases hw with rfl | rfl
  · exact ⟨_, hline⟩
  · exact ⟨_, hline⟩

/-- Every unit that is open ends there. -/
theorem find_boundary (h : OpensUnit line) {r : Rule} (hr : r ∈ Rule.topLevel) :
    ∃ t ∈ r.terminators, t.isBoundary = true ∧
      ∃ s, t.find (.ofLine (visible line)) = some s := by
  obtain ⟨cs, hcs⟩ := h.dollar
  obtain ⟨w, hw, rest, hline, hends⟩ := h
  simp only [Rule.topLevel, List.mem_cons, List.not_mem_nil, or_false] at hr hw
  rcases hr with rfl | rfl
  · refine ⟨.nextUnit, by simp [Rule.terminators], rfl, ?_⟩
    have hread : ∃ x, Terminator.nextUnit.shape.read (visible line) = some x := by
      rw [hline, Terminator.shape, Shape.read_orElse, ← Option.isSome_iff_exists]
      rcases hw with rfl | rfl
      · rw [Shape.read_keyword hends, Option.some_or, Option.isSome_some]
      · rw [Shape.read_keyword hends, Option.isSome_or, Option.isSome_some, Bool.or_true]
    obtain ⟨x, hx⟩ := hread
    exact ⟨⟨[], x.1, x.2⟩, by simp [Terminator.find, Terminator.isBoundary, Terminator.tryAt,
      Terminator.mayBegin, Cursor.ofLine, hx]⟩
  · refine ⟨.nextDirective, by simp [Rule.terminators], rfl, ⟨[], ['$'], cs⟩, ?_⟩
    rw [hcs]
    rfl

/-- What is found in column zero is a boundary. -/
theorem isBoundary_of_find (h : OpensUnit line) {t : Terminator} {s : Span}
    (hs : t.find (.ofLine (visible line)) = some s) (hstart : s.start = 0) :
    t.isBoundary = true := by
  obtain ⟨cs, hcs⟩ := h.dollar
  rw [hcs] at hs
  exact Terminator.isBoundary_of_find_dollar hs hstart

end OpensUnit

namespace Draft

/-- With something open, the next event at the start of a unit closes frames where the line before
ends, and the cursor stays. -/
theorem step?_of_opensUnit {line : List Char} (h : OpensUnit line) {d : Draft}
    (hd : d.Grammatical) (hopen : d.frames ≠ []) (ctx : LineContext) :
    ∃ n, ctx.step? d (.ofLine (visible line))
      = some (d.close n ctx.edge, .ofLine (visible line)) := by
  obtain ⟨i, top, htop, hrule⟩ := Conforms.outermost hd hopen
  obtain ⟨t, ht, hb, s, hs⟩ := h.find_boundary hrule
  have hleft := (Terminator.left_find_boundary hb hs).2
  -- The outermost frame offers a boundary in column zero, so the first terminator stands there.
  have hmem : ⟨i + 1, true, s⟩ ∈ closingsFrom (.ofLine (visible line)) 0 d.frames :=
    mem_closingsFrom.2 ⟨i, top, t, htop, ht, Or.inr hb, hs, by rw [Nat.zero_add], hb.symm⟩
  obtain ⟨k, hk⟩ : ∃ k, d.closing? (.ofLine (visible line)) = some k :=
    Option.ne_none_iff_exists'.1 fun hnone => by
      rw [earliest_eq_none_iff.1 hnone] at hmem
      cases hmem
  have hstart : k.span.start = 0 := by
    have hle := earliest_le hk _ hmem
    simp only [Span.start, hleft, byteLength_nil] at hle
    exact Nat.le_zero.1 hle
  have hboundary : k.boundary = true := by
    obtain ⟨t', hfind, hkb, -⟩ := closing?_terminator hk
    rw [hkb]
    exact h.isBoundary_of_find hfind hstart
  have hnext : d.next? (.ofLine (visible line)) = some (.close k) := by
    rw [next?, hk]
    cases d.opening? (.ofLine (visible line)) with
    | none => rfl
    | some x => exact if_pos (hstart ▸ Nat.zero_le _)
  refine ⟨k.count, ?_⟩
  simp [LineContext.step?, hnext, LineContext.apply, LineContext.closePosition, hboundary, hstart]

/-- The first line of a unit is read as if all had been closed before it. -/
theorem scan_of_opensUnit {line : List Char} (h : OpensUnit line) (ctx : LineContext) :
    ∀ (d : Draft) (c : Cursor), c = .ofLine (visible line) → d.Grammatical →
      ctx.scan d c = ctx.scan ⟨[], d.finish ctx.edge⟩ c := by
  refine ctx.event_induction fun d c ih hc hd => ?_
  by_cases hopen : d.frames = []
  · rw [finish_of_frames_nil hopen]
  · obtain ⟨n, hstep⟩ := step?_of_opensUnit h hd hopen ctx
    rw [← hc] at hstep
    have hclose := d.close_closesTo n ctx.edge
    calc ctx.scan d c
        = ctx.scan (d.close n ctx.edge) c := by rw [LineContext.scan_eq, hstep]; rfl
      _ = ctx.scan ⟨[], (d.close n ctx.edge).finish ctx.edge⟩ c :=
          ih _ hstep hc (hclose.grammatical hd)
      _ = ctx.scan ⟨[], d.finish ctx.edge⟩ c := by rw [hclose.finish_eq]

/-- Lines that start with a unit are read as if all had been closed before them. -/
theorem readLines_of_opensUnit {line : List Char} (h : OpensUnit line) (lines : List (List Char))
    {d : Draft} (hd : d.Grammatical) (number : Nat) (edge edge' : Position) :
    d.readLines number edge (line :: lines) =
      (⟨[], d.finish edge⟩ : Draft).readLines number edge' (line :: lines) := by
  have hbreak := d.breakLine_closesTo edge
  have hclosed : (⟨[], d.finish edge⟩ : Draft).breakLine edge' = ⟨[], d.finish edge⟩ :=
    breakLine_of_frames_nil rfl edge'
  rw [readLines, readLines, hclosed, scan_of_opensUnit h _ _ _ rfl (hbreak.grammatical hd),
    hbreak.finish_eq, LineContext.scan_edge number edge edge' _ _ (fun _ => rfl)]

end Draft

/-! ### Texts one after the other -/

theorem contentLines_append (as bs : List Char) :
    contentLines (as ++ '\n' :: bs) = contentLines as ++ contentLines bs := by
  rw [contentLines, splitLines, splitOn_append, List.map_append]
  rfl

/-- The forest of a text that goes on with a unit: that of the text before, and beside it that of
the rest, moved down. -/
theorem parseChars_append (as : List Char) {bs : List Char} (hb : StartsUnit bs) :
    parseChars (as ++ '\n' :: bs) =
      parseChars as ++ (parseChars bs).map (Symbol.down (splitLines as).length) := by
  obtain ⟨line, hline, hunit⟩ := hb
  obtain ⟨lines, hlines⟩ : ∃ lines, contentLines bs = line :: lines :=
    List.head?_eq_some_iff.1 hline
  have hgram := Draft.readLines_grammatical (contentLines as) .empty 0 ⟨0, 0⟩ trivial
  have hlength : (contentLines as).length = (splitLines as).length := by
    rw [contentLines, List.length_map]
  have hfront : (⟨[], parseChars as⟩ : Draft)
      = Draft.empty.behind (parseChars as) (splitLines as).length := by
    rw [Draft.behind, Draft.empty, Forest.map, Forest.append_nil, List.map_nil]
  -- The second text is read from a closed draft, which is the empty one seen from further down.
  have hread : Draft.empty.readLines 0 ⟨0, 0⟩ (contentLines (as ++ '\n' :: bs))
      = (Draft.empty.behind (parseChars as) (splitLines as).length).readLines
          (0 + (splitLines as).length) (Position.down (splitLines as).length ⟨0, 0⟩)
          (contentLines bs) := by
    rw [contentLines_append, Draft.readLines_append, hlength, hlines,
      Draft.readLines_of_opensUnit hunit lines hgram _ _
        (Position.down (splitLines as).length ⟨0, 0⟩), ← hfront]
    rfl
  rw [parseChars, hread, Draft.readLines_behind]
  exact Draft.finish_behind _ _

/-- **Texts are read unit by unit.**  If a unit starts on the first line of the second text, the
symbols of the two texts, one after the other, are those of the first, unchanged, and then those
of the second, with numbers that go on from the first and further down by its lines. -/
theorem parse_append_unit (file : FileId) (a b : String) (hb : StartsUnit b.toList) :
    (parse file (a ++ "\n" ++ b)).file = file ∧
    (parse file (a ++ "\n" ++ b)).nodes =
      (parse file a).nodes ++ (parse file b).nodes.map
        (.moved (parse file a).size (Symbol.down (splitLines a.toList).length)) ∧
    (parse file (a ++ "\n" ++ b)).roots =
      (parse file a).roots ++ (parse file b).roots.map (· + (parse file a).size) := by
  have hforest : (parse file (a ++ "\n" ++ b)).forest = (parse file a).forest ++
      (parse file b).forest.map (Symbol.down (splitLines a.toList).length) := by
    have htext : (a ++ "\n" ++ b).toList = a.toList ++ '\n' :: b.toList := by simp
    rw [parse, htext]
    exact parseChars_append a.toList hb
  refine ⟨rfl, ?_, ?_⟩
  · rw [SymbolTree.nodes, hforest, Forest.nodesFrom_append]
    exact congrArg _ (Forest.nodesFrom_moved _ _ _ 0 none)
  · rw [SymbolTree.roots, hforest, Forest.rootIds_append]
    exact congrArg _ (Forest.rootIds_moved _ _ _ 0)

/-- A list of values that nothing ends, inside an overlay that nothing ends, and a block after
it. -/
theorem parse_open_list_then_unit :
    StartsUnit "$NAME BLK << next\nQ N5".toList ∧
    (parse ⟨0⟩ ("$ENTRY OVL\n$DATA\nX C^1" ++ "\n" ++ "$NAME BLK << next\nQ N5")).nodes =
      (parse ⟨0⟩ "$ENTRY OVL\n$DATA\nX C^1").nodes ++
        (parse ⟨0⟩ "$NAME BLK << next\nQ N5").nodes.map
          (.moved (parse ⟨0⟩ "$ENTRY OVL\n$DATA\nX C^1").size (Symbol.down 3)) := by
  have hb : StartsUnit "$NAME BLK << next\nQ N5".toList :=
    ⟨"$NAME BLK << next".toList, by decide, "$NAME", by simp, " BLK ".toList, by decide, by decide +kernel⟩
  exact ⟨hb, (parse_append_unit ⟨0⟩ "$ENTRY OVL\n$DATA\nX C^1" _ hb).2.1⟩

end OverlayIndex
