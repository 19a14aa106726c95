/-
Every construct ends at its first terminator.

A construct that something ends reaches to the first hit, from its mark on, of what ends it, and
if there is none, to the end of the text.  A variable reaches as far as its format, and if it has
none, to the end of its line.

While a construct is open, no hit has come since its mark; `Awaited` says so of all frames.  The
reader closes frames at the first hit from its cursor on.  A frame that closes there is ended by
that hit, since it belongs to the frame itself or is a boundary of one around it, and what closes
without a terminator of its own is a variable, which has just got its format or is at the end of
its line.
-/
import OverlayIndex.Proofs.Parse.Hits
import OverlayIndex.Proofs.Parse.Preorder

namespace OverlayIndex

/-- Where the text that opens the symbol stops. -/
def Symbol.markStop (s : Symbol) : Position :=
  ⟨s.extent.start.line, s.extent.start.col + byteLength s.detail.toList⟩

/-- `stop` is where the first hit of these terminators from `place` on ends a construct, or the end
of the text if there is no hit. -/
def EndsAt (lines : List (List Char)) (ts : List Terminator) (place stop : Position) : Prop :=
  (∃ h : Hit, h.First lines ts place ∧ stop = h.stop lines) ∨
    (∀ h : Hit, h.Stands lines → h.terminator ∈ ts → ¬ place ≤ h.start) ∧
      stop = edgeBefore lines lines.length

namespace Symbol

/-- `stop` is where the only symbol below ends, or the end of the line if there is none. -/
def EndsWithRow (lines : List (List Char)) (s : Symbol) (below : Forest Symbol)
    (stop : Position) : Prop :=
  below = .nil ∧ stop = edgeBefore lines (s.extent.start.line + 1) ∨
    ∃ u, below.heads = [u] ∧ u.extent.stop = stop

/-- The symbol ends where it should. -/
def Ended (lines : List (List Char)) (outer : List Rule) (s : Symbol) (below : Forest Symbol) :
    Prop :=
  (s.rule.terminators ≠ [] → EndsAt lines (enders (s.rule :: outer)) s.markStop s.extent.stop) ∧
    (s.rule = .var → s.EndsWithRow lines below s.extent.stop)

end Symbol

theorem LineContext.markStop_symbol (ctx : LineContext) (r : Rule) (m : Mark) :
    (ctx.symbol r m).markStop = (ctx.symbol r m).extent.stop := by
  simp [Symbol.markStop, symbol, Span.extent, Extent.onLine, Span.start, Span.stop]

theorem Rule.terminators_of_isLeaf {r : Rule} (h : r.isLeaf = true) :
    r.terminators = [] ∧ r ≠ .var := by
  cases r <;> simp_all [isLeaf, children, terminators]

/-- What closes because it is full has no terminators. -/
theorem Frame.terminators_of_full {f : Frame} {frames : List Frame}
    (h : Draft.Innermost Frame.isFull (f :: frames)) : f.rule.terminators = [] := by
  obtain ⟨g, rest, hg, hfull⟩ := h
  cases hg
  rw [isFull, Option.any_eq_true] at hfull
  obtain ⟨n, hn, -⟩ := hfull
  rw [(Rule.maxChildren_eq_some_iff.1 hn).1]
  rfl

/-- What closes with its line has no terminators. -/
theorem Frame.terminators_of_implicit {f : Frame} {frames : List Frame}
    (h : Draft.Innermost Frame.isImplicit (f :: frames)) : f.rule.terminators = [] := by
  obtain ⟨g, rest, hg, himplicit⟩ := h
  cases hg
  exact List.isEmpty_iff.1 himplicit

/-- A variable with room holds nothing. -/
theorem Frame.below_of_var {f : Frame} (hroom : f.isFull = false) (hvar : f.rule = .var) :
    f.below = .nil := by
  have hlt := isFull_eq_false_iff.1 hroom 1 (Rule.maxChildren_eq_some_iff.2 ⟨hvar, rfl⟩)
  cases h : f.below with
  | nil => rfl
  | node a below beside =>
      rw [h, Forest.width] at hlt
      omega

namespace Draft

variable {lines : List (List Char)} {place place' stop : Position} {d : Draft}

/-- Since the mark of each frame, nothing that ends the frame has come up to `place`. -/
def Awaited (lines : List (List Char)) (place : Position) : List Frame → Prop
  | [] => True
  | f :: frames =>
    f.symbol.extent.stop = f.symbol.markStop ∧ f.symbol.markStop ≤ place ∧
      NoHit lines (enders (rules (f :: frames))) f.symbol.markStop place ∧
      Awaited lines place frames

theorem awaited_hang (h : Awaited lines place d.frames) (done : Forest Symbol) :
    Awaited lines place (d.hang done).frames := by
  obtain ⟨frames, roots⟩ := d
  cases frames with
  | nil => trivial
  | cons f frames => exact h

/-- The wait goes on where nothing that ends the innermost frame comes. -/
theorem Awaited.extend {frames : List Frame} (hchained : Chained frames) (hle : place ≤ place')
    (hno : NoHit lines (enders (rules frames)) place place') (h : Awaited lines place frames) :
    Awaited lines place' frames := by
  induction frames with
  | nil => trivial
  | cons f frames ih =>
      obtain ⟨hstop, hmark, hnone, hrest⟩ := h
      refine ⟨hstop, le_trans hmark hle, hnone.trans hno, ih hchained.2.2.2 ?_ hrest⟩
      exact hno.subset fun t ht => hchained.mem_enders_cons ht

/-- What ends some of the open constructs from the outside ends them all. -/
theorem Chained.mem_enders_suffix {frames : List Frame} (h : Chained frames) {rs : List Rule}
    (hrs : rs <:+ rules frames) {t : Terminator} (ht : t ∈ enders rs) :
    t ∈ enders (rules frames) := by
  induction frames with
  | nil => rwa [List.suffix_nil.1 hrs] at ht
  | cons f frames ih =>
      rcases List.suffix_cons_iff.1 hrs with heq | hsuffix
      · rwa [heq] at ht
      · exact h.mem_enders_cons (ih h.2.2.2 hsuffix)

/-- The frames of the draft may close at `stop`, one after the other: all that is closed ends where
it should, and so does a variable that is next to close. -/
structure Closable (lines : List (List Char)) (place stop : Position) (d : Draft) : Prop where
  lawful : d.Lawful
  within : d.Within (OnLines lines) stop.next
  awaited : Awaited lines place d.frames
  kept : Kept (Symbol.Ended lines) d.roots d.frames
  ready : ∀ f frames, d.frames = f :: frames → f.rule = .var →
    f.symbol.EndsWithRow lines f.below stop

/-- A frame closes well at a place where its terminators end it. -/
theorem pop_closable (hreal : OnLines lines stop) (h : d.Closable lines place stop)
    (hends : ∀ f frames, d.frames = f :: frames → f.rule.terminators ≠ [] →
      EndsAt lines (enders (rules (f :: frames))) f.symbol.markStop stop) :
    (d.pop stop).Closable lines place stop := by
  obtain ⟨frames, roots⟩ := d
  cases frames with
  | nil => exact h
  | cons f frames =>
      obtain ⟨hrule, -, -, -⟩ := h.lawful.chained
      have hroomy := (h.lawful.fits f frames rfl).2
      have hstop := Stacked.stop_extendTo h.within
      refine ⟨pop_lawful stop _ h.lawful, pop_within hreal _ h.within, ?_, ?_, ?_⟩
      · exact awaited_hang (d := ⟨frames, roots⟩) h.awaited.2.2.2 _
      · refine pop_kept h.kept fun g rest hg => ?_
        obtain ⟨rfl, rfl⟩ := List.cons.inj hg
        refine ⟨hrule, ?_, ?_⟩
        · rw [Symbol.rule_extendTo, hrule, hstop]
          exact hends f frames rfl
        · rw [Symbol.rule_extendTo, hrule, hstop]
          exact h.ready f frames rfl
      · intro g rest hg hvar
        cases frames with
        | nil => simp [pop, hang] at hg
        | cons g' rest' =>
            simp only [pop, hang, List.cons.injEq] at hg
            obtain ⟨rfl, rfl⟩ := hg
            have hnil := Frame.below_of_var (hroomy g' (by simp)) hvar
            refine Or.inr ⟨f.symbol.extendTo stop, ?_, hstop⟩
            simp only [Frame.add, hnil]
            rfl

/-- Frames that have no terminators close well. -/
theorem ClosesBy.closable {R : List Frame → Prop} {d' : Draft} (hd : ClosesBy R stop d d')
    (hreal : OnLines lines stop)
    (hR : ∀ {f : Frame} {frames : List Frame}, R (f :: frames) → f.rule.terminators = [])
    (h : d.Closable lines place stop) : d'.Closable lines place stop := by
  refine hd.preserves (fun e hreason he => pop_closable hreal he fun f frames hf hne => ?_) h
  rw [hf] at hreason
  exact absurd (hR hreason) hne

end Draft

/-! ### Every state -/

theorem Span.Ahead.position_le {s : Span} {c : Cursor} (h : s.Ahead c) (n : Nat) :
    c.position n ≤ s.after.position n := by
  rw [Span.position_after, Cursor.position, Position.mk_le_mk]
  exact Nat.le_trans h.start_ge (Nat.le_add_right _ _)

/-- Reading goes on where it is or further on. -/
theorem LineContext.position_le_step {ctx : LineContext} {d : Draft} {c : Cursor}
    {x : Draft × Cursor} (hx : ctx.step? d c = some x) (n : Nat) :
    c.position n ≤ x.2.position n := by
  rcases step?_cases hx with ⟨k, hk, rfl⟩ | ⟨r, m, he, rfl⟩
  · obtain ⟨t, hfind, -, -⟩ := Draft.closing?_terminator hk
    simp only
    split
    · exact le_refl _
    · exact (Terminator.ahead_find hfind).position_le n
  · exact (Opening.ahead_find (Draft.opening?_spec (Draft.next?_add he)).2).position_le n

namespace Reached

variable {lines : List (List Char)} {n : Nat} {d : Draft} {c : Cursor}

/-- Behind the mark of a variable, nothing closes it but its format and the end of its line. -/
theorem ne_var_of_closing? (h : Reached lines n d c) {k : Closing} (hk : d.closing? c = some k) :
    ∀ f frames, d.frames = f :: frames → f.rule ≠ .var := by
  intro f frames hframes hvar
  -- The variable stands on the line, so the cursor is behind column zero.
  have hleft : c.left ≠ [] := fun hnil => h.ne_var_of_left_nil hnil hframes hvar
  -- A boundary is found in column zero only, and a variable has no terminators.
  obtain ⟨i, g, t, hg, ht, hb, hfind, -, -⟩ := Draft.mem_closingsFrom.1 (mem_of_earliest hk)
  rcases hb with hzero | hb
  · obtain rfl : i = 0 := by omega
    rw [hframes] at hg
    cases hg
    rw [hvar] at ht
    cases ht
  · exact hleft (Terminator.left_find_boundary hb hfind).1

/-- Frames close well where the reader closes them. -/
theorem close_closable (h : Reached lines n d c)
    (hawaited : Draft.Awaited lines (c.position n) d.frames)
    (hkept : Draft.Kept (Symbol.Ended lines) d.roots d.frames) {k : Closing}
    (hk : d.closing? c = some k) :
    (d.close k.count ((contextOf lines n).closePosition k)).Closable lines (c.position n)
      ((contextOf lines n).closePosition k) := by
  obtain ⟨hwithin, hreal⟩ := h.close_within hk
  obtain ⟨i, r, t, hr, ht, hb, hcount, hfirst, hstop⟩ := h.first_of_closing? hk
  have hclosable : d.Closable lines (c.position n) ((contextOf lines n).closePosition k) :=
    ⟨h.lawful, hwithin, hawaited, hkept,
      fun f frames hf hvar => absurd hvar (h.ne_var_of_closing? hk f frames hf)⟩
  refine (d.close_closesBy k.count _).preserves (fun e hreason he => ?_) hclosable
  refine Draft.pop_closable hreal he fun f frames hf hne => ?_
  rw [hf] at hreason
  rcases hreason with hfull | ⟨j, hj, hrules⟩
  · exact absurd (Frame.terminators_of_full hfull) hne
  · -- Frames up to the one that the hit belongs to close, and the hit is the first for each.
    have hawait := he.awaited
    rw [hf] at hawait
    have hmem : t ∈ enders (Draft.rules (f :: frames)) := by
      rw [hrules]
      exact mem_enders_drop hr ht hb (by omega)
    have hsub : ∀ t' ∈ enders (Draft.rules (f :: frames)), t' ∈ enders (Draft.rules d.frames) :=
      fun t' ht' => h.lawful.chained.mem_enders_suffix (hrules ▸ List.drop_suffix j _) ht'
    exact Or.inl ⟨⟨t, n, k.span⟩, hfirst.extend hsub hmem hawait.2.1 hawait.2.2.1, hstop.symm⟩

/-- A construct that is over as soon as it is read closes what it fills. -/
theorem leaf_closable (h : Reached lines n d c)
    (hawaited : Draft.Awaited lines (c.position n) d.frames)
    (hkept : Draft.Kept (Symbol.Ended lines) d.roots d.frames) {r : Rule} {m : Mark}
    (hopening : d.opening? c = some (r, m)) (hleaf : r.isLeaf = true) :
    (d.hang (.single ((contextOf lines n).symbol r m))).Closable lines (c.position n)
      ((contextOf lines n).symbol r m).extent.stop := by
  obtain ⟨hr, hfind⟩ := Draft.opening?_spec hopening
  obtain ⟨hplaced, hfloor⟩ := h.mark_placed hfind
  have hrule : ((contextOf lines n).symbol r m).rule = r := LineContext.rule_symbol hfind
  obtain ⟨hnone, hnot⟩ := Rule.terminators_of_isLeaf hleaf
  refine ⟨Draft.hang_single_lawful h.lawful h.roomy (by rwa [hrule]),
    Draft.hang_single_within h.within hplaced hfloor, Draft.awaited_hang hawaited _,
    Draft.hang_kept hkept ⟨⟨?_, ?_⟩, trivial, trivial⟩, ?_⟩
  · intro hne
    rw [hrule] at hne
    exact absurd hnone hne
  · intro hvar
    exact absurd (hrule.symm.trans hvar) hnot
  · intro f frames hf hvar
    obtain ⟨frames', roots⟩ := d
    cases frames' with
    | nil => simp [Draft.hang] at hf
    | cons g rest =>
        simp only [Draft.hang, List.cons.injEq] at hf
        obtain ⟨rfl, rfl⟩ := hf
        have hnil := Frame.below_of_var (h.roomy g (by simp)) hvar
        refine Or.inr ⟨_, ?_, rfl⟩
        simp only [Frame.add, hnil]
        rfl

/-- At the end of its line a variable closes well. -/
theorem edge_closable (h : Reached lines n d c)
    (hawaited : Draft.Awaited lines (c.position n) d.frames)
    (hkept : Draft.Kept (Symbol.Ended lines) d.roots d.frames) :
    d.Closable lines (c.position n) (edgeBefore lines (n + 1)) := by
  refine ⟨h.lawful, h.within_edge.1, hawaited, hkept, fun f frames hf hvar => Or.inl ⟨?_, ?_⟩⟩
  · exact Frame.below_of_var (h.roomy f (by simp [hf])) hvar
  · rw [h.var_line f frames hf hvar]

/-- In every state, what is closed ends where it should, and what is open still waits for its
end. -/
theorem timely (h : Reached lines n d c) :
    Draft.Awaited lines (c.position n) d.frames ∧
      Draft.Kept (Symbol.Ended lines) d.roots d.frames := by
  induction h with
  | first => exact ⟨trivial, trivial⟩
  | @event n d c x h hx ih =>
      obtain ⟨hawaited, hkept⟩ := ih
      have hle := LineContext.position_le_step hx n
      rcases LineContext.step?_cases hx with ⟨k, hk, rfl⟩ | ⟨r, m, he, rfl⟩
      · have hclosed := h.close_closable hawaited hkept hk
        exact ⟨hclosed.awaited.extend hclosed.lawful.chained hle (h.noHit_of_close hk _),
          hclosed.kept⟩
      · have hopening := Draft.next?_add he
        have hfind := (Draft.opening?_spec hopening).2
        have hno := h.noHit_of_add he
        rcases d.add_cases_by r ((contextOf lines n).symbol r m) with ⟨hleaf, hadd⟩ | ⟨-, hadd⟩
        · have hclosed := hadd.closable (h.mark_placed hfind).1.stop_real
            Frame.terminators_of_full (h.leaf_closable hawaited hkept hopening hleaf)
          refine ⟨hclosed.awaited.extend hclosed.lawful.chained hle ?_, hclosed.kept⟩
          exact hno.subset fun t ht =>
            h.lawful.chained.mem_enders_suffix (d.rules_add_leaf hleaf _) ht
        · simp only [hadd]
          have hstop := (contextOf lines n).markStop_symbol r m
          have hplace : m.whole.after.position n
              = ((contextOf lines n).symbol r m).extent.stop := m.whole.position_after n
          refine ⟨⟨hstop.symm, ?_, ?_, hawaited.extend h.lawful.chained hle hno⟩, trivial, hkept⟩
          · rw [hplace, hstop]
          · rw [hplace, hstop]
            exact NoHit.refl _ _ _
  | @line n d c next h hend _ ih =>
      obtain ⟨hawaited, hkept⟩ := ih
      have hnone := (Draft.next?_eq_none_iff.1 (Option.map_eq_none_iff.1 hend)).1
      have hclosed := (d.breakLine_closesBy (edgeBefore lines (n + 1))).closable h.within_edge.2
        Frame.terminators_of_implicit (h.edge_closable hawaited hkept)
      refine ⟨hclosed.awaited.extend hclosed.lawful.chained (Or.inl (Nat.lt_succ_self n)) ?_,
        hclosed.kept⟩
      exact (h.noHit_of_closing?_none hnone).subset fun t ht =>
        h.lawful.chained.mem_enders_suffix (d.rules_breakLine _) ht

end Reached

/-! ### Every text -/

/-- **Every symbol of a text ends where it should.** -/
theorem parseChars_ended (text : List Char) :
    (parseChars text).Every (Symbol.Ended (contentLines text)) [] := by
  obtain ⟨n, d, c, h, hend, hlen, hparse⟩ := parseChars_reached text
  obtain ⟨hawaited, hkept⟩ := h.timely
  have hnone := (Draft.next?_eq_none_iff.1 (Option.map_eq_none_iff.1 hend)).1
  have hclosable := h.edge_closable hawaited hkept
  have hclosed := (d.finish_closesTo (edgeBefore (contentLines text) (n + 1))).preserves
    (Q := fun e => Draft.rules e.frames <:+ Draft.rules d.frames ∧
      e.Closable (contentLines text) (c.position n) (edgeBefore (contentLines text) (n + 1)))
    (fun e he => ?_) ⟨List.suffix_refl _, hclosable⟩
  · rw [hparse]
    exact hclosed.2.kept
  · obtain ⟨hrules, he⟩ := he
    refine ⟨(e.rules_pop _).trans hrules, Draft.pop_closable h.within_edge.2 he ?_⟩
    intro f frames hf _
    have hawait := he.awaited
    rw [hf] at hawait hrules
    refine Or.inr ⟨fun hit hs ht hle => ?_, by rw [hlen]⟩
    -- There is no line on which the hit could stand.
    have hpast : (⟨n + 1, 0⟩ : Position) ≤ hit.start :=
      h.noHit_of_closing?_none hnone hit hs
        (h.lawful.chained.mem_enders_suffix hrules ht) (hawait.2.2.1 hit hs ht hle)
    obtain ⟨line, hline, -⟩ := hs
    have hlt := (List.getElem?_eq_some_iff.1 hline).1
    have hge : n + 1 ≤ hit.line := by
      rcases hpast with hlt | ⟨heq, -⟩
      · exact Nat.le_of_lt hlt
      · exact Nat.le_of_eq heq
    omega

namespace SymbolTree

/-- All extents of the tree end where they should. -/
structure EndsWell (lines : List (List Char)) (t : SymbolTree) : Prop where
  /-- A symbol whose rule has terminators ends at the first hit, behind its mark, of one of these or
  of a boundary of the symbols around it, and with the text if there is none. -/
  terminated : ∀ i s, t.get? i = some s → s.rule.terminators ≠ [] →
    EndsAt lines (enders (s.rule :: t.outerRules i)) s.markStop s.extent.stop
  /-- A variable ends with its format, and with its line if it has none. -/
  unterminated : ∀ i s, t.get? i = some s → s.kind = .var →
    t.children i = [] ∧ s.extent.stop = edgeBefore lines (s.extent.start.line + 1) ∨
      ∃ c u, t.children i = [c] ∧ t.get? c = some u ∧ u.kind = .editMask ∧
        s.extent.stop = u.extent.stop

end SymbolTree

/-- **Every extent ends exactly at its first terminator.** -/
theorem parse_extents_end (file : FileId) (text : String) :
    (parse file text).EndsWell (contentLines text.toList) := by
  have hended : (parse file text).forest.Every (Symbol.Ended (contentLines text.toList)) [] :=
    parseChars_ended text.toList
  refine ⟨?_, ?_⟩
  · intro i s hs
    obtain ⟨below, -, -, hends, -⟩ := SymbolTree.every_get? hended hs
    exact hends
  · intro i s hs hkind
    have hrule : s.rule = .var := by rw [Symbol.rule, hkind]
    obtain ⟨below, hsits, hchildren, -, hvar⟩ := SymbolTree.every_get? hended hs
    rcases hvar hrule with ⟨hnil, hstop⟩ | ⟨u, hheads, hstop⟩
    · refine Or.inl ⟨?_, hstop⟩
      rw [hchildren, hnil]
      rfl
    · refine Or.inr ?_
      have hmap := SymbolTree.get?_rootIds below (i + 1) (some i) hsits
      rw [hheads, List.map_singleton, ← hchildren] at hmap
      obtain ⟨c, hc, hget⟩ := List.map_eq_singleton_iff.1 hmap
      obtain ⟨u', hu', hmem⟩ := SymbolTree.rule_mem_children (parseChars_lawful text.toList) hs
        (c := c) (by rw [hc]; simp)
      rw [hget] at hu'
      cases hu'
      refine ⟨c, u, hc, hget, ?_, hstop.symm⟩
      rw [hrule] at hmem
      rw [← u.kind_rule]
      simp only [Rule.children, List.mem_cons, List.not_mem_nil, or_false] at hmem
      rcases hmem with hr | hr | hr <;> rw [hr] <;> rfl

end OverlayIndex
