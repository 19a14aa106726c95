/-
Reading further down.

A text that is read from a later line on, with something already read before it, gives what it
gives by itself: the same events happen at the same columns, every position is lower by the
same number of lines, and what was read before stays in front.  `Draft.behind` is a draft seen
this way; it is a change of symbols and so passes through every function of the reader.  The one
position that a line takes from outside is the end of the line before it, and on the first line of
a text nothing looks at that.
-/
import OverlayIndex.Proofs.Parse.Laminar
import OverlayIndex.Proofs.Parse.Recast

namespace OverlayIndex

/-- The position that many lines further down. -/
def Position.down (k : Nat) (p : Position) : Position :=
  ⟨p.line + k, p.col⟩

theorem Position.down_le_down {k : Nat} {p q : Position} : p.down k ≤ q.down k ↔ p ≤ q := by
  simp only [le_def, down]
  omega

theorem Position.down_max (k : Nat) (p q : Position) :
    (max p q).down k = max (p.down k) (q.down k) := by
  rw [max_def, max_def]
  by_cases h : p ≤ q
  · rw [if_pos h, if_pos (down_le_down.2 h)]
  · rw [if_neg h, if_neg (fun hc => h (down_le_down.1 hc))]

/-- The extent that many lines further down. -/
def Extent.down (k : Nat) (e : Extent) : Extent :=
  ⟨e.start.down k, e.stop.down k⟩

/-- The symbol that many lines further down. -/
def Symbol.down (k : Nat) (s : Symbol) : Symbol :=
  { s with extent := s.extent.down k, selection := s.selection.down k }

theorem Symbol.down_extendTo (k : Nat) (s : Symbol) (p : Position) :
    (s.extendTo p).down k = (s.down k).extendTo (p.down k) := by
  simp only [extendTo, down, Extent.extendTo, Extent.down, Position.down_max]

/-- Going further down, as a change of symbols. -/
def Recasting.down (k : Nat) : Recasting :=
  ⟨Symbol.down k, Position.down k, Symbol.down_extendTo k, fun _ => rfl⟩

/-- The frame that many lines further down. -/
def Frame.down (k : Nat) (f : Frame) : Frame :=
  ⟨f.rule, f.symbol.down k, f.below.map (Symbol.down k)⟩

namespace Draft

variable {k : Nat} {front : Forest Symbol}

/-- The draft that many lines further down, with other roots in front. -/
def behind (front : Forest Symbol) (k : Nat) (d : Draft) : Draft :=
  ⟨d.frames.map (Frame.down k), front ++ d.roots.map (Symbol.down k)⟩

theorem close_behind (d : Draft) (n : Nat) (stop : Position) :
    (d.behind front k).close n (stop.down k) = (d.close n stop).behind front k :=
  d.close_recast (.down k) front n stop

theorem breakLine_behind (d : Draft) (stop : Position) :
    (d.behind front k).breakLine (stop.down k) = (d.breakLine stop).behind front k :=
  d.breakLine_recast (.down k) front stop

theorem finish_behind (d : Draft) (stop : Position) :
    (d.behind front k).finish (stop.down k) = front ++ (d.finish stop).map (Symbol.down k) :=
  d.finish_recast (.down k) front stop

theorem add_behind (d : Draft) (r : Rule) (s : Symbol) :
    (d.behind front k).add r (s.down k) = (d.add r s).behind front k :=
  d.add_recast (.down k) front r s

theorem next?_behind (d : Draft) (c : Cursor) : (d.behind front k).next? c = d.next? c :=
  d.next?_recast (.down k) front c

end Draft

/-- The line that many lines further down. -/
def LineContext.down (k : Nat) (ctx : LineContext) : LineContext :=
  ⟨ctx.number + k, ctx.edge.down k⟩

namespace LineContext

variable {k : Nat} {front : Forest Symbol}

theorem closePosition_down (ctx : LineContext) (e : Closing) :
    (ctx.down k).closePosition e = (ctx.closePosition e).down k := by
  rw [closePosition, closePosition]
  split
  · split <;> rfl
  · rfl

theorem step?_behind (ctx : LineContext) (d : Draft) (c : Cursor) :
    (ctx.down k).step? (d.behind front k) c
      = (ctx.step? d c).map fun x => (x.1.behind front k, x.2) := by
  rw [step?, step?, Draft.next?_behind, Option.map_map]
  refine congrArg (fun g => (d.next? c).map g) (funext fun e => ?_)
  cases e with
  | close e =>
      simp only [apply, Function.comp_apply, closePosition_down, Draft.close_behind]
  | add r m =>
      simp only [apply, Function.comp_apply, ← Draft.add_behind]
      rfl

theorem scan_behind (ctx : LineContext) :
    ∀ (d : Draft) (c : Cursor),
      (ctx.down k).scan (d.behind front k) c = (ctx.scan d c).behind front k := by
  refine ctx.event_induction fun d c ih => ?_
  rw [scan_eq, scan_eq, step?_behind]
  cases hx : ctx.step? d c with
  | none => rfl
  | some x => exact ih x hx

/-- An event that starts with no frame in column zero does not look at the end of the line before,
and the cursor has left column zero after it. -/
theorem step?_edge (number : Nat) (edge edge' : Position) {d : Draft} {c : Cursor}
    (h : c.left = [] → d.frames = []) :
    step? ⟨number, edge⟩ d c = step? ⟨number, edge'⟩ d c ∧
      ∀ x, step? ⟨number, edge⟩ d c = some x → x.2.left ≠ [] := by
  have hclose : ∀ e, d.next? c = some (.close e) → e.boundary = false ∧ e.span.text ≠ [] := by
    intro e he
    obtain ⟨t, hfind, hb, hframes⟩ := Draft.closing?_terminator (Draft.next?_close he)
    refine ⟨?_, Terminator.text_ne_nil_find hfind⟩
    rw [hb, ← Bool.not_eq_true]
    exact fun ht => hframes (h (Terminator.left_find_boundary ht hfind).1)
  have hafter : ∀ s : Span, s.text ≠ [] → s.after.left ≠ [] := by
    intro s hs hnil
    simp [Span.after, hs] at hnil
  rw [step?, step?]
  cases he : d.next? c with
  | none => exact ⟨rfl, fun x hx => by cases hx⟩
  | some e =>
      cases e with
      | close e =>
          obtain ⟨hb, htext⟩ := hclose e he
          refine ⟨by simp [apply, closePosition, hb], ?_⟩
          rintro x ⟨⟩
          simpa [apply, hb] using hafter e.span htext
      | add r m =>
          have hfind := (Draft.opening?_spec (Draft.next?_add he)).2
          refine ⟨rfl, ?_⟩
          rintro x ⟨⟩
          exact hafter m.whole (Opening.framed_find r.consumes_name hfind).whole_nonempty

/-- A line that is read with nothing open does not look at the end of the line before. -/
theorem scan_edge (number : Nat) (edge edge' : Position) :
    ∀ (d : Draft) (c : Cursor), (c.left = [] → d.frames = []) →
      scan ⟨number, edge⟩ d c = scan ⟨number, edge'⟩ d c := by
  refine LineContext.event_induction ⟨number, edge⟩ fun d c ih h => ?_
  obtain ⟨hsame, hleft⟩ := step?_edge number edge edge' h
  rw [scan_eq, scan_eq ⟨number, edge'⟩, ← hsame]
  cases hx : step? ⟨number, edge⟩ d c with
  | none => rfl
  | some x => exact ih x hx (fun hnil => absurd hnil (hleft x hx))

end LineContext

namespace Draft

variable {k : Nat} {front : Forest Symbol}

theorem readLines_append :
    ∀ (lines more : List (List Char)) (d : Draft) (number : Nat) (edge : Position),
      d.readLines number edge (lines ++ more) =
        (d.readLines number edge lines).1.readLines (number + lines.length)
          (d.readLines number edge lines).2 more := by
  intro lines
  induction lines with
  | nil => intro more d number edge; rfl
  | cons line lines ih =>
      intro more d number edge
      rw [List.cons_append, readLines, readLines, ih, List.length_cons,
        show number + 1 + lines.length = number + (lines.length + 1) by omega]

theorem readLines_behind :
    ∀ (lines : List (List Char)) (d : Draft) (number : Nat) (edge : Position),
      (d.behind front k).readLines (number + k) (edge.down k) lines =
        ((d.readLines number edge lines).1.behind front k,
          (d.readLines number edge lines).2.down k) := by
  intro lines
  induction lines with
  | nil => intro d number edge; rfl
  | cons line lines ih =>
      intro d number edge
      rw [readLines, readLines, breakLine_behind, ← ih]
      show readLines (LineContext.scan (LineContext.down k ⟨number, edge⟩) _ _) _ _ _ = _
      rw [LineContext.scan_behind, show number + k + 1 = number + 1 + k by omega]
      rfl

end Draft

end OverlayIndex
