/-
Reading one line.

From a place on the line, the next event is the first mark of a construct that may open, or
the first terminator of an open one, whichever comes first; a terminator wins if both begin
in the same column.  The innermost frame offers all its terminators and the frames around it
only their boundaries.  A boundary closes frames and stays where it is, so that the construct
it belongs to can open there; every other event moves on behind its text.
-/
import OverlayIndex.Parse.Draft

namespace OverlayIndex

/-- The element with the least key, and of several the first. -/
def earliest {α : Type} (key : α → Nat) : List α → Option α
  | [] => none
  | a :: as =>
    match earliest key as with
    | none => some a
    | some b => if key b < key a then some b else some a

theorem mem_of_earliest {α : Type} {key : α → Nat} {as : List α} {a : α}
    (h : earliest key as = some a) : a ∈ as := by
  induction as generalizing a with
  | nil => simp [earliest] at h
  | cons x as ih =>
    rw [earliest] at h
    split at h
    · simp_all
    · rename_i b hb
      split at h
      · cases h
        exact List.mem_cons_of_mem _ (ih hb)
      · simp_all

/-- A terminator found on a line, and how many frames it closes. -/
structure Closing where
  count : Nat
  boundary : Bool
  span : Span
  deriving DecidableEq, Repr

/-- What happens next on a line. -/
inductive Event where
  | close (c : Closing)
  | add (rule : Rule) (mark : Mark)
  deriving DecidableEq, Repr

namespace Draft

/-- The terminators that frames offer from the cursor on, innermost frame first; `outside` frames
have been passed. -/
def closingsFrom (c : Cursor) (outside : Nat) : List Frame → List Closing
  | [] => []
  | f :: frames =>
    ((f.rule.terminators.filter fun t => outside = 0 || t.isBoundary).filterMap fun t =>
      (t.find c).map fun s => ⟨outside + 1, t.isBoundary, s⟩) ++
      closingsFrom c (outside + 1) frames

/-- The first terminator from the cursor on. -/
def closing? (d : Draft) (c : Cursor) : Option Closing :=
  earliest (·.span.start) (closingsFrom c 0 d.frames)

/-- The first mark from the cursor on of a construct that may open. -/
def opening? (d : Draft) (c : Cursor) : Option (Rule × Mark) :=
  earliest (·.2.whole.start) (d.permitted.filterMap fun r => (r.opening.find c).map (r, ·))

/-- What happens next from the cursor on. -/
def next? (d : Draft) (c : Cursor) : Option Event :=
  match d.closing? c, d.opening? c with
  | none, none => none
  | some k, none => some (.close k)
  | none, some (r, m) => some (.add r m)
  | some k, some (r, m) =>
    if k.span.start ≤ m.whole.start then some (.close k) else some (.add r m)

end Draft

/-- A line's number, and where a construct ends that does not reach the line: at the end of the
line before. -/
structure LineContext where
  number : Nat
  edge : Position
  deriving DecidableEq, Repr

namespace LineContext

/-- Where a terminator ends a construct. -/
def closePosition (ctx : LineContext) (k : Closing) : Position :=
  if k.boundary then
    if k.span.start = 0 then ctx.edge else ⟨ctx.number, k.span.start⟩
  else ⟨ctx.number, k.span.stop⟩

/-- The symbol of a construct whose mark stands on the line. -/
def symbol (ctx : LineContext) (rule : Rule) (mark : Mark) : Symbol where
  kind := rule.kind
  name := String.ofList mark.name.text
  detail := String.ofList mark.whole.text
  extent := mark.whole.extent ctx.number
  selection := mark.name.extent ctx.number

/-- What an event does, and where reading goes on. -/
def apply (ctx : LineContext) (d : Draft) (c : Cursor) : Event → Draft × Cursor
  | .close k => (d.close k.count (ctx.closePosition k), if k.boundary then c else k.span.after)
  | .add r m => (d.add r (ctx.symbol r m), m.whole.after)

/-- The next event, done. -/
def step? (ctx : LineContext) (d : Draft) (c : Cursor) : Option (Draft × Cursor) :=
  (d.next? c).map (ctx.apply d c)

end LineContext

/-- What is still to be done on a line: a bound on the number of events to come. -/
def Draft.pending (d : Draft) (c : Cursor) : Nat :=
  2 * c.right.length + d.frames.length

namespace Draft

/-- A terminator closes at least one frame, and no more than there are. -/
theorem count_closingsFrom {c : Cursor} {outside : Nat} {frames : List Frame} {k : Closing}
    (h : k ∈ closingsFrom c outside frames) :
    outside < k.count ∧ k.count ≤ outside + frames.length ∧
      k.span.right.length < c.right.length := by
  induction frames generalizing outside with
  | nil => simp [closingsFrom] at h
  | cons f frames ih =>
    rw [closingsFrom, List.mem_append] at h
    rcases h with h | h
    · simp only [List.mem_filterMap, Option.map_eq_some_iff] at h
      obtain ⟨t, -, s, hs, rfl⟩ := h
      refine ⟨Nat.lt_succ_self _, ?_, Terminator.length_find hs⟩
      simp only [List.length_cons]
      omega
    · obtain ⟨h₁, h₂, h₃⟩ := ih h
      refine ⟨Nat.lt_of_succ_lt h₁, ?_, h₃⟩
      rw [List.length_cons]
      omega

theorem closing?_spec {d : Draft} {c : Cursor} {k : Closing} (h : d.closing? c = some k) :
    0 < k.count ∧ k.count ≤ d.frames.length ∧ k.span.right.length < c.right.length := by
  simpa using count_closingsFrom (mem_of_earliest h)

theorem opening?_spec {d : Draft} {c : Cursor} {r : Rule} {m : Mark}
    (h : d.opening? c = some (r, m)) : r ∈ d.permitted ∧ r.opening.find c = some m := by
  have := mem_of_earliest h
  simp only [List.mem_filterMap, Option.map_eq_some_iff, Prod.mk.injEq] at this
  obtain ⟨r', hr, m', hm, rfl, rfl⟩ := this
  exact ⟨hr, hm⟩

theorem next?_close {d : Draft} {c : Cursor} {k : Closing} (h : d.next? c = some (.close k)) :
    d.closing? c = some k := by
  rw [next?] at h
  split at h
  · cases h
  · cases h; assumption
  · cases h
  · split at h
    · cases h; assumption
    · cases h

theorem next?_add {d : Draft} {c : Cursor} {r : Rule} {m : Mark}
    (h : d.next? c = some (.add r m)) : d.opening? c = some (r, m) := by
  rw [next?] at h
  split at h
  · cases h
  · cases h
  · cases h; assumption
  · split at h
    · cases h
    · cases h; assumption

end Draft

/-- Every event leaves less to be done: it moves on or closes a frame, and where it opens a frame
it moves on. -/
theorem LineContext.pending_step? {ctx : LineContext} {d : Draft} {c : Cursor}
    {x : Draft × Cursor} (h : ctx.step? d c = some x) : x.1.pending x.2 < d.pending c := by
  simp only [LineContext.step?, Option.map_eq_some_iff] at h
  obtain ⟨e, he, rfl⟩ := h
  cases e with
  | close k =>
    obtain ⟨h₁, h₂, h₃⟩ := Draft.closing?_spec (Draft.next?_close he)
    have hlen := d.length_close k.count (ctx.closePosition k)
    simp only [LineContext.apply, Draft.pending]
    split
    · omega
    · simp only [Span.after]
      omega
  | add r m =>
    have hm := (Draft.opening?_spec (Draft.next?_add he)).2
    have hlen := Opening.length_find r.consumes_name hm
    have hadd := d.length_add r (ctx.symbol r m)
    simp only [LineContext.apply, Draft.pending, Span.after]
    omega

/-- Reads the line from the cursor on. -/
def LineContext.scan (ctx : LineContext) (d : Draft) (c : Cursor) : Draft :=
  match h : ctx.step? d c with
  | none => d
  | some x =>
    have := LineContext.pending_step? h
    scan ctx x.1 x.2
termination_by d.pending c

end OverlayIndex
