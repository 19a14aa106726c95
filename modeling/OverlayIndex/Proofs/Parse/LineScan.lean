/-
Reading a line comes to an end.

A boundary closes frames and stays where it is, while a construct that opens adds a frame, so neither
the text that is left nor the number of open constructs goes down in every round.  But a round that
does not move on closes something, and one that does moves on by at least a character, since neither
marks nor terminators are ever empty.  So the bytes that are left and then the number of open
constructs, compared in this order, go down every time.  This holds for whatever constructs are open,
also for those that no text would open inside each other.
-/
import OverlayIndex.Proofs.Parse.Ledger

namespace OverlayIndex

/-- Moving on behind a stretch ahead is moving to the right, unless the stretch is empty. -/
theorem Span.Ahead.left_lt_after {s : Span} {c : Cursor} (h : s.Ahead c) (hne : s.text ≠ []) :
    byteLength c.left < byteLength s.after.left := by
  have hstart := h.start_ge
  have hstop := Span.start_lt_stop hne
  rw [Span.byteLength_after]
  omega

/-- **An event moves on to the right, or it stays where it is and closes a frame.** -/
theorem LineContext.step_progress {ctx : LineContext} {d : Draft} {c : Cursor} {x : Draft × Cursor}
    (hx : ctx.step? d c = some x) :
    byteLength c.left < byteLength x.2.left ∨ x.2 = c ∧ x.1.frames.length < d.frames.length := by
  rcases step?_cases hx with ⟨k, hk, rfl⟩ | ⟨r, m, he, rfl⟩
  · by_cases hboundary : k.boundary = true
    · obtain ⟨hpos, hcount, -⟩ := Draft.closing?_spec hk
      have hlength := d.length_close k.count (ctx.closePosition k)
      refine Or.inr ⟨if_pos hboundary, ?_⟩
      show (d.close k.count (ctx.closePosition k)).frames.length < _
      omega
    · obtain ⟨t, hfind, -, -⟩ := Draft.closing?_terminator hk
      refine Or.inl ?_
      simp only [if_neg hboundary]
      exact (Terminator.ahead_find hfind).left_lt_after (Terminator.text_ne_nil_find hfind)
  · have hfind := (Draft.opening?_spec (Draft.next?_add he)).2
    exact Or.inl ((Opening.ahead_find hfind).left_lt_after
      (Opening.framed_find r.consumes_name hfind).whole_nonempty)

namespace Ledger

/-- So many rounds lead from one ledger and column to another. -/
inductive Runs (ctx : LineContext) (line : List Char) : Nat → Ledger × Nat → Ledger × Nat → Prop
  | done (x : Ledger × Nat) : Runs ctx line 0 x x
  | round {n : Nat} {x y z : Ledger × Nat} (h : round? ctx line x.1 x.2 = some (some y))
      (hrest : Runs ctx line n y z) : Runs ctx line (n + 1) x z

variable {ctx : LineContext} {file : FileId}

/-- Rounds on the ledger of a draft lead to ledgers of drafts, and to places of the line. -/
theorem Runs.exists_draft {line : List Char} {n : Nat} {x y : Ledger × Nat}
    (h : Runs ctx line n x y)
    (hx : ∃ (d : Draft) (c : Cursor), x = (ofDraft file d, byteLength c.left) ∧ c.line = line) :
    ∃ (d : Draft) (c : Cursor), y = (ofDraft file d, byteLength c.left) ∧ c.line = line := by
  induction h with
  | done x => exact hx
  | @round n x y z hround _ ih =>
      obtain ⟨d, c, rfl, rfl⟩ := hx
      rw [round?_ofDraft, Option.some.injEq, Option.map_eq_some_iff] at hround
      obtain ⟨next, hnext, rfl⟩ := hround
      exact ih ⟨next.1, next.2, rfl, LineContext.line_step hnext⟩

/-- Rounds lead to the end of the line in as many steps as `pending` allows for. -/
theorem exists_runs_scan (file : FileId) (ctx : LineContext) :
    ∀ (d : Draft) (c : Cursor), ∃ n offset, n ≤ d.pending c ∧
      Runs ctx c.line n (ofDraft file d, byteLength c.left) (ofDraft file (ctx.scan d c), offset) ∧
      round? ctx c.line (ofDraft file (ctx.scan d c)) offset = some none := by
  refine ctx.event_induction fun d c ih => ?_
  have hround := round?_ofDraft file ctx d c
  rw [LineContext.scan_eq]
  cases hx : ctx.step? d c with
  | none =>
      rw [hx] at hround
      exact ⟨0, byteLength c.left, Nat.zero_le _, .done _, hround⟩
  | some x =>
      rw [hx] at hround
      obtain ⟨n, offset, hn, hruns, hend⟩ := ih x hx
      have hpending := LineContext.pending_step? hx
      rw [LineContext.line_step hx] at hruns hend
      exact ⟨n + 1, offset, by omega, .round hround hruns, hend⟩

/-- **Reading a line comes to an end**, whatever constructs are open.  No round fails, so every number
of a rule or a symbol and every column stands for something.  Each round that does anything moves on
to a later place of the line, or stays and closes a construct, so the bytes that are left and the
number of open constructs go down in this order. -/
theorem line_scan_ends (file : FileId) (ctx : LineContext) (d : Draft) (line : List Char) :
    (∃ n offset, n ≤ 2 * line.length + d.frames.length ∧
      Runs ctx line n (ofDraft file d, 0) (ofDraft file (ctx.scan d (.ofLine line)), offset) ∧
      round? ctx line (ofDraft file (ctx.scan d (.ofLine line))) offset = some none) ∧
    ∀ n l offset, Runs ctx line n (ofDraft file d, 0) (l, offset) →
      (cutAtByte offset line).isSome ∧ (round? ctx line l offset).isSome ∧
      ∀ l' offset', round? ctx line l offset = some (some (l', offset')) →
        (offset < offset' ∧ offset' ≤ byteLength line ∧ (cutAtByte offset' line).isSome ∨
          offset' = offset ∧ l'.stack.length < l.stack.length) ∧
        Prod.Lex (· < ·) (· < ·) (byteLength line - offset', l'.stack.length)
          (byteLength line - offset, l.stack.length) := by
  refine ⟨exists_runs_scan file ctx d (.ofLine line), fun n l offset hruns => ?_⟩
  obtain ⟨d', c, hstate, rfl⟩ := hruns.exists_draft ⟨d, .ofLine line, rfl, rfl⟩
  obtain ⟨rfl, rfl⟩ := Prod.mk.inj hstate
  rw [round?_ofDraft, cutAtByte_line]
  refine ⟨rfl, rfl, fun l' offset' hround => ?_⟩
  rw [Option.some.injEq, Option.map_eq_some_iff] at hround
  obtain ⟨x, hx, hnext⟩ := hround
  obtain ⟨rfl, rfl⟩ := Prod.mk.inj hnext
  have hcut := cutAtByte_line x.2
  have hlength : byteLength x.2.left ≤ byteLength x.2.line := by
    simp [Cursor.line]
  rw [LineContext.line_step hx] at hcut hlength
  have hheight : ∀ d : Draft, (ofDraft file d).stack.length = d.frames.length :=
    fun d => length_slotsOf
  rw [hheight, hheight, hcut]
  rcases LineContext.step_progress hx with hmoves | ⟨hstays, hcloses⟩
  · exact ⟨Or.inl ⟨hmoves, hlength, rfl⟩, .left _ _ (by omega)⟩
  · rw [hstays]
    exact ⟨Or.inr ⟨rfl, hcloses⟩, .right _ hcloses⟩

/-- A boundary of the outermost of three constructs, of which no text would open the first in the
second, stays in column zero and closes them. -/
theorem boundary_round_stays_and_closes :
    ∃ l, round? ⟨1, ⟨0, 4⟩⟩ "$NAME B".toList (ofDraft ⟨0⟩ (.ofRules [.proc, .var, .name])) 0 =
      some (some (l, 0)) ∧ l.stack.length < 3 := by
  have hround : (round? ⟨1, ⟨0, 4⟩⟩ "$NAME B".toList
      (ofDraft ⟨0⟩ (.ofRules [.proc, .var, .name])) 0).map (Option.map Prod.snd) =
        some (some 0) := by
    decide +kernel
  obtain ⟨next, hnext, hsnd⟩ := Option.map_eq_some_iff.1 hround
  obtain ⟨⟨l, offset⟩, rfl, rfl⟩ := Option.map_eq_some_iff.1 hsnd
  refine ⟨l, hnext, ?_⟩
  have hrounds :=
    (line_scan_ends ⟨0⟩ ⟨1, ⟨0, 4⟩⟩ (.ofRules [.proc, .var, .name]) "$NAME B".toList).2
  rcases ((hrounds 0 _ 0 (.done _)).2.2 l 0 hnext).1 with ⟨hmoves, -⟩ | ⟨-, hcloses⟩
  · exact absurd hmoves (Nat.lt_irrefl 0)
  · exact hcloses

end Ledger

end OverlayIndex
