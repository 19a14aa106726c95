/-
One event after the other.

The next event is the earliest of those on offer: `earliest_le` says that none comes before
it, and `mem_closingsFrom` what is on offer.  A line is read by doing events until there is
none left, so what every single event keeps, the whole line keeps (`scan_preserves`).
-/
import OverlayIndex.Proofs.Spans

namespace OverlayIndex

/-! ### The next event -/

theorem earliest_le {α : Type} {key : α → Nat} :
    ∀ {as : List α} {a : α}, earliest key as = some a → ∀ b ∈ as, key a ≤ key b := by
  intro as
  induction as with
  | nil => intro a h; simp [earliest] at h
  | cons x as ih =>
      intro a h b hb
      rw [earliest] at h
      split at h
      · rename_i hnone
        cases h
        rcases List.mem_cons.1 hb with rfl | hb
        · exact Nat.le_refl _
        · cases as with
          | nil => simp at hb
          | cons y as =>
              rw [earliest] at hnone
              split at hnone
              · cases hnone
              · split at hnone <;> cases hnone
      · rename_i y hy
        split at h
        · rename_i hlt
          cases h
          rcases List.mem_cons.1 hb with rfl | hb
          · exact Nat.le_of_lt hlt
          · exact ih hy b hb
        · rename_i hge
          cases h
          rcases List.mem_cons.1 hb with rfl | hb
          · exact Nat.le_refl _
          · have := ih hy b hb
            omega

theorem earliest_eq_none_iff {α : Type} {key : α → Nat} {as : List α} :
    earliest key as = none ↔ as = [] := by
  cases as with
  | nil => simp [earliest]
  | cons x as =>
      rw [earliest]
      constructor
      · intro h
        split at h
        · cases h
        · split at h <;> cases h
      · intro h
        cases h

/-- The terminators on offer are those of the innermost frame and the boundaries of the others. -/
theorem Draft.mem_closingsFrom {c : Cursor} {k : Closing} :
    ∀ {frames : List Frame} {outside : Nat}, k ∈ closingsFrom c outside frames ↔
      ∃ i f t, frames[i]? = some f ∧ t ∈ f.rule.terminators ∧
        (outside + i = 0 ∨ t.isBoundary = true) ∧ t.find c = some k.span ∧
        k.count = outside + i + 1 ∧ k.boundary = t.isBoundary := by
  intro frames
  induction frames with
  | nil => intro outside; simp [closingsFrom]
  | cons f frames ih =>
      intro outside
      rw [closingsFrom, List.mem_append, ih]
      constructor
      · rintro (h | ⟨i, g, t, hg, ht, hb, hf, hc, hk⟩)
        · simp only [List.mem_filterMap, List.mem_filter, Option.map_eq_some_iff,
            Bool.or_eq_true, decide_eq_true_eq] at h
          obtain ⟨t, ⟨ht, hb⟩, s, hs, rfl⟩ := h
          exact ⟨0, f, t, rfl, ht, hb, hs, rfl, rfl⟩
        · refine ⟨i + 1, g, t, by simpa using hg, ht, ?_, hf, by omega, hk⟩
          rcases hb with hb | hb
          · omega
          · exact Or.inr hb
      · rintro ⟨i, g, t, hg, ht, hb, hf, hc, hk⟩
        cases i with
        | zero =>
            refine Or.inl ?_
            simp only [List.getElem?_cons_zero, Option.some.injEq] at hg
            subst hg
            simp only [List.mem_filterMap, List.mem_filter, Option.map_eq_some_iff,
              Bool.or_eq_true, decide_eq_true_eq]
            refine ⟨t, ⟨ht, hb⟩, k.span, hf, ?_⟩
            cases k
            simp_all
        | succ i =>
            refine Or.inr ⟨i, g, t, by simpa using hg, ht, ?_, hf, by omega, hk⟩
            rcases hb with hb | hb
            · omega
            · exact Or.inr hb

/-- A closing comes from a terminator found ahead of the cursor, and there is a frame for it. -/
theorem Draft.closing?_terminator {d : Draft} {c : Cursor} {k : Closing}
    (h : d.closing? c = some k) :
    ∃ t : Terminator, t.find c = some k.span ∧ k.boundary = t.isBoundary ∧ d.frames ≠ [] := by
  obtain ⟨i, f, t, hf, -, -, hfind, -, hb⟩ := mem_closingsFrom.1 (mem_of_earliest h)
  refine ⟨t, hfind, hb, ?_⟩
  intro hnil
  rw [hnil] at hf
  simp at hf

/-- Nothing happens any more when nothing is left to close or to open. -/
theorem Draft.next?_eq_none_iff {d : Draft} {c : Cursor} :
    d.next? c = none ↔ d.closing? c = none ∧ d.opening? c = none := by
  rw [next?]
  cases d.closing? c with
  | none => cases d.opening? c <;> simp
  | some k =>
      cases d.opening? c with
      | none => simp
      | some x => simp only [reduceCtorEq, and_self, iff_false]; split <;> simp

/-- A construct opens only where nothing closes before it or in the same column. -/
theorem Draft.next?_add_lt {d : Draft} {c : Cursor} {r : Rule} {m : Mark}
    (h : d.next? c = some (.add r m)) :
    ∀ k, d.closing? c = some k → m.whole.start < k.span.start := by
  intro k hk
  have hm := next?_add h
  rw [next?, hk, hm] at h
  by_cases hle : k.span.start ≤ m.whole.start
  · simp only [if_pos hle, Option.some.injEq, reduceCtorEq] at h
  · exact Nat.lt_of_not_le hle

/-! ### Reading a line to its end -/

namespace LineContext

/-- An event closes frames at the first terminator, or adds the construct of the first mark. -/
theorem step?_cases {ctx : LineContext} {d : Draft} {c : Cursor} {x : Draft × Cursor}
    (hx : ctx.step? d c = some x) :
    (∃ k, d.closing? c = some k ∧
        x = (d.close k.count (ctx.closePosition k), if k.boundary then c else k.span.after)) ∨
      ∃ r m, d.next? c = some (.add r m) ∧ x = (d.add r (ctx.symbol r m), m.whole.after) := by
  rw [step?, Option.map_eq_some_iff] at hx
  obtain ⟨e, he, rfl⟩ := hx
  cases e with
  | close k => exact Or.inl ⟨k, Draft.next?_close he, rfl⟩
  | add r m => exact Or.inr ⟨r, m, he, rfl⟩

theorem scan_eq (ctx : LineContext) (d : Draft) (c : Cursor) :
    ctx.scan d c = ((ctx.step? d c).map fun x => ctx.scan x.1 x.2).getD d := by
  rw [scan]
  split
  · rename_i h; simp [h]
  · rename_i x h; simp [h]

/-- To show something of a draft and a cursor, it may be assumed of what the next event leaves. -/
theorem event_induction (ctx : LineContext) {P : Draft → Cursor → Prop}
    (h : ∀ d c, (∀ x, ctx.step? d c = some x → P x.1 x.2) → P d c) :
    ∀ (d : Draft) (c : Cursor), P d c := by
  intro d c
  -- The measure that ends the scan also carries the induction.
  induction hn : d.pending c using Nat.strongRecOn generalizing d c with
  | ind n ih => exact h d c fun x hx => ih _ (hn ▸ pending_step? hx) x.1 x.2 rfl

/-- What one event keeps is kept to the end of the line, where no event is left. -/
theorem scan_preserves (ctx : LineContext) {Q : Draft → Cursor → Prop}
    (hstep : ∀ d c x, Q d c → ctx.step? d c = some x → Q x.1 x.2) :
    ∀ (d : Draft) (c : Cursor), Q d c →
      ∃ c', Q (ctx.scan d c) c' ∧ ctx.step? (ctx.scan d c) c' = none := by
  refine ctx.event_induction fun d c ih hQ => ?_
  rw [scan_eq]
  cases hx : ctx.step? d c with
  | none => exact ⟨c, hQ, hx⟩
  | some x => exact ih x hx (hstep d c x hQ hx)

end LineContext

end OverlayIndex
