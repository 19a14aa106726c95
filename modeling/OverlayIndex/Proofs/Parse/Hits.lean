/-
Where terminators stand in a text.

A hit is a terminator together with a place where it stands on a line, comments aside.  What ends
a construct is a hit of one of its own terminators or of a boundary of a construct around it.
The reader looks for these from its cursor on.  It finds the first of them, and of two in the
same column the one that belongs to the innermost construct; and where it moves on, it passes
over none.  Both rest on where the terminators of the grammar begin: the constructs that hold
other open constructs end at a dollar sign in column zero, a list of values ends at a caret,
and no value holds one.
-/
import OverlayIndex.Proofs.Parse.Lawful
import OverlayIndex.Proofs.Parse.Units

namespace OverlayIndex

/-! ### The first of several -/

/-- Of several with the least key, the one that is taken comes first. -/
theorem earliest_first {α : Type} {key : α → Nat} {R : α → α → Prop} :
    ∀ {as : List α} {a : α}, as.Pairwise R → earliest key as = some a →
      ∀ b ∈ as, key b ≤ key a → b = a ∨ R a b := by
  intro as
  induction as with
  | nil => intro a _ h; simp [earliest] at h
  | cons x as ih =>
      intro a hR h b hb hle
      obtain ⟨hx, has⟩ := List.pairwise_cons.1 hR
      rw [earliest] at h
      split at h
      · rename_i hnone
        cases h
        rw [earliest_eq_none_iff.1 hnone, List.mem_singleton] at hb
        exact Or.inl hb
      · rename_i y hy
        split at h
        · rename_i hlt
          cases h
          rcases List.mem_cons.1 hb with rfl | hb
          · omega
          · exact ih has hy b hb hle
        · cases h
          rcases List.mem_cons.1 hb with rfl | hb
          · exact Or.inl rfl
          · exact Or.inr (hx b hb)

namespace Cursor

/-- A search ends no later than at a place where there is an answer. -/
theorem search_go_first {α : Type} {f : Cursor → Option α} {a : α} :
    ∀ (skipped left rest : List Char), f ⟨skipped.reverse ++ left, rest⟩ = some a →
      ∃ b less more, search.go f left (skipped ++ rest) = some b ∧ less ++ more = skipped ∧
        f ⟨less.reverse ++ left, more ++ rest⟩ = some b := by
  intro skipped
  induction skipped with
  | nil =>
      intro left rest hf
      refine ⟨a, [], [], ?_, rfl, hf⟩
      cases rest with
      | nil => exact hf
      | cons x rest =>
          rw [List.nil_append, search.go]
          simp only [List.reverse_nil, List.nil_append] at hf
          rw [hf]
  | cons x skipped ih =>
      intro left rest hf
      cases hx : f ⟨left, x :: (skipped ++ rest)⟩ with
      | some b =>
          refine ⟨b, [], x :: skipped, ?_, rfl, hx⟩
          rw [List.cons_append, search.go, hx]
      | none =>
          obtain ⟨b, less, more, hgo, hsplit, hb⟩ := ih (x :: left) rest (by simpa using hf)
          refine ⟨b, x :: less, more, ?_, by rw [← hsplit]; rfl, by simpa using hb⟩
          rw [List.cons_append, search.go, hx]
          exact hgo

end Cursor

/-- A terminator is found no later than where one stands. -/
theorem Terminator.find_of_tryAt {t : Terminator} {c : Cursor} {skipped rest : List Char} {s : Span}
    (hr : skipped ++ rest = c.right) (hs : t.tryAt ⟨skipped.reverse ++ c.left, rest⟩ = some s) :
    ∃ s', t.find c = some s' ∧ s'.start ≤ s.start := by
  obtain ⟨hbegin, hleft, -, -⟩ := tryAt_spec hs
  by_cases hb : t.isBoundary = true
  · -- A boundary stands in column zero, so nothing is skipped.
    have hnil := isEmpty_of_mayBegin hb hbegin
    simp only [List.append_eq_nil_iff, List.reverse_eq_nil_iff] at hnil
    obtain ⟨rfl, -⟩ := hnil
    rw [List.nil_append] at hr
    rw [hr] at hs
    exact ⟨s, by rw [find, if_pos hb]; exact hs, Nat.le_refl _⟩
  · obtain ⟨b, less, more, hgo, hsplit, hfound⟩ := Cursor.search_go_first skipped c.left rest hs
    refine ⟨b, ?_, ?_⟩
    · rw [find, if_neg hb, Cursor.search, ← hr]
      exact hgo
    · rw [Span.start, Span.start, hleft, (tryAt_spec hfound).2.1, ← hsplit]
      simp only [List.reverse_append, byteLength_append]
      omega

/-- The place right before the span. -/
def Span.before (s : Span) : Cursor :=
  ⟨s.left, s.text ++ s.right⟩

theorem Span.line_before (s : Span) : s.before.line = s.line := by
  rw [Cursor.line, before, line, List.append_assoc]

theorem Span.line_after (s : Span) : s.after.line = s.line := by
  simp [Cursor.line, after, line]

/-- What is found stands where it was found. -/
theorem Terminator.tryAt_of_find {t : Terminator} {c : Cursor} {s : Span} (h : t.find c = some s) :
    t.tryAt s.before = some s := by
  have hself : ∀ {c : Cursor}, t.tryAt c = some s → t.tryAt s.before = some s := by
    intro c hs
    obtain ⟨-, hleft, hright, -⟩ := tryAt_spec hs
    rw [Span.before, hleft, hright]
    exact hs
  rw [find] at h
  split at h
  · exact hself h
  · obtain ⟨skipped, rest, -, hf⟩ := Cursor.search_spec h
    exact hself hf

/-! ### Hits -/

/-- A terminator, and where in a text it stands. -/
structure Hit where
  terminator : Terminator
  line : Nat
  span : Span
  deriving DecidableEq, Repr

namespace Hit

/-- Where the terminator begins. -/
def start (h : Hit) : Position :=
  ⟨h.line, h.span.start⟩

/-- Where a construct ends that the terminator ends: right behind it, or with the line before if it
is a boundary. -/
def stop (lines : List (List Char)) (h : Hit) : Position :=
  if h.terminator.isBoundary then edgeBefore lines h.line else ⟨h.line, h.span.stop⟩

/-- The terminator does stand there, on what is looked at of the line. -/
def Stands (lines : List (List Char)) (h : Hit) : Prop :=
  ∃ line, lines[h.line]? = some line ∧ h.span.line = visible line ∧
    h.terminator.tryAt h.span.before = some h.span

/-- Of the hits of these terminators from `place` on, this is the first.  Of several that begin at
one place, one that is no boundary comes first. -/
structure First (lines : List (List Char)) (ts : List Terminator) (place : Position) (h : Hit) :
    Prop where
  stands : h.Stands lines
  among : h.terminator ∈ ts
  after : place ≤ h.start
  earliest : ∀ h' : Hit, h'.Stands lines → h'.terminator ∈ ts → place ≤ h'.start →
    h.start ≤ h'.start
  tie : ∀ h' : Hit, h'.Stands lines → h'.terminator ∈ ts → h'.start = h.start →
    h.terminator.isBoundary = true → h'.terminator.isBoundary = true

end Hit

/-- No hit of these terminators begins between the two places. -/
def NoHit (lines : List (List Char)) (ts : List Terminator) (p q : Position) : Prop :=
  ∀ h : Hit, h.Stands lines → h.terminator ∈ ts → p ≤ h.start → q ≤ h.start

namespace NoHit

variable {lines : List (List Char)} {ts ts' : List Terminator} {p q r : Position}

theorem refl (lines : List (List Char)) (ts : List Terminator) (p : Position) :
    NoHit lines ts p p :=
  fun _ _ _ h => h

theorem trans (h : NoHit lines ts p q) (h' : NoHit lines ts q r) : NoHit lines ts p r :=
  fun hit hs ht hp => h' hit hs ht (h hit hs ht hp)

theorem subset (h : NoHit lines ts p q) (hsub : ∀ t ∈ ts', t ∈ ts) : NoHit lines ts' p q :=
  fun hit hs ht hp => h hit hs (hsub _ ht) hp

end NoHit

/-- The first hit from a place on is the first from an earlier place on, if there is none between the
two. -/
theorem Hit.First.extend {lines : List (List Char)} {ts ts' : List Terminator} {p q : Position}
    {h : Hit} (hf : h.First lines ts q) (hsub : ∀ t ∈ ts', t ∈ ts) (ht : h.terminator ∈ ts')
    (hpq : p ≤ q) (hno : NoHit lines ts' p q) : h.First lines ts' p :=
  ⟨hf.stands, ht, le_trans hpq hf.after,
    fun h' hs ht' hp => hf.earliest h' hs (hsub _ ht') (hno h' hs ht' hp),
    fun h' hs ht' => hf.tie h' hs (hsub _ ht')⟩

/-! ### What ends a construct -/

/-- What ends the innermost of these open constructs: its own terminators and the boundaries of the
others. -/
def enders : List Rule → List Terminator
  | [] => []
  | r :: outer => r.terminators ++ outer.flatMap fun o => o.terminators.filter (·.isBoundary)

theorem mem_enders {t : Terminator} {rs : List Rule} :
    t ∈ enders rs ↔ ∃ i r, rs[i]? = some r ∧ t ∈ r.terminators ∧ (i = 0 ∨ t.isBoundary = true) := by
  cases rs with
  | nil => simp [enders]
  | cons r outer =>
      simp only [enders, List.mem_append, List.mem_flatMap, List.mem_filter]
      constructor
      · rintro (ht | ⟨o, ho, ht, hb⟩)
        · exact ⟨0, r, rfl, ht, Or.inl rfl⟩
        · obtain ⟨i, hi⟩ := List.mem_iff_getElem?.1 ho
          exact ⟨i + 1, o, by simpa using hi, ht, Or.inr hb⟩
      · rintro ⟨i, o, hi, ht, hb⟩
        cases i with
        | zero =>
            cases hi
            exact Or.inl ht
        | succ i =>
            rw [List.getElem?_cons_succ] at hi
            exact Or.inr ⟨o, List.mem_of_getElem? hi, ht, hb.resolve_left (Nat.succ_ne_zero i)⟩

/-- What ends a construct ends the open ones around it too, as far as the one it belongs to. -/
theorem mem_enders_drop {t : Terminator} {rs : List Rule} {i j : Nat} {r : Rule}
    (hr : rs[i]? = some r) (ht : t ∈ r.terminators) (hb : i = 0 ∨ t.isBoundary = true)
    (hj : j ≤ i) : t ∈ enders (rs.drop j) := by
  refine mem_enders.2 ⟨i - j, r, ?_, ht, ?_⟩
  · rw [List.getElem?_drop, Nat.add_sub_cancel' hj]
    exact hr
  · rcases hb with hb | hb
    · exact Or.inl (by omega)
    · exact Or.inr hb

/-- What holds another open construct ends at a dollar sign in column zero. -/
theorem Rule.terminators_of_child {r r' : Rule} (h : r' ∈ r.children) (hleaf : r'.isLeaf = false)
    {t : Terminator} (ht : t ∈ r.terminators) : t = .nextUnit ∨ t = .nextDirective := by
  cases r <;> cases r' <;> simp_all [children, isLeaf, terminators]

namespace Draft

theorem Chained.terminators_outer :
    ∀ {frames : List Frame} {f : Frame}, Chained (f :: frames) → ∀ r ∈ rules frames,
      ∀ t ∈ r.terminators, t = .nextUnit ∨ t = .nextDirective := by
  intro frames
  induction frames with
  | nil => intro f _ r hr; simp at hr
  | cons g frames ih =>
      intro f h r hr t ht
      obtain ⟨-, hperm, hleaf, hrest⟩ := h
      rcases List.mem_cons.1 hr with rfl | hr
      · exact Rule.terminators_of_child hperm hleaf ht
      · exact ih hrest r hr t ht

/-- What ends the frames around the innermost one ends it as well. -/
theorem Chained.mem_enders_cons {frames : List Frame} {f : Frame} (h : Chained (f :: frames))
    {t : Terminator} (ht : t ∈ enders (rules frames)) : t ∈ enders (rules (f :: frames)) := by
  obtain ⟨i, r, hr, ht, -⟩ := mem_enders.1 ht
  refine mem_enders.2 ⟨i + 1, r, by simpa using hr, ht, Or.inr ?_⟩
  rcases h.terminators_outer r (List.mem_of_getElem? hr) t ht with rfl | rfl <;> rfl

/-! ### The terminators on offer -/

theorem terminators_sorted (r : Rule) :
    r.terminators.Pairwise fun a b => a.isBoundary = true → b.isBoundary = true := by
  cases r <;> decide

theorem boundary_closingsFrom {c : Cursor} {outside : Nat} (hout : 0 < outside)
    {frames : List Frame} {k : Closing} (h : k ∈ closingsFrom c outside frames) :
    k.boundary = true := by
  obtain ⟨i, f, t, -, -, hb, -, -, hk⟩ := mem_closingsFrom.1 h
  rw [hk]
  exact hb.resolve_left (by omega)

/-- Boundaries are offered last. -/
theorem closingsFrom_sorted (c : Cursor) (frames : List Frame) :
    (closingsFrom c 0 frames).Pairwise fun a b => a.boundary = true → b.boundary = true := by
  cases frames with
  | nil => exact List.Pairwise.nil
  | cons f frames =>
      rw [closingsFrom, List.pairwise_append]
      refine ⟨?_, ?_, ?_⟩
      · refine List.Pairwise.filterMap _ ?_ ((terminators_sorted f.rule).filter _)
        intro a b hab k hk k' hk'
        simp only [Option.map_eq_some_iff] at hk hk'
        obtain ⟨s, -, rfl⟩ := hk
        obtain ⟨s', -, rfl⟩ := hk'
        exact hab
      · exact List.pairwise_of_forall_mem_list fun a _ b hb _ =>
          boundary_closingsFrom (Nat.zero_lt_one) hb
      · intro a _ b hb _
        exact boundary_closingsFrom (Nat.zero_lt_one) hb

/-- What stands ahead of the cursor and ends an open construct makes the reader close something
there or before. -/
theorem closing?_of_tryAt {d : Draft} {c : Cursor} {t : Terminator}
    (ht : t ∈ enders (rules d.frames)) {skipped rest : List Char} {s : Span}
    (hr : skipped ++ rest = c.right) (hs : t.tryAt ⟨skipped.reverse ++ c.left, rest⟩ = some s) :
    ∃ k, d.closing? c = some k ∧ k.span.start ≤ s.start ∧
      (s.start = k.span.start → k.boundary = true → t.isBoundary = true) := by
  obtain ⟨s', hfind, hle⟩ := Terminator.find_of_tryAt hr hs
  obtain ⟨i, r, hi, ht, hb⟩ := mem_enders.1 ht
  rw [rules, List.getElem?_map, Option.map_eq_some_iff] at hi
  obtain ⟨f, hf, rfl⟩ := hi
  have hmem : ⟨i + 1, t.isBoundary, s'⟩ ∈ closingsFrom c 0 d.frames :=
    mem_closingsFrom.2 ⟨i, f, t, hf, ht, by rwa [Nat.zero_add], hfind, by rw [Nat.zero_add], rfl⟩
  obtain ⟨k, hk⟩ : ∃ k, d.closing? c = some k :=
    Option.ne_none_iff_exists'.1 fun hnone => by
      rw [earliest_eq_none_iff.1 hnone] at hmem
      cases hmem
  have hkle : k.span.start ≤ s'.start := earliest_le hk _ hmem
  refine ⟨k, hk, Nat.le_trans hkle hle, ?_⟩
  intro heq hkb
  rcases earliest_first (closingsFrom_sorted c d.frames) hk _ hmem (by simp only; omega) with
    hsame | hlater
  · rw [← hsame] at hkb
    exact hkb
  · exact hlater hkb

end Draft

/-! ### What a cursor has ahead -/

/-- Where the cursor stands on line `n`. -/
def Cursor.position (c : Cursor) (n : Nat) : Position :=
  ⟨n, byteLength c.left⟩

theorem Span.position_after (s : Span) (n : Nat) : s.after.position n = ⟨n, s.stop⟩ := by
  rw [Cursor.position, byteLength_after]

/-- Of two places on a line, the one further right is ahead of the other. -/
theorem Cursor.skipped_of_le {c c' : Cursor} (hline : c'.line = c.line)
    (hle : byteLength c.left ≤ byteLength c'.left) :
    ∃ skipped, skipped.reverse ++ c.left = c'.left ∧ skipped ++ c'.right = c.right := by
  rw [line, line, List.append_eq_append_iff] at hline
  rcases hline with ⟨more, hleft, hright⟩ | ⟨more, hleft, hright⟩
  · -- The first place is also the further one, so there is nothing between them.
    have hlen := congrArg byteLength hleft
    rw [byteLength_append, byteLength_reverse, byteLength_reverse] at hlen
    obtain rfl : more = [] := eq_nil_of_byteLength (by omega)
    rw [List.append_nil, List.reverse_inj] at hleft
    exact ⟨[], hleft, hright⟩
  · refine ⟨more, ?_, hright.symm⟩
    have hrev := congrArg List.reverse hleft
    rw [List.reverse_reverse, List.reverse_append, List.reverse_reverse] at hrev
    exact hrev.symm

namespace Reached

variable {lines : List (List Char)} {n : Nat} {d : Draft} {c : Cursor} {hit : Hit}

theorem spec_of_stands (h : Reached lines n d c) (hs : hit.Stands lines) (hn : hit.line = n) :
    hit.span.line = c.line ∧ hit.terminator.tryAt hit.span.before = some hit.span := by
  obtain ⟨line, hline, hc⟩ := h.exists_line
  obtain ⟨line', hline', hspan, htry⟩ := hs
  rw [hn, hline] at hline'
  cases hline'
  exact ⟨hspan.trans hc.symm, htry⟩

/-- A hit on the line, from the cursor on, that ends an open construct makes the reader close
something there or before. -/
theorem closing?_of_hit (h : Reached lines n d c) (hs : hit.Stands lines)
    (ht : hit.terminator ∈ enders (Draft.rules d.frames)) (hn : hit.line = n)
    (hle : byteLength c.left ≤ hit.span.start) :
    ∃ k, d.closing? c = some k ∧ k.span.start ≤ hit.span.start ∧
      (hit.span.start = k.span.start → k.boundary = true →
        hit.terminator.isBoundary = true) := by
  obtain ⟨hspan, htry⟩ := h.spec_of_stands hs hn
  obtain ⟨skipped, hleft, hright⟩ := Cursor.skipped_of_le (hit.span.line_before.trans hspan) hle
  have hbefore : hit.span.before = ⟨skipped.reverse ++ c.left, hit.span.before.right⟩ := by
    rw [hleft]
  rw [hbefore] at htry
  exact Draft.closing?_of_tryAt ht hright htry

/-- Where nothing is left to close, no hit is left on the line. -/
theorem noHit_of_closing?_none (h : Reached lines n d c) (hnone : d.closing? c = none) :
    NoHit lines (enders (Draft.rules d.frames)) (c.position n) ⟨n + 1, 0⟩ := by
  intro hit hs ht hle
  rcases hle with hlt | ⟨heq, hcol⟩
  · have hlt : n < hit.line := hlt
    rcases Nat.lt_or_eq_of_le (Nat.succ_le_of_lt hlt) with hlt | heq
    · exact Or.inl hlt
    · exact Or.inr ⟨heq, Nat.zero_le _⟩
  · obtain ⟨k, hk, -⟩ := h.closing?_of_hit hs ht heq.symm hcol
    rw [hnone] at hk
    cases hk

/-- What the reader closes is ended by the first hit from the cursor on. -/
theorem first_of_closing? (h : Reached lines n d c) {k : Closing} (hk : d.closing? c = some k) :
    ∃ i r t, (Draft.rules d.frames)[i]? = some r ∧ t ∈ r.terminators ∧
      (i = 0 ∨ t.isBoundary = true) ∧ k.count = i + 1 ∧
      Hit.First lines (enders (Draft.rules d.frames)) (c.position n) ⟨t, n, k.span⟩ ∧
      Hit.stop lines ⟨t, n, k.span⟩ = (contextOf lines n).closePosition k := by
  obtain ⟨line, hline, hc⟩ := h.exists_line
  obtain ⟨i, f, t, hf, ht, hb, hfind, hcount, hboundary⟩ :=
    Draft.mem_closingsFrom.1 (mem_of_earliest hk)
  rw [Nat.zero_add] at hb hcount
  have hrule : (Draft.rules d.frames)[i]? = some f.rule := by
    rw [Draft.rules, List.getElem?_map, hf]
    rfl
  have hahead := Terminator.ahead_find hfind
  refine ⟨i, f.rule, t, hrule, ht, hb, hcount, ⟨?_, ?_, ?_, ?_, ?_⟩, ?_⟩
  · refine ⟨line, hline, ?_, Terminator.tryAt_of_find hfind⟩
    rw [← hc, ← hahead.line_after, Span.line_after]
  · exact mem_enders.2 ⟨i, f.rule, hrule, ht, hb⟩
  · exact Position.mk_le_mk.2 hahead.start_ge
  · intro h' hs' ht' hle
    rcases hle with hlt | ⟨heq, hcol⟩
    · exact Or.inl hlt
    · obtain ⟨k', hk', hstart, -⟩ := h.closing?_of_hit hs' ht' heq.symm hcol
      rw [hk] at hk'
      cases hk'
      exact Or.inr ⟨heq, hstart⟩
  · intro h' hs' ht' heq hbound
    have hn : h'.line = n := congrArg Position.line heq
    have hcol : h'.span.start = k.span.start := congrArg Position.col heq
    obtain ⟨k', hk', -, htie⟩ := h.closing?_of_hit hs' ht' hn (hcol ▸ hahead.start_ge)
    rw [hk] at hk'
    cases hk'
    exact htie hcol (hboundary ▸ hbound)
  · rw [Hit.stop, LineContext.closePosition, hboundary]
    by_cases hbt : t.isBoundary = true
    · have hzero : k.span.start = 0 := by
        rw [Span.start, (Terminator.left_find_boundary hbt hfind).2, byteLength_nil]
      rw [if_pos hbt, if_pos hbt, if_pos hzero]
      rfl
    · rw [if_neg hbt, if_neg hbt]
      rfl

end Reached

/-! ### Moving on -/

namespace Rule

/-- Of the constructs that hold others, only a list of values ends at anything but a boundary. -/
theorem inclusive_of_child {r r' : Rule} (h : r' ∈ r.children) {t : Terminator}
    (ht : t ∈ r.terminators) (hb : t.isBoundary = false) : t = .doubleCaret ∧ r' = .codeValue := by
  cases r <;> cases r' <;> simp_all [children, terminators] <;> cases t <;>
    simp_all [Terminator.isBoundary]

end Rule

theorem Shape.forall_many1 {p : Char → Bool} {s t r : List Char}
    (h : (many1 p).read s = some (t, r)) : ∀ c ∈ t, p c = true := by
  simp only [many1, andThen, Option.bind_eq_some_iff, Option.map_eq_some_iff, Prod.mk.injEq] at h
  obtain ⟨x, hx, y, hy, rfl, rfl⟩ := h
  cases s with
  | nil => simp [one] at hx
  | cons a s =>
      simp only [one, Option.ite_none_right_eq_some, Option.some.injEq] at hx
      simp only [many, Option.some.injEq] at hy
      obtain ⟨ha, rfl⟩ := hx
      obtain rfl := hy
      intro c hc
      simp only [List.mem_append, List.mem_singleton] at hc
      rcases hc with rfl | hc
      · exact ha
      · exact List.all_eq_true.1 List.all_takeWhile c hc

/-- A value of a list is a word. -/
theorem Opening.isWord_of_codeValue {c : Cursor} {m : Mark}
    (h : Rule.codeValue.opening.find c = some m) : ∀ x ∈ m.whole.text, isWord x = true := by
  obtain ⟨c', -, hread⟩ := readAt_of_find h
  simp only [Rule.opening, readAt, Shape.nothing, Option.bind_some, Option.map_some,
    Option.bind_eq_some_iff, Option.some.injEq] at hread
  obtain ⟨x, hx, rfl⟩ := hread
  simpa using Shape.forall_many1 hx

/-- A hit that begins inside a span begins with one of the span's characters. -/
theorem Span.mem_text_of_inside {s s' : Span} (hline : s'.line = s.line) {a : Char} {as : List Char}
    (htext : s'.text = a :: as) (hstart : s.start ≤ s'.start) (hstop : s'.start < s.stop) :
    a ∈ s.text := by
  have hbefore : s'.before.line = s.before.line := by rw [line_before, line_before, hline]
  obtain ⟨skipped, hleft, hright⟩ := Cursor.skipped_of_le hbefore hstart
  have hlen : byteLength skipped < byteLength s.text := by
    have hadd := congrArg byteLength hleft
    rw [byteLength_append, byteLength_reverse] at hadd
    simp only [before, start, stop] at hadd hstop
    omega
  simp only [before] at hright
  rcases List.append_eq_append_iff.1 hright with ⟨more, htext', hmore⟩ | ⟨more, hskipped, -⟩
  · cases more with
    | nil =>
        rw [List.append_nil] at htext'
        rw [htext'] at hlen
        exact absurd hlen (Nat.lt_irrefl _)
    | cons b more =>
        rw [htext, List.cons_append, List.cons_append] at hmore
        rw [htext', (List.cons.inj hmore).1]
        simp
  · rw [hskipped, byteLength_append] at hlen
    omega

/-- The end of a construct that holds open constructs begins with a dollar sign. -/
theorem Terminator.dollar_of_read {t : Terminator} (ht : t = .nextUnit ∨ t = .nextDirective)
    {s : List Char} {x : List Char × List Char} (h : t.shape.read s = some x) :
    ∃ cs, s = '$' :: cs := by
  have hstarts : t.shape.StartsWith (· = '$') := by
    rcases ht with rfl | rfl
    · exact ((Shape.startsWith_literal '$' _).followedBy _).orElse
        ((Shape.startsWith_literal '$' _).followedBy _)
    · exact Shape.startsWith_literal '$' []
  obtain ⟨c, cs, hc, hp⟩ := hstarts h
  refine ⟨cs ++ x.2, ?_⟩
  rw [← t.shape.split h, hc, of_decide_eq_true hp]
  rfl

namespace Draft

theorem rules_settle (p : Frame → Bool) (stop : Position) (roots : Forest Symbol) :
    ∀ (frames : List Frame) (done : Forest Symbol),
      rules (settle p stop roots frames done).frames <:+ rules frames := by
  intro frames
  induction frames with
  | nil => intro done; exact List.suffix_refl _
  | cons f frames ih =>
      intro done
      rw [settle]
      split
      · exact (ih _).trans (List.suffix_cons _ _)
      · exact List.suffix_refl _

theorem rules_closeFrames (stop : Position) (roots : Forest Symbol) :
    ∀ (n : Nat) (frames : List Frame) (done : Forest Symbol),
      rules (closeFrames stop roots n frames done).frames <:+ (rules frames).drop n := by
  intro n
  induction n with
  | zero => intro frames done; exact rules_settle _ _ _ _ _
  | succ n ih =>
      intro frames done
      cases frames with
      | nil => exact List.suffix_refl _
      | cons f frames => exact ih frames _

theorem rules_breakLine (d : Draft) (stop : Position) :
    rules (d.breakLine stop).frames <:+ rules d.frames :=
  rules_settle _ _ _ _ _

theorem rules_add_leaf (d : Draft) {r : Rule} (hleaf : r.isLeaf = true) (s : Symbol) :
    rules (d.add r s).frames <:+ rules d.frames := by
  rw [add, if_pos hleaf]
  exact rules_settle _ _ _ _ _

theorem rules_pop (d : Draft) (stop : Position) : rules (d.pop stop).frames <:+ rules d.frames := by
  obtain ⟨frames, roots⟩ := d
  cases frames with
  | nil => exact List.suffix_refl _
  | cons f frames =>
      rw [pop, rules_hang]
      exact List.suffix_cons _ _

/-- What is open after that many frames have closed was open around them. -/
theorem rules_close (d : Draft) (n : Nat) (stop : Position) :
    rules (d.close n stop).frames <:+ (rules d.frames).drop n :=
  rules_closeFrames stop d.roots n d.frames .nil

end Draft

/-- What ends the frames that stay open begins with a dollar sign, and it was on offer before. -/
theorem Draft.Chained.enders_close {d : Draft} (h : Chained d.frames) {n : Nat} (hn : 0 < n)
    (stop : Position) {t : Terminator} (ht : t ∈ enders (rules (d.close n stop).frames)) :
    (t = .nextUnit ∨ t = .nextDirective) ∧ t ∈ enders (rules d.frames) := by
  obtain ⟨i, r, hr, htr, -⟩ := mem_enders.1 ht
  have hdrop := (d.rules_close n stop).subset (List.mem_of_getElem? hr)
  obtain ⟨j, rfl⟩ := Nat.exists_eq_succ_of_ne_zero (Nat.pos_iff_ne_zero.1 hn)
  cases hframes : d.frames with
  | nil =>
      rw [hframes] at hdrop
      simp at hdrop
  | cons f rest =>
      rw [hframes] at h hdrop
      have hmem : r ∈ rules rest := List.mem_of_mem_drop hdrop
      have hdollar := h.terminators_outer r hmem t htr
      obtain ⟨p, hp⟩ := List.mem_iff_getElem?.1 hmem
      refine ⟨hdollar, mem_enders.2 ⟨p + 1, r, by simpa using hp, htr, Or.inr ?_⟩⟩
      rcases hdollar with rfl | rfl <;> rfl

namespace Reached

variable {lines : List (List Char)} {n : Nat} {d : Draft} {c : Cursor}

/-- The end of a list of values does not begin inside a value. -/
theorem caret_outside {hit : Hit} (h : Reached lines n d c) (hs : hit.Stands lines)
    (hn : hit.line = n) (hcaret : hit.terminator = .doubleCaret) {m : Mark}
    (hfind : Rule.codeValue.opening.find c = some m) (hstart : m.whole.start ≤ hit.span.start) :
    m.whole.stop ≤ hit.span.start := by
  refine Nat.le_of_not_lt fun hinside => ?_
  obtain ⟨hspan, htry⟩ := h.spec_of_stands hs hn
  obtain ⟨-, -, -, hread⟩ := Terminator.tryAt_spec htry
  have htext : hit.span.text = ['^', '^'] := by
    rw [hcaret, Terminator.shape] at hread
    simp only [Shape.literal, Option.ite_none_right_eq_some, Option.some.injEq,
      Prod.mk.injEq] at hread
    exact hread.2.1.symm
  have hsame : hit.span.line = m.whole.line := by
    rw [hspan, ← (Opening.ahead_find hfind).line_after, Span.line_after]
  have hmem := Span.mem_text_of_inside hsame htext hstart hinside
  exact absurd (Opening.isWord_of_codeValue hfind _ hmem) (by decide +kernel)

/-- Where something opens, no hit is passed over. -/
theorem noHit_of_add (h : Reached lines n d c) {r : Rule} {m : Mark}
    (he : d.next? c = some (.add r m)) :
    NoHit lines (enders (Draft.rules d.frames)) (c.position n) (m.whole.after.position n) := by
  intro hit hs ht hle
  rw [Span.position_after]
  rcases hle with hlt | ⟨heq, hcol⟩
  · exact Or.inl hlt
  · refine Or.inr ⟨heq, ?_⟩
    obtain ⟨k, hk, hstart, -⟩ := h.closing?_of_hit hs ht heq.symm hcol
    have hlt : m.whole.start < hit.span.start :=
      Nat.lt_of_lt_of_le (Draft.next?_add_lt he k hk) hstart
    obtain ⟨hr, hfind⟩ := Draft.opening?_spec (Draft.next?_add he)
    obtain ⟨i, o, ho, hto, hb⟩ := mem_enders.1 ht
    -- A boundary stands in column zero, but the mark begins before the hit.
    have hinclusive : hit.terminator.isBoundary = false := by
      refine Bool.eq_false_iff.2 fun hbound => ?_
      have hnil : hit.span.left = [] := Terminator.isEmpty_of_mayBegin hbound
        (Terminator.tryAt_spec (h.spec_of_stands hs heq.symm).2).1
      rw [Span.start, Span.start, hnil, byteLength_nil] at hlt
      exact absurd hlt (Nat.not_lt_zero _)
    -- So it is the end of a list of values, and the mark is that of a value.
    obtain rfl : i = 0 := hb.resolve_right (by rw [hinclusive]; simp)
    have hchild : r ∈ o.children := by
      rw [Draft.permitted_eq] at hr
      cases hrs : Draft.rules d.frames with
      | nil => rw [hrs] at ho; cases ho
      | cons o' rest =>
          rw [hrs] at ho hr
          cases ho
          exact hr
    obtain ⟨hcaret, rfl⟩ := Rule.inclusive_of_child hchild hto hinclusive
    exact h.caret_outside hs heq.symm hcaret hfind (Nat.le_of_lt hlt)

/-- Where something closes, no hit of what stays open is passed over. -/
theorem noHit_of_close (h : Reached lines n d c) {k : Closing} (hk : d.closing? c = some k)
    (stop : Position) :
    NoHit lines (enders (Draft.rules (d.close k.count stop).frames)) (c.position n)
      ((if k.boundary then c else k.span.after).position n) := by
  by_cases hboundary : k.boundary = true
  · rw [if_pos hboundary]
    exact NoHit.refl _ _ _
  · rw [if_neg hboundary, Span.position_after]
    intro hit hs ht hle
    rcases hle with hlt | ⟨heq, hcol⟩
    · exact Or.inl hlt
    · obtain ⟨hdollar, hall⟩ := h.lawful.chained.enders_close (Draft.closing?_spec hk).1 stop ht
      obtain ⟨t, hfind, hkb, -⟩ := Draft.closing?_terminator hk
      obtain ⟨k', hk', hstart, -⟩ := h.closing?_of_hit hs hall heq.symm hcol
      rw [hk] at hk'
      cases hk'
      -- The hit would stand at a dollar sign in column zero, where only a boundary is found.
      obtain ⟨hspan, htry⟩ := h.spec_of_stands hs heq.symm
      obtain ⟨hbegin, -, -, hread⟩ := Terminator.tryAt_spec htry
      have hnil : hit.span.left = [] := by
        refine Terminator.isEmpty_of_mayBegin ?_ hbegin
        rcases hdollar with hd | hd <;> rw [hd] <;> rfl
      have hzero : hit.span.start = 0 := by rw [Span.start, hnil, byteLength_nil]
      obtain ⟨cs, hcs⟩ := Terminator.dollar_of_read hdollar hread
      have hline : c.line = '$' :: cs := by
        rw [← hspan, ← Span.line_before, ← hcs, Cursor.line]
        simp [Span.before, hnil]
      have hleft : c.left = [] :=
        eq_nil_of_byteLength (Nat.le_zero.1 (Nat.le_trans hcol (Nat.le_of_eq hzero)))
      rw [Cursor.eq_ofLine hleft, hline] at hfind
      rw [hkb] at hboundary
      exact absurd (Terminator.isBoundary_of_find_dollar hfind (by omega)) hboundary

end Reached

end OverlayIndex
