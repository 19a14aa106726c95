/-
How constructs are open inside each other.

In whatever state the reader is, its stack is a path through the grammar: a unit at the bottom and
on every construct one that it takes, so there are never more than four.  A variable takes one
construct and is full with it, so it can hold anything only as long as that construct is itself open.
That leaves it no way into the next line, since it ends with its own line unless a list of codes keeps
it open.

Boundaries stand in column zero and are looked for there only.  On the first line nothing is open in
column zero, so a boundary always has a line before it at whose end the constructs close.

All of this is said of the ledger, where a construct and the one around it are known by number only
and may in principle have nothing to do with each other.
-/
import Mathlib.Data.List.Basic
import OverlayIndex.Proofs.Parse.Ledger

namespace OverlayIndex

/-! ### The grammar -/

namespace Rule

/-- How many constructs can be open around this one. -/
def depth : Rule → Nat
  | entry | name => 0
  | dataArea | ext | prog | proc | inclusion => 1
  | var | overlayRef => 2
  | alnumMask | numericMask | codeMask => 3
  | codeValue => 4

theorem depth_lt_of_mem {r outer : Rule} (h : r ∈ outer.children) : outer.depth < r.depth := by
  cases outer <;> simp only [children, List.mem_cons, List.not_mem_nil, or_false] at h <;>
    grind [depth]

theorem depth_le_three {r : Rule} (h : r.isLeaf = false) : r.depth ≤ 3 := by
  cases r <;> simp_all [isLeaf, children, terminators, depth]

theorem eq_codeMask_of_mem_var {r : Rule} (hleaf : r.isLeaf = false) (h : r ∈ var.children) :
    r = .codeMask := by
  cases r <;> simp_all [isLeaf, children, terminators]

end Rule

namespace Draft

theorem Chained.of_append {inner frames : List Frame} (h : Chained (inner ++ frames)) :
    Chained frames := by
  induction inner with
  | nil => exact h
  | cons f inner ih => exact ih h.2.2.2

/-- The frames around one are at most as many as its rule allows for. -/
theorem Chained.length_le_depth {f : Frame} {frames : List Frame} (h : Chained (f :: frames)) :
    frames.length ≤ f.rule.depth := by
  induction frames generalizing f with
  | nil => exact Nat.zero_le _
  | cons g frames ih =>
      obtain ⟨-, hperm, -, hrest⟩ := h
      exact Nat.lt_of_le_of_lt (ih hrest) (Rule.depth_lt_of_mem hperm)

theorem Chained.length_le_four {frames : List Frame} (h : Chained frames) : frames.length ≤ 4 := by
  cases frames with
  | nil => exact Nat.zero_le _
  | cons f frames =>
      have hdepth := Rule.depth_le_three h.2.2.1
      have hlength := h.length_le_depth
      rw [List.length_cons]
      omega

end Draft

namespace Ledger

/-! ### Open constructs by number -/

/-- The rule and the row of an open construct. -/
def construct? (l : Ledger) (s : Slot) : Option (Rule × Row) :=
  Rule.all[s.rule]?.bind fun r => l.rows[s.symbol]?.map fun row => (r, row)

/-- The stack is a path through the grammar, from a unit inwards, on which only the list of codes of
a variable keeps the variable open once it holds something. -/
structure Disciplined (l : Ledger) : Prop where
  nested : ∀ i inner outer, l.stack[i]? = some inner → l.stack[i + 1]? = some outer →
    ∃ r row r' row', l.construct? inner = some (r, row) ∧ l.construct? outer = some (r', row') ∧
      row.parent = some outer.symbol ∧ r ∈ r'.children
  bottom : ∀ s, l.stack.getLast? = some s →
    ∃ r row, l.construct? s = some (r, row) ∧ row.parent = none ∧ (r = .entry ∨ r = .name)
  height : l.stack.length ≤ 4
  filled : ∀ i s row, l.stack[i]? = some s → l.construct? s = some (.var, row) →
    row.children ≠ [] →
    ∃ j inner row', i = j + 1 ∧ l.stack[j]? = some inner ∧
      l.construct? inner = some (.codeMask, row') ∧ row.children = [inner.symbol]

section Slots

variable (file : FileId) (roots : Forest Symbol) (f : Frame) (inner outer : List Frame)

/-- The slot of a frame, given the frames around it. -/
def slotOf : Slot :=
  ⟨f.rule.number, count roots outer⟩

theorem getElem?_slotsOf :
    (slotsOf roots (inner ++ f :: outer))[inner.length]? = some (slotOf roots f outer) := by
  induction inner with
  | nil => rfl
  | cons g inner ih => exact ih

/-- Every slot is that of a frame. -/
theorem exists_frame {frames : List Frame} {i : Nat} {s : Slot}
    (h : (slotsOf roots frames)[i]? = some s) :
    ∃ inner f outer, frames = inner ++ f :: outer ∧ inner.length = i ∧ s = slotOf roots f outer := by
  have hlt : i < (slotsOf roots frames).length := (List.getElem?_eq_some_iff.1 h).1
  rw [length_slotsOf] at hlt
  have hframes : frames = frames.take i ++ frames[i] :: frames.drop (i + 1) := by simp
  have hlength : (frames.take i).length = i := List.length_take_of_le (Nat.le_of_lt hlt)
  have hslot := getElem?_slotsOf roots frames[i] (frames.take i) (frames.drop (i + 1))
  rw [← hframes, hlength, h] at hslot
  exact ⟨frames.take i, frames[i], frames.drop (i + 1), hframes, hlength, Option.some.inj hslot⟩

theorem count_lt_count_append : count roots outer < count roots (inner ++ f :: outer) := by
  induction inner with
  | nil =>
      rw [List.nil_append, count]
      omega
  | cons g inner ih =>
      rw [List.cons_append, count]
      omega

/-- The row of a frame, be it innermost or around others.  In the latter case it holds the symbol of
the next frame inside. -/
theorem getElem?_rowsOf_append (ids : List SymbolId) :
    (rowsOf file roots ids (inner ++ f :: outer))[count roots outer]? =
      some (rowOf file roots f outer (if inner = [] then ids else [count roots (f :: outer)])) := by
  induction inner generalizing ids with
  | nil => exact getElem?_rowsOf
  | cons g inner ih =>
      have hlt := count_lt_count_append roots f inner outer
      rw [List.cons_append, rowsOf, List.getElem?_append_left (by rwa [length_rowsOf]), ih,
        if_neg (List.cons_ne_nil g inner)]
      by_cases hinner : inner = []
      · rw [if_pos hinner, hinner, List.nil_append]
      · rw [if_neg hinner]

end Slots

section OfDraft

variable {file : FileId} {d : Draft} {f : Frame} {inner outer : List Frame}

theorem construct?_slotOf (h : d.frames = inner ++ f :: outer) :
    (ofDraft file d).construct? (slotOf d.roots f outer) =
      some (f.rule, rowOf file d.roots f outer
        (if inner = [] then [] else [count d.roots (f :: outer)])) := by
  have hrow := getElem?_rowsOf_append file d.roots f inner outer []
  rw [← h] at hrow
  show (Rule.all[f.rule.number]?.bind fun r =>
    (rowsOf file d.roots [] d.frames)[count d.roots outer]?.map fun row => (r, row)) = _
  rw [hrow, Rule.all_number]
  rfl

/-- A variable with room in its frame holds nothing but what is open in it. -/
theorem children_rowOf_var {roots : Forest Symbol} (hroom : f.isFull = false)
    (hvar : f.rule = .var) (ids : List SymbolId) :
    (rowOf file roots f outer ids).children = ids := by
  have hwidth := Frame.isFull_eq_false_iff.1 hroom 1 (Rule.maxChildren_eq_some_iff.2 ⟨hvar, rfl⟩)
  have hnil : f.below.rootIds (count roots outer + 1) = [] := by
    rw [← List.length_eq_zero_iff, Forest.length_rootIds]
    omega
  rw [rowOf, hnil, List.nil_append]

/-- **The ledger of a draft that obeys the rules is disciplined.** -/
theorem disciplined_ofDraft (hchained : Draft.Chained d.frames) (hroomy : Draft.Roomy d.frames) :
    (ofDraft file d).Disciplined where
  nested := by
    intro i s s' hs hs'
    obtain ⟨inner, f, outer, hframes, hlength, rfl⟩ := exists_frame d.roots hs
    obtain ⟨inner', f', outer', hframes', hlength', rfl⟩ := exists_frame d.roots hs'
    -- The frame around `f` is the first of those around it.
    obtain ⟨-, rfl⟩ : inner ++ [f] = inner' ∧ outer = f' :: outer' := by
      refine List.append_inj ?_ (by rw [List.length_append, hlength, hlength']; rfl)
      rw [List.append_assoc, List.singleton_append, ← hframes, hframes']
    rw [hframes] at hchained
    exact ⟨_, _, _, _, construct?_slotOf hframes, construct?_slotOf hframes', rfl,
      hchained.of_append.2.1⟩
  bottom := by
    intro s hs
    rw [List.getLast?_eq_getElem?] at hs
    obtain ⟨inner, f, outer, hframes, hlength, rfl⟩ := exists_frame d.roots hs
    obtain rfl : outer = [] := by
      have hcount : (ofDraft file d).stack.length = d.frames.length := length_slotsOf
      rw [hcount, hframes, List.length_append, List.length_cons] at hlength
      exact List.length_eq_zero_iff.1 (by omega)
    rw [hframes] at hchained
    refine ⟨_, _, construct?_slotOf hframes, rfl, ?_⟩
    have htop : f.rule ∈ Rule.topLevel := hchained.of_append.2.1
    simpa [Rule.topLevel] using htop
  height := by
    have hcount : (ofDraft file d).stack.length = d.frames.length := length_slotsOf
    rw [hcount]
    exact hchained.length_le_four
  filled := by
    intro i s row hs hrow hholds
    obtain ⟨inner, f, outer, hframes, rfl, rfl⟩ := exists_frame d.roots hs
    rw [construct?_slotOf hframes, Option.some.injEq, Prod.mk.injEq] at hrow
    obtain ⟨hvar, rfl⟩ := hrow
    rw [children_rowOf_var (hroomy f (by simp [hframes])) hvar] at hholds ⊢
    -- So there is a frame inside that of the variable, and only a list of codes has one.
    rcases List.eq_nil_or_concat' inner with rfl | ⟨inside, g, rfl⟩
    · exact absurd rfl hholds
    · rw [List.append_assoc, List.singleton_append] at hframes
      rw [hframes] at hchained
      obtain ⟨-, hperm, hleaf, -⟩ := hchained.of_append
      rw [Draft.rules_cons, Rule.permittedIn, hvar] at hperm
      have hslot := getElem?_slotsOf d.roots g inside (f :: outer)
      have hcode : (ofDraft file d).construct? _ = _ := construct?_slotOf hframes
      rw [← hframes] at hslot
      rw [Rule.eq_codeMask_of_mem_var hleaf hperm] at hcode
      exact ⟨inside.length, _, _, List.length_append, hslot, hcode, if_neg (by simp)⟩

end OfDraft

/-! ### The loop over the lines -/

/-- Where the loop over the lines stands: the line, the ledger and the column. -/
structure Visit where
  line : Nat
  ledger : Ledger
  offset : Nat
  deriving DecidableEq, Repr

/-- Another round on the line or, after the last one, the beginning of the next line. -/
def Visit.next? (lines : List (List Char)) (v : Visit) : Option Visit :=
  lines[v.line]?.bind fun line =>
    (round? (contextOf lines v.line) (visible line) v.ledger v.offset).bind fun round =>
      round.elim
        (lines[v.line + 1]?.bind fun _ =>
          (v.ledger.breakLine? (edgeBefore lines (v.line + 1))).map fun l => ⟨v.line + 1, l, 0⟩)
        fun x => some ⟨v.line, x.1, x.2⟩

/-- Where the loop stands after that many rounds, beginnings of lines included. -/
def visit? (file : FileId) (lines : List (List Char)) : Nat → Option Visit
  | 0 => lines[0]?.map fun _ => ⟨0, empty file, 0⟩
  | k + 1 => (visit? file lines k).bind (Visit.next? lines)

/-- Where the loop stands when the reader stands at the cursor with the draft. -/
def Visit.ofDraft (file : FileId) (n : Nat) (d : Draft) (c : Cursor) : Visit :=
  ⟨n, .ofDraft file d, byteLength c.left⟩

section Loop

variable {file : FileId} {lines : List (List Char)} {n : Nat} {d : Draft} {c : Cursor}

theorem Visit.next?_of_event (h : Reached lines n d c) {x : Draft × Cursor}
    (hx : (contextOf lines n).step? d c = some x) :
    next? lines (ofDraft file n d c) = some (ofDraft file n x.1 x.2) := by
  obtain ⟨line, hline, hc⟩ := h.exists_line
  show lines[n]?.bind _ = _
  rw [hline, Option.bind_some, ← hc]
  show (round? (contextOf lines n) c.line (.ofDraft file d) (byteLength c.left)).bind _ = _
  rw [round?_ofDraft, hx]
  rfl

theorem Visit.next?_of_end (h : Reached lines n d c)
    (hend : (contextOf lines n).step? d c = none) :
    next? lines (ofDraft file n d c) = lines[n + 1]?.map fun line =>
      ofDraft file (n + 1) (d.breakLine (edgeBefore lines (n + 1))) (.ofLine (visible line)) := by
  obtain ⟨line, hline, hc⟩ := h.exists_line
  show lines[n]?.bind _ = _
  rw [hline, Option.bind_some, ← hc]
  show (round? (contextOf lines n) c.line (.ofDraft file d) (byteLength c.left)).bind _ = _
  rw [round?_ofDraft, hend, Option.map_none, Option.bind_some, Option.elim_none]
  show (lines[n + 1]?.bind fun _ => (((Ledger.ofDraft file d).breakLine? _).map _)) = _
  rw [breakLine?_ofDraft]
  cases lines[n + 1]? <;> rfl

/-- The loop comes by every draft that the reader comes by. -/
theorem exists_visit? (file : FileId) (h : Reached lines n d c) :
    ∃ k, visit? file lines k = some (.ofDraft file n d c) := by
  induction h with
  | first hline =>
      refine ⟨0, ?_⟩
      rw [visit?, hline]
      rfl
  | event h hx ih =>
      obtain ⟨k, hk⟩ := ih
      refine ⟨k + 1, ?_⟩
      rw [visit?, hk, Option.bind_some, Visit.next?_of_event h hx]
  | line h hend hline ih =>
      obtain ⟨k, hk⟩ := ih
      refine ⟨k + 1, ?_⟩
      rw [visit?, hk, Option.bind_some, Visit.next?_of_end h hend, hline, Option.map_some]

/-- **The loop comes by no other ledgers.** -/
theorem exists_draft_of_visit? {k : Nat} {v : Visit} (hk : visit? file lines k = some v) :
    ∃ n d c, Reached lines n d c ∧ v = .ofDraft file n d c := by
  induction k generalizing v with
  | zero =>
      obtain ⟨line, hline, rfl⟩ := Option.map_eq_some_iff.1 hk
      exact ⟨_, _, _, .first hline, rfl⟩
  | succ k ih =>
      obtain ⟨v', hv', hnext⟩ := Option.bind_eq_some_iff.1 hk
      obtain ⟨n, d, c, h, rfl⟩ := ih hv'
      cases hx : (contextOf lines n).step? d c with
      | none =>
          rw [Visit.next?_of_end h hx] at hnext
          obtain ⟨line, hline, rfl⟩ := Option.map_eq_some_iff.1 hnext
          exact ⟨_, _, _, h.line hx hline, rfl⟩
      | some x =>
          rw [Visit.next?_of_event h hx] at hnext
          exact ⟨n, x.1, x.2, h.event hx, (Option.some.inj hnext).symm⟩

end Loop

end Ledger

namespace Reached

variable {lines : List (List Char)} {n : Nat} {d : Draft} {c : Cursor}

/-- **A boundary takes effect in column zero of a line with a line before it**, at the end of which
constructs close. -/
theorem boundary_spec (h : Reached lines n d c) {k : Closing} (hk : d.closing? c = some k)
    (hboundary : k.boundary = true) :
    c.left = [] ∧ k.span.start = 0 ∧ 0 < n ∧ ∃ before, lines[n - 1]? = some before ∧
      (contextOf lines n).closePosition k = ⟨n - 1, byteLength before⟩ := by
  obtain ⟨i, g, t, -, -, -, hfind, -, hkb⟩ := Draft.mem_closingsFrom.1 (mem_of_earliest hk)
  obtain ⟨hleft, hspan⟩ := Terminator.left_find_boundary (hkb ▸ hboundary) hfind
  obtain ⟨f, frames, hf⟩ := List.exists_cons_of_ne_nil (Draft.closing?_terminator hk).choose_spec.2.2
  have hstart : k.span.start = 0 := by rw [Span.start, hspan, byteLength_nil]
  have hpos : 0 < n := Nat.zero_lt_of_lt (h.start_line_lt hleft hf)
  obtain ⟨m, rfl⟩ := Nat.exists_eq_succ_of_ne_zero (Nat.pos_iff_ne_zero.1 hpos)
  obtain ⟨line, hline, -⟩ := h.exists_line
  have hbefore := List.getElem?_eq_getElem
    (Nat.lt_of_succ_lt (List.getElem?_eq_some_iff.1 hline).1)
  refine ⟨hleft, hstart, hpos, _, hbefore, ?_⟩
  rw [LineContext.closePosition, if_pos hboundary, if_pos hstart]
  exact edgeBefore_succ hbefore

end Reached

namespace Ledger

/-- **At every round on every line of every text, the stack is a path through the grammar** of at most
four constructs, each with the symbol around it for parent.  A variable that holds something has its
list of codes open right inside it, and in column zero no variable is innermost.  A boundary takes
effect in column zero only, on a line other than the first, and so it closes constructs at the end of
the line before. -/
theorem stack_disciplined (file : FileId) (text : List Char) :
    (∀ n d c, Reached (contentLines text) n d c →
      ∃ k, visit? file (contentLines text) k = some (.ofDraft file n d c)) ∧
    ∀ k v, visit? file (contentLines text) k = some v →
      v.ledger.Disciplined ∧
      (v.offset = 0 → ∀ s, v.ledger.stack.head? = some s →
        ∃ r row, v.ledger.construct? s = some (r, row) ∧ r ≠ .var) ∧
      ∀ line closing, (contentLines text)[v.line]? = some line →
        v.ledger.event? (visible line) v.offset = some (some (.close closing)) →
        closing.boundary = true →
        v.offset = 0 ∧ closing.span.start = 0 ∧ 0 < v.line ∧
          ∃ before, (contentLines text)[v.line - 1]? = some before ∧
            (contextOf (contentLines text) v.line).closePosition closing =
              ⟨v.line - 1, byteLength before⟩ := by
  refine ⟨fun n d c h => exists_visit? file h, fun k v hv => ?_⟩
  obtain ⟨n, d, c, h, rfl⟩ := exists_draft_of_visit? hv
  refine ⟨disciplined_ofDraft h.lawful.chained h.roomy, fun hzero s hs => ?_,
    fun line closing hline hevent hboundary => ?_⟩
  · obtain ⟨inner, f, outer, hframes, hlength, rfl⟩ :=
      exists_frame d.roots (List.head?_eq_getElem?.symm.trans hs)
    obtain rfl := List.length_eq_zero_iff.1 hlength
    exact ⟨_, _, construct?_slotOf hframes,
      h.ne_var_of_left_nil (eq_nil_of_byteLength hzero) hframes⟩
  · obtain ⟨line', hline', hc⟩ := h.exists_line
    obtain rfl : line' = line := Option.some.inj (hline'.symm.trans hline)
    rw [← hc] at hevent
    have hnext := Option.some.inj ((event?_ofDraft file d c).symm.trans hevent)
    obtain ⟨hleft, hspec⟩ := h.boundary_spec (Draft.next?_close hnext) hboundary
    exact ⟨by rw [Visit.ofDraft, hleft, byteLength_nil], hspec⟩

/-- A text in which four constructs are open when the last line begins. -/
def openList : List Char :=
  "$ENTRY A\n$DATA\nX C^1\n$NAME B".toList

/-- The last line closes the list of codes, its variable and the data area, all at the end of the
line before. -/
theorem unit_ends_open_list :
    ∃ v closing, visit? ⟨0⟩ (contentLines openList) 8 = some v ∧ v.ledger.stack.length = 4 ∧
      v.ledger.Disciplined ∧
      v.ledger.event? "$NAME B".toList v.offset = some (some (.close closing)) ∧
      closing.count = 3 ∧
      (contextOf (contentLines openList) v.line).closePosition closing = ⟨2, 5⟩ := by
  have hlast : (visit? ⟨0⟩ (contentLines openList) 8).map (fun v =>
      (v.line, v.ledger.stack.length, v.ledger.event? "$NAME B".toList v.offset)) =
      some (3, 4, some (some (.close ⟨3, true, ⟨[], ['$'], "NAME B".toList⟩⟩))) := by
    decide +kernel
  obtain ⟨v, hv, hparts⟩ := Option.map_eq_some_iff.1 hlast
  simp only [Prod.mk.injEq] at hparts
  obtain ⟨hline, hheight, hevent⟩ := hparts
  have hget : (contentLines openList)[v.line]? = some "$NAME B".toList := by
    rw [hline]
    decide +kernel
  have hbefore : (contentLines openList)[v.line - 1]? = some "X C^1".toList := by
    rw [hline]
    decide +kernel
  obtain ⟨hdisciplined, -, hboundary⟩ := (stack_disciplined ⟨0⟩ openList).2 8 v hv
  obtain ⟨-, -, -, before, hget', hposition⟩ := hboundary _ _ hget hevent rfl
  obtain rfl : before = "X C^1".toList := Option.some.inj (hget'.symm.trans hbefore)
  refine ⟨v, _, hv, hheight, hdisciplined, hevent, rfl, hposition.trans ?_⟩
  rw [hline]
  decide

end Ledger

end OverlayIndex
