/-
Lists of overlays.

A list names overlays from its keyword to the next directive, over any number of lines.  An item
begins wherever a capital stands in column zero or right behind a separator, and the overlay's name
is the longest identifier that begins there.

The reader looks for the next item from behind the last one, and each item needs a separator of its
own.  Neither loses an item: no separator is part of a name, so the separator before an item is still
ahead when the reader has read the item before it, and no item begins inside a name.  `Lists` says of
a row of symbols that it has exactly the items up to a bound; the bound moves with the reader.
-/
import OverlayIndex.Proofs.Parse.Declarations
import OverlayIndex.Proofs.Parse.Lines

namespace OverlayIndex

/-! ### Identifiers -/

/-- What follows the capital of an identifier: word characters, each with a point before it or
not. -/
inductive IsJoined : List Char → Prop
  | nil : IsJoined []
  | word {c : Char} {cs : List Char} (hc : isWord c = true) (h : IsJoined cs) : IsJoined (c :: cs)
  | point {c : Char} {cs : List Char} (hc : isWord c = true) (h : IsJoined cs) :
      IsJoined ('.' :: c :: cs)

/-- A capital and what may follow it. -/
def IsIdent (t : List Char) : Prop :=
  ∃ c cs, t = c :: cs ∧ c.isUpper = true ∧ IsJoined cs

/-- The longest identifier that the text begins with. -/
structure IsLongestIdent (text t : List Char) : Prop where
  begins : t <+: text
  isIdent : IsIdent t
  longest : ∀ t', t' <+: text → IsIdent t' → t'.length ≤ t.length

namespace Shape

theorem isJoined_cutJoined (cs : List Char) : IsJoined (cutJoined cs).1 := by
  fun_induction cutJoined cs with
  | case1 => exact .nil
  | case2 c cs hc t r hcut ih =>
      rw [hcut] at ih
      exact .word hc ih
  | case3 => exact .nil
  | case4 c hc d ds hd t r hcut ih =>
      rw [hcut] at ih
      rw [hd.1]
      exact .point hd.2 ih
  | case5 => exact .nil

/-- No way to go on is longer than the cut. -/
theorem cutJoined_longest {t : List Char} (h : IsJoined t) :
    ∀ rest, t <+: (cutJoined (t ++ rest)).1 := by
  have hpoint : isWord '.' = false := by decide +kernel
  induction h with
  | nil => exact fun _ => List.nil_prefix
  | @word c t hc _ ih =>
      intro rest
      rw [List.cons_append, cutJoined.eq_def]
      simp only [hc, if_true]
      exact List.cons_prefix_cons.2 ⟨rfl, ih rest⟩
  | @point c t hc _ ih =>
      intro rest
      rw [List.cons_append, List.cons_append, cutJoined.eq_def]
      simp only [hpoint, hc, and_self, if_true, Bool.false_eq_true, if_false]
      exact List.cons_prefix_cons.2 ⟨rfl, List.cons_prefix_cons.2 ⟨rfl, ih rest⟩⟩

theorem read_ident (c : Char) (cs : List Char) :
    ident.read (c :: cs) =
      if c.isUpper then some (c :: (cutJoined cs).1, (cutJoined cs).2) else none := by
  by_cases hc : c.isUpper = true <;> simp [ident, andThen, one, joined, hc]

/-- An identifier is read wherever a capital stands. -/
theorem isSome_ident (cs : List Char) : (ident.read cs).isSome = cs.head?.any Char.isUpper := by
  cases cs with
  | nil => rfl
  | cons c cs => by_cases hc : c.isUpper = true <;> simp [read_ident, hc]

/-- It is the longest one there. -/
theorem isLongestIdent_of_ident {cs t r : List Char} (h : ident.read cs = some (t, r)) :
    IsLongestIdent cs t := by
  have hsplit := ident.split h
  cases cs with
  | nil => cases h
  | cons c cs =>
      rw [read_ident, Option.ite_none_right_eq_some, Option.some.injEq, Prod.mk.injEq] at h
      obtain ⟨hc, rfl, rfl⟩ := h
      refine ⟨⟨_, hsplit⟩, ⟨c, _, rfl, hc, isJoined_cutJoined cs⟩, ?_⟩
      rintro t' ⟨rest, hrest⟩ ⟨c', cs', rfl, -, hjoined⟩
      obtain ⟨rfl, rfl⟩ := List.cons.inj hrest
      exact Nat.succ_le_succ (cutJoined_longest hjoined rest).length_le

end Shape

/-! ### Items on a line -/

/-- What separates the items of a list. -/
def isSeparator (c : Char) : Bool :=
  isBlank c || c = ','

/-- An item begins at the cursor: a capital in column zero or right behind a separator. -/
def Cursor.beginsItem (c : Cursor) : Bool :=
  c.right.head?.any Char.isUpper && (c.left.isEmpty || c.left.head?.any isSeparator)

/-- No separator is part of a name. -/
theorem isSeparator_of_mem_name {name : List Char} (h : IsName name) {c : Char} (hc : c ∈ name) :
    isSeparator c = false := by
  have hpoint : isSeparator '.' = false := by decide +kernel
  have hcomma : isWord ',' = false := by decide +kernel
  rcases h.chars c hc with hword | rfl
  · rw [isSeparator, Bool.or_eq_false_iff, decide_eq_false_iff_not]
    constructor
    · by_contra hblank
      rw [isWord_of_isBlank (by simpa using hblank)] at hword
      cases hword
    · rintro rfl
      rw [hcomma] at hword
      cases hword
  · exact hpoint

/-- An overlay's mark is its name. -/
theorem readAt_overlayRef (c : Cursor) :
    Rule.overlayRef.opening.readAt c =
      (Shape.ident.read c.right).map fun x => ⟨⟨c.left, x.1, x.2⟩, ⟨c.left, x.1, x.2⟩⟩ := by
  simp only [Opening.readAt, Rule.opening, Shape.nothing, Option.bind_some, Option.map_some,
    List.nil_append, List.append_nil, List.reverse_nil]
  cases Shape.ident.read c.right <;> rfl

/-- The mark of a list is its keyword. -/
theorem readAt_ext {c : Cursor} {m : Mark} (h : Rule.ext.opening.readAt c = some m) :
    m.name = m.whole ∧ m.whole.text = "$EXT".toList := by
  simp only [Opening.readAt, Rule.opening, Shape.nothing, Option.bind_some, Option.map_some,
    List.nil_append, List.append_nil, List.reverse_nil, Option.bind_eq_some_iff] at h
  obtain ⟨x, hx, hm⟩ := h
  cases hm
  obtain ⟨hx, -⟩ := Option.filter_eq_some_iff.1 hx
  rw [Shape.literal, Option.ite_none_right_eq_some, Option.some.injEq] at hx
  obtain ⟨-, rfl⟩ := hx
  exact ⟨rfl, rfl⟩

/-- The mark of the item at the cursor. -/
def itemAt (c : Cursor) : Option Mark :=
  if c.beginsItem then Rule.overlayRef.opening.readAt c else none

theorem itemAt_eq (left right : List Char) :
    itemAt ⟨left, right⟩ =
      (if left.head?.any isSeparator then Rule.overlayRef.opening.readAt ⟨left, right⟩ else none).or
        (if left.isEmpty then Rule.overlayRef.opening.readAt ⟨left, right⟩ else none) := by
  unfold itemAt Cursor.beginsItem
  cases hright : right.head?.any Char.isUpper with
  | true => cases left.isEmpty <;> cases left.head?.any isSeparator <;> simp
  | false =>
      have hnone : Rule.overlayRef.opening.readAt ⟨left, right⟩ = none := by
        rw [← Shape.isSome_ident, Option.isSome_eq_false_iff, Option.isNone_iff_eq_none] at hright
        rw [readAt_overlayRef, hright]
        rfl
      simp [hnone]

theorem tryAt_overlayRef (left : List Char) (x : Char) (right : List Char) :
    Rule.overlayRef.opening.tryAt ⟨left, x :: right⟩ =
      (if left.isEmpty then Rule.overlayRef.opening.readAt ⟨left, x :: right⟩ else none).or
        (if isSeparator x then Rule.overlayRef.opening.readAt ⟨x :: left, right⟩ else none) := rfl

/-- Looking for a name at the cursor or behind the separator there, all along a line, is looking for
items, but for one that begins where the search does. -/
theorem go_itemAt (right : List Char) : ∀ left : List Char,
    Cursor.search.go itemAt left right =
      (if left.head?.any isSeparator then Rule.overlayRef.opening.readAt ⟨left, right⟩ else none).or
        (Cursor.search.go Rule.overlayRef.opening.tryAt left right) := by
  induction right with
  | nil =>
      intro left
      rw [Cursor.search.go, Cursor.search.go, itemAt_eq, Opening.tryAt]
      simp [Rule.opening, Place.inList, Cursor.atStart]
  | cons x right ih =>
      intro left
      have hstep : ∀ f : Cursor → Option Mark, Cursor.search.go f left (x :: right) =
          (f ⟨left, x :: right⟩).or (Cursor.search.go f (x :: left) right) := by
        intro f
        rw [Cursor.search.go]
        cases f ⟨left, x :: right⟩ <;> rfl
      rw [hstep, hstep, ih, itemAt_eq, tryAt_overlayRef, Option.or_assoc, Option.or_assoc]
      rfl

/-- The reader stands in column zero or behind something that is no separator. -/
def Cursor.isFree (c : Cursor) : Bool :=
  !c.left.head?.any isSeparator

theorem find_overlayRef {c : Cursor} (h : c.isFree = true) :
    Rule.overlayRef.opening.find c = c.search itemAt := by
  rw [Cursor.isFree, Bool.not_eq_true'] at h
  show c.search Rule.overlayRef.opening.tryAt = c.search itemAt
  rw [Cursor.search, Cursor.search, go_itemAt, h]
  rfl

/-- An item ahead is found, or an earlier one. -/
theorem exists_find_of_item {c c' : Cursor} (h : c.isFree = true) (hline : c'.line = c.line)
    (hle : byteLength c.left ≤ byteLength c'.left) (hitem : c'.beginsItem = true) :
    ∃ m, Rule.overlayRef.opening.find c = some m ∧ m.whole.start ≤ byteLength c'.left := by
  obtain ⟨skipped, hleft, hright⟩ := Cursor.skipped_of_le hline hle
  have hcapital : (Shape.ident.read c'.right).isSome = true := by
    rw [Cursor.beginsItem, Bool.and_eq_true] at hitem
    rw [Shape.isSome_ident, hitem.1]
  obtain ⟨x, hx⟩ := Option.isSome_iff_exists.1 hcapital
  have hsome : itemAt ⟨skipped.reverse ++ c.left, c'.right⟩ =
      some ⟨⟨c'.left, x.1, x.2⟩, ⟨c'.left, x.1, x.2⟩⟩ := by
    rw [hleft, itemAt, if_pos hitem, readAt_overlayRef, hx]
    rfl
  obtain ⟨m, less, more, hgo, hsplit, hfound⟩ :=
    Cursor.search_go_first skipped c.left c'.right hsome
  refine ⟨m, ?_, ?_⟩
  · rw [find_overlayRef h, Cursor.search, ← hright, hgo]
  · rw [itemAt, Option.ite_none_right_eq_some] at hfound
    rw [Span.start, (Opening.readAt_spec hfound.2).1, ← hleft, ← hsplit, List.reverse_append,
      byteLength_append, byteLength_append, byteLength_append]
    omega

/-- What is found is an item, and all of it is a name. -/
theorem item_of_find {c : Cursor} {m : Mark} (h : c.isFree = true)
    (hfind : Rule.overlayRef.opening.find c = some m) :
    m.whole.before.beginsItem = true ∧ IsName m.whole.text := by
  rw [find_overlayRef h] at hfind
  obtain ⟨skipped, rest, -, hitem⟩ := Cursor.search_spec hfind
  rw [itemAt, Option.ite_none_right_eq_some] at hitem
  obtain ⟨hbegins, hread⟩ := hitem
  obtain ⟨hleft, hright, -⟩ := Opening.readAt_spec hread
  refine ⟨by rw [Span.before, hleft, hright]; exact hbegins, ?_⟩
  rw [readAt_overlayRef, Option.map_eq_some_iff] at hread
  obtain ⟨x, hx, rfl⟩ := hread
  exact Shape.isName_of_ident hx

/-- Inside a name and right behind it, what stands before is part of the name. -/
theorem isFree_of_inside {s : Span} (hs : IsName s.text) {c : Cursor} (hline : c.line = s.line)
    (hstart : s.start < byteLength c.left) (hstop : byteLength c.left ≤ s.stop) :
    c.isFree = true ∧ c.left ≠ [] := by
  obtain ⟨inside, hleft, -⟩ :=
    Cursor.skipped_of_le (hline.trans s.line_before.symm) (Nat.le_of_lt hstart)
  obtain ⟨rest, hafter, -⟩ :=
    Cursor.skipped_of_le (s.line_after.trans hline.symm) (by rwa [Span.byteLength_after])
  have htext : inside ++ rest = s.text := by
    have hjoin : rest.reverse ++ inside.reverse ++ s.left = s.text.reverse ++ s.left := by
      rw [List.append_assoc]
      exact (congrArg (rest.reverse ++ ·) hleft).trans hafter
    have hreverse := congrArg List.reverse (List.append_cancel_right hjoin)
    simpa using hreverse
  have hne : inside ≠ [] := by
    rintro rfl
    rw [← hleft] at hstart
    exact absurd hstart (Nat.lt_irrefl _)
  obtain ⟨front, last, rfl⟩ := List.eq_nil_or_concat inside |>.resolve_left hne
  have hlast : isSeparator last = false := isSeparator_of_mem_name hs (by simp [← htext])
  constructor
  · rw [Cursor.isFree, ← hleft]
    simp [hlast]
  · rw [← hleft]
    simp

/-! ### Lists -/

/-- An item begins at the position. -/
def IsItem (lines : List (List Char)) (p : Position) : Prop :=
  ∃ (line : List Char) (c : Cursor), lines[p.line]? = some line ∧ c.line = visible line ∧
    byteLength c.left = p.col ∧ c.beginsItem = true

/-- The symbols of the row start at the items between the two positions. -/
def Lists (lines : List (List Char)) (first bound : Position) (row : List Symbol) : Prop :=
  ∀ p, (∃ u ∈ row, u.extent.start = p) ↔ IsItem lines p ∧ first ≤ p ∧ p < bound

namespace Lists

variable {lines : List (List Char)} {first bound bound' : Position} {row : List Symbol}

theorem empty (h : bound ≤ first) : Lists lines first bound [] := by
  intro p
  constructor
  · rintro ⟨u, hu, -⟩
    cases hu
  · rintro ⟨-, hfirst, hbound⟩
    exact absurd (le_trans h hfirst) (not_le_of_gt hbound)

/-- The bound moves on over a stretch without items. -/
theorem raise (h : Lists lines first bound row) (hle : bound ≤ bound')
    (hnone : ∀ p, IsItem lines p → bound ≤ p → bound' ≤ p) : Lists lines first bound' row := by
  intro p
  rw [h p]
  constructor
  · rintro ⟨hitem, hfirst, hlt⟩
    exact ⟨hitem, hfirst, lt_of_lt_of_le hlt hle⟩
  · rintro ⟨hitem, hfirst, hlt⟩
    refine ⟨hitem, hfirst, ?_⟩
    by_contra hge
    exact absurd (hnone p hitem (not_lt.1 hge)) (not_le_of_gt hlt)

/-- The bound moves on over one item, whose symbol joins the row. -/
theorem add (h : Lists lines first bound row) {s : Symbol}
    (hitem : IsItem lines s.extent.start) (hfirst : first ≤ s.extent.start)
    (hle : bound ≤ s.extent.start)
    (hlt : s.extent.start < bound')
    (honly : ∀ p, IsItem lines p → bound ≤ p → p < bound' → p = s.extent.start) :
    Lists lines first bound' (row ++ [s]) := by
  intro p
  constructor
  · rintro ⟨u, hu, rfl⟩
    rcases List.mem_append.1 hu with hu | hu
    · obtain ⟨hitem', hfirst', hlt'⟩ := (h u.extent.start).1 ⟨u, hu, rfl⟩
      exact ⟨hitem', hfirst', lt_of_lt_of_le hlt' (le_of_lt (lt_of_le_of_lt hle hlt))⟩
    · rw [List.mem_singleton.1 hu]
      exact ⟨hitem, hfirst, hlt⟩
  · rintro ⟨hitem', hfirst', hlt'⟩
    rcases lt_or_ge p bound with hp | hp
    · obtain ⟨u, hu, hstart⟩ := (h p).2 ⟨hitem', hfirst', hp⟩
      exact ⟨u, List.mem_append_left _ hu, hstart⟩
    · exact ⟨s, by simp, (honly p hitem' hp hlt').symm⟩

end Lists

namespace Reached

variable {lines : List (List Char)} {n : Nat} {d : Draft} {c : Cursor}

/-- An item on the line that is read, at the cursor or behind it, is found. -/
theorem exists_find_of_isItem (h : Reached lines n d c) (hfree : c.isFree = true) {p : Position}
    (hp : IsItem lines p) (hle : c.position n ≤ p) (hline : p.line = n) :
    ∃ m, Rule.overlayRef.opening.find c = some m ∧ m.whole.start ≤ p.col := by
  obtain ⟨line, c', hget, hc', hcol, hitem⟩ := hp
  obtain ⟨line', hget', hc⟩ := h.exists_line
  rw [hline, hget'] at hget
  cases hget
  have hcols : byteLength c.left ≤ p.col := by
    rw [Position.le_def] at hle
    simp only [Cursor.position] at hle
    omega
  rw [← hcol] at hcols ⊢
  exact exists_find_of_item hfree (hc'.trans hc.symm) hcols hitem

/-- If no item is found, there is none up to the next line. -/
theorem le_of_isItem (h : Reached lines n d c) (hfree : c.isFree = true)
    (hnone : Rule.overlayRef.opening.find c = none) {p : Position} (hp : IsItem lines p)
    (hle : c.position n ≤ p) : (⟨n + 1, 0⟩ : Position) ≤ p := by
  have hline := Position.line_le hle
  rcases Nat.lt_or_eq_of_le hline with hlt | heq
  · rcases Nat.lt_or_eq_of_le (Nat.succ_le_of_lt hlt) with hlt | heq
    · exact Or.inl hlt
    · exact Or.inr ⟨heq, Nat.zero_le _⟩
  · obtain ⟨m, hm, -⟩ := h.exists_find_of_isItem hfree hp hle heq.symm
    rw [hnone] at hm
    cases hm

/-- What is found is an item, and the only one up to its end. -/
theorem isItem_of_find (h : Reached lines n d c) (hfree : c.isFree = true) {m : Mark}
    (hfind : Rule.overlayRef.opening.find c = some m) :
    IsItem lines ⟨n, m.whole.start⟩ ∧ m.whole.after.isFree = true ∧
      ∀ p, IsItem lines p → c.position n ≤ p → p < m.whole.after.position n →
        p = ⟨n, m.whole.start⟩ := by
  obtain ⟨line, hget, hc⟩ := h.exists_line
  obtain ⟨hitem, hname⟩ := item_of_find hfree hfind
  have hwhole : m.whole.line = visible line := by
    rw [← m.whole.line_after, (Opening.ahead_find hfind).line_after, hc]
  have hwide := Span.start_lt_stop (Opening.framed_find Rule.overlayRef.consumes_name
    hfind).whole_nonempty
  refine ⟨⟨line, m.whole.before, hget, m.whole.line_before.trans hwhole, rfl, hitem⟩, ?_, ?_⟩
  · refine (isFree_of_inside hname m.whole.line_after ?_ ?_).1
    · rwa [Span.byteLength_after]
    · exact Nat.le_of_eq m.whole.byteLength_after
  · intro p hp hle hlt
    rw [Span.position_after, Position.lt_def] at hlt
    have hline : p.line = n := by
      have hge := Position.line_le hle
      simp only [Cursor.position] at hge hlt
      omega
    obtain ⟨m', hm', hstart⟩ := h.exists_find_of_isItem hfree hp hle hline
    rw [hfind] at hm'
    cases hm'
    obtain ⟨line', c', hget', hc', hcol, hitem'⟩ := hp
    rw [hline, hget] at hget'
    cases hget'
    rcases Nat.lt_or_eq_of_le hstart with hinside | heq
    · -- An item inside the name would have a separator before it.
      obtain ⟨hfree', hne⟩ := isFree_of_inside hname (c := c') (hc'.trans hwhole.symm)
        (by rwa [hcol]) (by rw [hcol]; simp only at hlt; omega)
      simp only [Cursor.isFree, Bool.not_eq_true'] at hfree'
      simp [Cursor.beginsItem, hfree', hne] at hitem'
    · cases p
      simp_all

end Reached

/-! ### Drafts -/

/-- Nothing stands around an open construct that is a list: all that a list takes is over at once. -/
theorem Draft.Chained.ext_not_mem {f : Frame} {frames : List Frame}
    (h : Chained (f :: frames)) : .ext ∉ rules frames := by
  induction frames generalizing f with
  | nil => exact List.not_mem_nil
  | cons g frames ih =>
      obtain ⟨-, hperm, hleaf, hrest⟩ := h
      rw [rules_cons, List.mem_cons, not_or]
      refine ⟨fun hext => ?_, ih hrest⟩
      rw [rules_cons, Rule.permittedIn, ← hext, Rule.children, List.mem_singleton] at hperm
      rw [hperm] at hleaf
      cases hleaf

/-- The list that the innermost frame may be holds the items up to the bound. -/
def Draft.ListsTo (lines : List (List Char)) (bound : Position) (d : Draft) : Prop :=
  ∀ f frames, d.frames = f :: frames → f.rule = .ext →
    Lists lines f.symbol.selection.stop bound f.below.heads

/-- A list that is over holds the items on all of its lines. -/
def Symbol.ListsAll (lines : List (List Char)) (_outer : List Rule) (s : Symbol)
    (below : Forest Symbol) : Prop :=
  s.rule = .ext → Lists lines s.selection.stop ⟨s.extent.stop.line + 1, 0⟩ below.heads

namespace Draft

variable {lines : List (List Char)} {stop bound : Position} {d : Draft}

theorem rule_ne_ext (h : .ext ∉ rules d.frames) {f : Frame} {frames : List Frame}
    (hf : d.frames = f :: frames) : f.rule ≠ .ext := by
  intro hext
  rw [hf, rules_cons, hext] at h
  simp at h

theorem listsTo_of_not_mem (h : .ext ∉ rules d.frames) : d.ListsTo lines bound :=
  fun _ _ hf hext => absurd hext (rule_ne_ext h hf)

/-- An item joins the list and is over at once. -/
theorem add_item {f : Frame} {frames : List Frame} (hf : d.frames = f :: frames)
    (hext : f.rule = .ext) (s : Symbol) : d.add .overlayRef s = d.hang (.single s) := by
  have hroom : ∀ done, (f.add done).isFull = false := fun done => by
    simp [Frame.isFull, Frame.add, hext, Rule.maxChildren]
  have hleaf : Rule.overlayRef.isLeaf = true := rfl
  rw [add, if_pos hleaf, hf, settle, hroom, hang, hf]
  rfl

/-- The frames of the draft may close at `stop`: a list is complete up to that line. -/
structure Listing (lines : List (List Char)) (stop : Position) (d : Draft) : Prop where
  chained : Chained d.frames
  within : d.Within (OnLines lines) stop.next
  lists : d.ListsTo lines ⟨stop.line + 1, 0⟩
  kept : Kept (Symbol.ListsAll lines) d.roots d.frames

theorem pop_listing (hreal : OnLines lines stop) :
    ∀ d : Draft, d.Listing lines stop → (d.pop stop).Listing lines stop := by
  rintro ⟨frames, roots⟩ h
  cases frames with
  | nil => exact h
  | cons f frames =>
      obtain ⟨hrule, -, -, hrest⟩ := h.chained
      refine ⟨chained_hang (d := ⟨frames, roots⟩) hrest _, pop_within hreal _ h.within, ?_, ?_⟩
      · apply listsTo_of_not_mem
        rw [pop, rules_hang]
        exact h.chained.ext_not_mem
      · refine pop_kept h.kept fun g rest hg => ?_
        obtain ⟨rfl, rfl⟩ := List.cons.inj hg
        refine ⟨hrule, fun hext => ?_⟩
        rw [Symbol.rule_extendTo, hrule] at hext
        rw [Stacked.stop_extendTo h.within]
        exact h.lists f frames rfl hext

theorem ClosesTo.listing {d' : Draft} (hd : ClosesTo stop d d') (hreal : OnLines lines stop)
    (h : d.Listing lines stop) : d'.Listing lines stop :=
  hd.preserves (pop_listing hreal) h

end Draft

/-! ### Every state -/

namespace Reached

variable {lines : List (List Char)} {n : Nat} {d : Draft} {c : Cursor} {f : Frame}
  {frames : List Frame}

/-- The list that the innermost frame may be is read up to the cursor, which is free then. -/
structure ListsSoFar (lines : List (List Char)) (n : Nat) (d : Draft) (c : Cursor) : Prop where
  lists : d.ListsTo lines (c.position n)
  free : ∀ f frames, d.frames = f :: frames → f.rule = .ext → c.isFree = true
  kept : Draft.Kept (Symbol.ListsAll lines) d.roots d.frames

theorem ListsSoFar.of_not_mem (h : .ext ∉ Draft.rules d.frames)
    (hkept : Draft.Kept (Symbol.ListsAll lines) d.roots d.frames) : ListsSoFar lines n d c where
  lists := Draft.listsTo_of_not_mem h
  free _ _ hf hext := absurd hext (Draft.rule_ne_ext h hf)
  kept := hkept

/-- Where the innermost frame is no list, there is no list among the frames. -/
theorem ext_not_mem (h : Reached lines n d c)
    (hne : ∀ f frames, d.frames = f :: frames → f.rule ≠ .ext) : .ext ∉ Draft.rules d.frames := by
  have hchained := h.lawful.chained
  cases hf : d.frames with
  | nil => exact List.not_mem_nil
  | cons f frames =>
      rw [hf] at hchained
      rw [Draft.rules_cons, List.mem_cons, not_or]
      exact ⟨fun hext => hne f frames hf hext.symm, hchained.ext_not_mem⟩

/-- A list ends in column zero only. -/
theorem left_of_closing? {k : Closing} (hk : d.closing? c = some k) (hf : d.frames = f :: frames)
    (hext : f.rule = .ext) : k.boundary = true ∧ c.left = [] ∧ k.span.left = [] := by
  obtain ⟨i, g, t, hg, ht, hb, hfind, -, hkb⟩ := Draft.mem_closingsFrom.1 (mem_of_earliest hk)
  have hboundary : t.isBoundary = true := by
    rcases hb with hzero | hb
    · obtain rfl : i = 0 := by omega
      rw [hf] at hg
      cases hg
      rw [hext, Rule.terminators, List.mem_singleton] at ht
      rw [ht]
      rfl
    · exact hb
  obtain ⟨hleft, hspan⟩ := Terminator.left_find_boundary hboundary hfind
  exact ⟨hkb.trans hboundary, hleft, hspan⟩

theorem close_listsSoFar (h : Reached lines n d c) (hlists : ListsSoFar lines n d c) {k : Closing}
    (hk : d.closing? c = some k) :
    ListsSoFar lines n (d.close k.count ((contextOf lines n).closePosition k))
      (if k.boundary then c else k.span.after) := by
  obtain ⟨f, frames, hf⟩ :=
    List.exists_cons_of_ne_nil (Draft.closing?_terminator hk).choose_spec.2.2
  -- What stays open was around the innermost frame.
  have hnot : .ext ∉ Draft.rules (d.close k.count ((contextOf lines n).closePosition k)).frames := by
    have hchained := h.lawful.chained
    rw [hf] at hchained
    obtain ⟨count, hcount⟩ := Nat.exists_eq_succ_of_ne_zero
      (Nat.pos_iff_ne_zero.1 (Draft.closing?_spec hk).1)
    have hsuffix := d.rules_close k.count ((contextOf lines n).closePosition k)
    rw [hf, Draft.rules_cons, hcount, List.drop_succ_cons] at hsuffix
    rw [hcount]
    exact fun hmem => hchained.ext_not_mem (List.mem_of_mem_drop (hsuffix.subset hmem))
  have hlisting : d.Listing lines ((contextOf lines n).closePosition k) := by
    refine ⟨h.lawful.chained, (h.close_within hk).1, fun g rest hg hext => ?_, hlists.kept⟩
    obtain ⟨hboundary, hleft, hspan⟩ := left_of_closing? hk hg hext
    have hbound := hlists.lists g rest hg hext
    rw [Cursor.position, hleft, byteLength_nil] at hbound
    rwa [h.closePosition_of_boundary hboundary hleft hspan hg]
  exact .of_not_mem hnot ((d.close_closesTo k.count _).listing (h.close_within hk).2 hlisting).kept

/-- A list takes the item that comes next. -/
theorem item_listsSoFar (h : Reached lines n d c) (hlists : ListsSoFar lines n d c) {r : Rule}
    {m : Mark} (he : d.next? c = some (.add r m)) (hf : d.frames = f :: frames)
    (hext : f.rule = .ext) :
    ListsSoFar lines n (d.add r ((contextOf lines n).symbol r m)) m.whole.after := by
  obtain ⟨hr, hfind⟩ := Draft.opening?_spec (Draft.next?_add he)
  rw [Draft.permitted, hf] at hr
  simp only [hext, Rule.children, List.mem_singleton] at hr
  subst hr
  have hfree := hlists.free f frames hf hext
  obtain ⟨hitem, hafter, honly⟩ := h.isItem_of_find hfree hfind
  have hfloor := (h.mark_placed hfind).2
  rw [Draft.add_item hf hext]
  refine ⟨?_, fun _ _ _ _ => hafter, Draft.hang_kept hlists.kept ⟨fun hrule => ?_, trivial, trivial⟩⟩
  · rw [Draft.hang, hf]
    intro g rest hg _
    obtain ⟨rfl, rfl⟩ := List.cons.inj hg
    rw [Frame.add, Forest.heads_append]
    have hwithin := h.within
    rw [Draft.Within, hf] at hwithin
    obtain ⟨hmark, hstop, -⟩ := hwithin
    refine (hlists.lists f frames hf hext).add hitem ?_ ?_ ?_ honly
    · exact le_trans (Extent.encloses_iff.1 hmark.selection).2 (le_of_lt (lt_of_lt_of_le hstop hfloor))
    · exact Position.mk_le_mk.2 (Opening.ahead_find hfind).start_ge
    · rw [Span.position_after]
      exact Position.mk_lt_mk.2
        (Span.start_lt_stop (Opening.framed_find Rule.overlayRef.consumes_name hfind).whole_nonempty)
  · rw [LineContext.rule_symbol hfind] at hrule
    cases hrule

/-- What opens elsewhere is no item; if it is a list, it has none yet. -/
theorem add_listsSoFar (h : Reached lines n d c) (hlists : ListsSoFar lines n d c) {r : Rule}
    {m : Mark} (he : d.next? c = some (.add r m))
    (hne : ∀ f frames, d.frames = f :: frames → f.rule ≠ .ext) :
    ListsSoFar lines n (d.add r ((contextOf lines n).symbol r m)) m.whole.after := by
  have hfind := (Draft.opening?_spec (Draft.next?_add he)).2
  have hrule : ((contextOf lines n).symbol r m).rule = r := LineContext.rule_symbol hfind
  have hnot := h.ext_not_mem hne
  rcases d.add_cases r ((contextOf lines n).symbol r m) with ⟨hleaf, hadd⟩ | ⟨-, hadd⟩
  · have hnot' : .ext ∉ Draft.rules (d.add r ((contextOf lines n).symbol r m)).frames :=
      fun hmem => hnot ((d.rules_add_leaf hleaf _).subset hmem)
    obtain ⟨hplaced, hfloor⟩ := h.mark_placed hfind
    have hlisting : (d.hang (.single ((contextOf lines n).symbol r m))).Listing lines
        ((contextOf lines n).symbol r m).extent.stop := by
      refine ⟨Draft.chained_hang h.lawful.chained _,
        Draft.hang_single_within h.within hplaced hfloor, Draft.listsTo_of_not_mem ?_,
        Draft.hang_kept hlists.kept ⟨fun hext => ?_, trivial, trivial⟩⟩
      · rwa [Draft.rules_hang]
      · rw [hrule] at hext
        rw [hext] at hleaf
        cases hleaf
    exact .of_not_mem hnot' (hadd.listing hplaced.stop_real hlisting).kept
  · rw [hadd]
    have hopens : r = .ext → m.name = m.whole ∧ m.whole.text = "$EXT".toList := by
      rintro rfl
      obtain ⟨c', -, hread⟩ := Opening.readAt_of_find hfind
      exact readAt_ext hread
    refine ⟨fun f frames hf hext => ?_, fun f frames hf hext => ?_, trivial, hlists.kept⟩
    · obtain ⟨rfl, rfl⟩ := List.cons.inj hf
      apply Lists.empty
      rw [Span.position_after, ← (hopens hext).1]
      exact le_refl _
    · obtain ⟨rfl, rfl⟩ := List.cons.inj hf
      have hlast : isSeparator 'T' = false := by decide +kernel
      simp [Cursor.isFree, Span.after, (hopens hext).2, hlast]

/-- Where nothing more opens on a line, a list has all items of the line. -/
theorem edge_listing (h : Reached lines n d c) (hlists : ListsSoFar lines n d c)
    (hnone : d.opening? c = none) : d.Listing lines (edgeBefore lines (n + 1)) := by
  refine ⟨h.lawful.chained, h.within_edge.1, fun f frames hf hext => ?_, hlists.kept⟩
  have hfind : Rule.overlayRef.opening.find c = none := by
    rw [Draft.opening?, earliest_eq_none_iff, Draft.permitted, hf] at hnone
    simpa [hext, Rule.children] using hnone
  exact (hlists.lists f frames hf hext).raise (Or.inl (Nat.lt_succ_self n)) fun p hp hle =>
    h.le_of_isItem (hlists.free f frames hf hext) hfind hp hle

/-- **In every state, a list that is open has the items up to the reader, and all others are
complete.** -/
theorem listsSoFar (h : Reached lines n d c) : ListsSoFar lines n d c := by
  induction h with
  | first =>
      refine ⟨fun f frames hf => ?_, fun f frames hf => ?_, trivial⟩
      all_goals simp [Draft.empty] at hf
  | @event n d c x h hx ih =>
      rcases LineContext.step?_cases hx with ⟨k, hk, rfl⟩ | ⟨r, m, he, rfl⟩
      · exact h.close_listsSoFar ih hk
      · by_cases hext : ∃ f frames, d.frames = f :: frames ∧ f.rule = .ext
        · obtain ⟨f, frames, hf, hext⟩ := hext
          exact h.item_listsSoFar ih he hf hext
        · exact h.add_listsSoFar ih he fun f frames hf hrule => hext ⟨f, frames, hf, hrule⟩
  | @line n d c next h hend _ ih =>
      have hnone := (Draft.next?_eq_none_iff.1 (Option.map_eq_none_iff.1 hend)).2
      have hclosed := (d.breakLine_closesTo (edgeBefore lines (n + 1))).listing h.within_edge.2
        (h.edge_listing ih hnone)
      exact ⟨hclosed.lists, fun _ _ _ _ => rfl, hclosed.kept⟩

end Reached

/-! ### Every text -/

/-- **In every text, the lists have the items on all of their lines.** -/
theorem parseChars_lists (text : List Char) :
    (parseChars text).Every (Symbol.ListsAll (contentLines text)) [] := by
  obtain ⟨n, d, c, h, hend, -, hparse⟩ := parseChars_reached text
  have hnone := (Draft.next?_eq_none_iff.1 (Option.map_eq_none_iff.1 hend)).2
  rw [hparse]
  exact ((d.finish_closesTo _).listing h.within_edge.2 (h.edge_listing h.listsSoFar hnone)).kept

/-- The symbol is a list of overlays that names what its lines say and nothing else, when `row` is
what stands directly in it. -/
structure Symbol.ListsOverlays (lines : List (List Char)) (s : Symbol) (row : List Symbol) :
    Prop where
  /-- The keyword stands at the start of the list. -/
  keyword : s.name = "$EXT" ∧ s.extent.start.col = 0 ∧
    s.selection = .onLine s.extent.start.line 0 4
  /-- An overlay is listed for each item behind the keyword, on its line and on all lines of the
  list after it. -/
  items : ∀ p, (∃ u ∈ row, u.extent.start = p) ↔
    IsItem lines p ∧ s.selection.stop ≤ p ∧ p.line ≤ s.extent.stop.line
  /-- Overlays are listed once and in the order of the text. -/
  ordered : row.Pairwise fun u v => u.extent.start < v.extent.start
  /-- What is listed are overlays, each by the longest identifier where it begins. -/
  names : ∀ u ∈ row, u.kind = .overlayRef ∧
    u.selection = .onLine u.extent.start.line u.extent.start.col
      (u.extent.start.col + byteLength u.name.toList) ∧
    ∃ (line : List Char) (c : Cursor), lines[u.extent.start.line]? = some line ∧
      c.line = visible line ∧ byteLength c.left = u.extent.start.col ∧
      IsLongestIdent c.right u.name.toList

namespace Symbol

variable {lines : List (List Char)} {s : Symbol}

/-- A list begins with its keyword. -/
theorem Marked.keyword_of_ext (h : s.Marked lines) (hrule : s.rule = .ext)
    (hcol : s.extent.start.col = 0) :
    s.name = "$EXT" ∧ s.selection = .onLine s.extent.start.line 0 4 := by
  obtain ⟨line, c, m, -, -, hread, hstart, hname, -, hselection⟩ := h
  rw [hrule] at hread
  obtain ⟨hwhole, htext⟩ := readAt_ext hread
  rw [hcol] at hstart
  rw [hwhole] at hname hselection
  constructor
  · rw [hname, htext, String.ofList_toList]
  · rw [hselection, Span.extent, ← hstart]
    have hstop : m.whole.stop = m.whole.start + byteLength m.whole.text := rfl
    rw [hstop, ← hstart, htext]
    rfl

/-- A listed overlay is the identifier that begins where it does. -/
theorem Marked.name_of_overlayRef (h : s.Marked lines) (hrule : s.rule = .overlayRef) :
    s.selection = .onLine s.extent.start.line s.extent.start.col
        (s.extent.start.col + byteLength s.name.toList) ∧
      ∃ (line : List Char) (c : Cursor), lines[s.extent.start.line]? = some line ∧
        c.line = visible line ∧ byteLength c.left = s.extent.start.col ∧
        IsLongestIdent c.right s.name.toList := by
  obtain ⟨line, c, m, hline, hc, hread, hstart, hname, -, hselection⟩ := h
  rw [hrule, readAt_overlayRef, Option.map_eq_some_iff] at hread
  obtain ⟨x, hx, rfl⟩ := hread
  have hname' : s.name.toList = x.1 := by rw [hname, String.toList_ofList]
  refine ⟨?_, line, c, hline, hc, hstart.symm, ?_⟩
  · rw [hselection, hname', hstart]
    rfl
  · rw [hname']
    exact Shape.isLongestIdent_of_ident hx

end Symbol

/-- **A list of overlays names every overlay that stands in it.** -/
theorem parse_overlay_lists (file : FileId) (text : String) {i : SymbolId} {s : Symbol}
    (hs : (parse file text).get? i = some s) (hkind : s.kind = .ext) :
    s.ListsOverlays (contentLines text.toList) ((parse file text).childSymbols i) := by
  have hrule : s.rule = .ext := by rw [Symbol.rule, hkind]
  have hmem := SymbolTree.mem_parseChars (t := parse file text) hs rfl
  have hcol := parseChars_lineStart text.toList s hmem (by rw [hrule]; rfl)
  have hmarked := parseChars_marked text.toList
  obtain ⟨hi, hlaminar⟩ := parseChars_laminar text.toList
  obtain ⟨below, hsits, hchildren, hlists, hrow⟩ :=
    SymbolTree.every_get? (t := parse file text)
      ((parseChars_lists text.toList).and (hlaminar.every [])) hs
  obtain ⟨hname, hselection⟩ := (hmarked s hmem).keyword_of_ext hrule hcol
  refine ⟨⟨hname, hcol, hselection⟩, fun p => ?_, ?_, fun u hu => ?_⟩
  · rw [SymbolTree.childSymbols_eq hsits hchildren, hlists hrule p, Position.lt_def]
    have hline : (p.line < s.extent.stop.line + 1 ∨ p.line = s.extent.stop.line + 1 ∧ p.col < 0) ↔
        p.line ≤ s.extent.stop.line := by omega
    rw [hline]
  · rw [SymbolTree.childSymbols_eq hsits hchildren]
    exact hrow.starts_increase.sublist below.heads_sublist
  · obtain ⟨j, hj, hu⟩ := List.mem_filterMap.1 hu
    obtain ⟨v, hv, hvrule⟩ := SymbolTree.rule_mem_children (parseChars_lawful text.toList) hs hj
    obtain rfl : v = u := Option.some.inj (hv.symm.trans hu)
    rw [hrule, Rule.children, List.mem_singleton] at hvrule
    refine ⟨by rw [← v.kind_rule, hvrule]; rfl, ?_⟩
    exact (hmarked v (SymbolTree.mem_parseChars (t := parse file text) hv rfl)).name_of_overlayRef
      hvrule

/-- A list over two lines, with a comment and a capital that begins no item. -/
def twoLineList : String :=
  "$ENTRY E\n$EXT ORD,CUST.NAME. -A << B\nC.D,,E\n$PROG"

/-- The list in it. -/
def twoLineListSymbol : Symbol :=
  ⟨.ext, "$EXT", "$EXT", ⟨⟨1, 0⟩, ⟨2, 6⟩⟩, .onLine 1 0 4⟩

theorem overlays_on_two_lines :
    ((parse ⟨0⟩ twoLineList).get? 1 = some twoLineListSymbol ∧ twoLineListSymbol.kind = .ext) ∧
      twoLineListSymbol.ListsOverlays (contentLines twoLineList.toList)
        ((parse ⟨0⟩ twoLineList).childSymbols 1) ∧
      ((parse ⟨0⟩ twoLineList).childSymbols 1).map (·.name) = ["ORD", "CUST.NAME", "C.D", "E"] := by
  have hs : (parse ⟨0⟩ twoLineList).get? 1 = some twoLineListSymbol := by decide +kernel
  exact ⟨⟨hs, rfl⟩, parse_overlay_lists ⟨0⟩ twoLineList hs rfl, by decide +kernel⟩

end OverlayIndex
