/-
Looking symbols up in a tree.

Every look-up answers the symbol that starts first in the text, of those that stand in a certain
place, are of a certain kind and have a certain name, and it answers nothing only if there are none.
That rests on the order of the numbers: in a tree that was read from a text, symbols in one row
start one after the other, and so do those in the rows below them.  Two questions have one answer
at most, since extents do not cross: which overlay is around a position, and on the name of which
block in an inclusion the position is.
-/
import OverlayIndex.Proofs.Parse.Lines
import OverlayIndex.Proofs.Parse.Preorder
import OverlayIndex.Resolve.Locator

namespace OverlayIndex

namespace SymbolTree

variable {t : SymbolTree} {p : Position} {i j e : SymbolId} {kinds : List Kind} {name : String}

/-- The tree was read from a text. -/
def IsParsed (t : SymbolTree) : Prop :=
  ∃ text, t.forest = parseChars text

theorem IsParsed.nested (h : t.IsParsed) : ∃ real, t.Nested real := by
  obtain ⟨text, htext⟩ := h
  obtain ⟨hi, hlam⟩ := parseChars_laminar text
  refine ⟨IsPlace text, nested_of_laminar (htext ▸ hlam) ?_⟩
  rw [htext]
  exact parseChars_grammatical text

/-! ### The first symbol with a property -/

/-- The first symbol starts before the second. -/
def StartsBefore (t : SymbolTree) (i j : SymbolId) : Prop :=
  ∃ a b, t.get? i = some a ∧ t.get? j = some b ∧ a.extent.start < b.extent.start

/-- Of the symbols with the property, this one starts first. -/
def Earliest (t : SymbolTree) (P : SymbolId → Prop) (i : SymbolId) : Prop :=
  P i ∧ ∀ j, P j → j ≠ i → t.StartsBefore i j

theorem StartsBefore.not_symm (h : t.StartsBefore i j) : ¬t.StartsBefore j i := by
  intro h'
  obtain ⟨a, b, ha, hb, hlt⟩ := h
  obtain ⟨b', a', hb', ha', hlt'⟩ := h'
  rw [ha] at ha'
  rw [hb] at hb'
  cases ha'
  cases hb'
  exact lt_asymm hlt hlt'

theorem Earliest.unique {P : SymbolId → Prop} (hi : t.Earliest P i) (hj : t.Earliest P j) :
    i = j := by
  by_contra hne
  exact (hi.2 j hj.1 (Ne.symm hne)).not_symm (hj.2 i hi.1 hne)

/-- The answer is the first symbol with the property, or none if no symbol has it. -/
structure Picks (t : SymbolTree) (P : SymbolId → Prop) (answer : Option SymbolId) : Prop where
  some_iff : ∀ i, answer = some i ↔ t.Earliest P i
  none_iff : answer = none ↔ ∀ i, ¬P i

/-- A search through symbols that start one after the other picks the first of those it accepts. -/
theorem picks_find? {ids : List SymbolId} (hids : ids.Pairwise t.StartsBefore) {q : SymbolId → Bool}
    {P : SymbolId → Prop} (hP : ∀ i, i ∈ ids ∧ q i = true ↔ P i) : t.Picks P (ids.find? q) := by
  have hfirst : ∀ k, ids.find? q = some k → t.Earliest P k := by
    intro k hk
    refine ⟨(hP k).1 ⟨List.mem_of_find?_eq_some hk, List.find?_some hk⟩, ?_⟩
    obtain ⟨-, before, after, rfl, hbefore⟩ := List.find?_eq_some_iff_append.1 hk
    intro j hj hne
    obtain ⟨hmem, hq⟩ := (hP j).2 hj
    rcases List.mem_append.1 hmem with hmem | hmem
    · have hno := hbefore j hmem
      rw [hq] at hno
      cases hno
    · rcases List.mem_cons.1 hmem with rfl | hmem
      · exact absurd rfl hne
      · exact (List.pairwise_cons.1 (List.pairwise_append.1 hids).2.1).1 j hmem
  have hnone : ids.find? q = none ↔ ∀ i, ¬P i := by
    rw [List.find?_eq_none]
    simp only [← hP, not_and]
  refine ⟨fun i => ⟨hfirst i, fun hi => ?_⟩, hnone⟩
  cases hfind : ids.find? q with
  | none => exact absurd hi.1 (hnone.1 hfind i)
  | some k => rw [(hfirst k hfind).unique hi]

/-! ### Rows -/

/-- The symbol hangs below `parent`, is of one of the kinds and has the name. -/
def Stands (t : SymbolTree) (parent : Option SymbolId) (kinds : List Kind) (name : String)
    (i : SymbolId) : Prop :=
  t.parent? i = parent ∧ ∃ s, t.get? i = some s ∧ s.kind ∈ kinds ∧ s.name = name

/-- The symbol is of one of the kinds, has the name and hangs below a child of `e` of the kind
`list`. -/
def StandsWithin (t : SymbolTree) (e : SymbolId) (list : Kind) (kinds : List Kind) (name : String)
    (i : SymbolId) : Prop :=
  ∃ area s, t.parent? area = some e ∧ t.get? area = some s ∧ s.kind = list ∧
    t.Stands (some area) kinds name i

theorem satisfies_iff {q : Symbol → Bool} :
    t.satisfies q i = true ↔ ∃ s, t.get? i = some s ∧ q s = true := by
  rw [satisfies]
  cases t.get? i <;> simp

theorem Nested.startsBefore {real : Position → Prop} (h : t.Nested real) {a b : Symbol}
    (hi : t.get? i = some a) (hj : t.get? j = some b) (hbefore : t.Before i j) :
    t.StartsBefore i j := by
  rw [get?_eq] at hi
  refine ⟨a, b, by rw [get?_eq, hi], hj, ?_⟩
  exact lt_trans (h.placed a (List.mem_of_getElem? hi)).start_lt_stop
    (hbefore a b (by rw [get?_eq, hi]) hj)

theorem exists_of_mem_children {c : SymbolId} (h : c ∈ t.children i) : ∃ s, t.get? c = some s :=
  lt_size_iff.1 (lt_size_of_parent? (mem_children_iff.1 h))

/-- The symbols directly inside one start one after the other. -/
theorem IsParsed.children_ordered (h : t.IsParsed) (i : SymbolId) :
    (t.children i).Pairwise t.StartsBefore := by
  obtain ⟨real, hn⟩ := h.nested
  refine (hn.childrenApart i).imp_of_mem fun hi hj hbefore => ?_
  obtain ⟨a, ha⟩ := exists_of_mem_children hi
  obtain ⟨b, hb⟩ := exists_of_mem_children hj
  exact hn.startsBefore ha hb hbefore

theorem IsParsed.roots_ordered (h : t.IsParsed) : t.roots.Pairwise t.StartsBefore := by
  obtain ⟨real, hn⟩ := h.nested
  refine hn.rootsApart.2.imp_of_mem fun hi hj hbefore => ?_
  obtain ⟨a, ha⟩ := hn.rootsApart.1 _ hi
  obtain ⟨b, hb⟩ := hn.rootsApart.1 _ hj
  exact hn.startsBefore ha hb hbefore

/-- Where one symbol ends before another starts, what is inside the first starts before what is
inside the second. -/
theorem Nested.startsBefore_inside {real : Position → Prop} (h : t.Nested real) {c d : SymbolId}
    (hc : c ∈ t.children i) (hd : d ∈ t.children j) (hi : ∃ s, t.get? i = some s)
    (hj : ∃ s, t.get? j = some s) (hbefore : t.Before i j) : t.StartsBefore c d := by
  obtain ⟨a, ha⟩ := hi
  obtain ⟨b, hb⟩ := hj
  obtain ⟨u, hu, hinside⟩ := h.inside i a ha c hc
  obtain ⟨v, hv, hinside'⟩ := h.inside j b hb d hd
  refine h.startsBefore hu hv fun u' v' hu' hv' => ?_
  rw [hu] at hu'
  rw [hv] at hv'
  cases hu'
  cases hv'
  calc u.extent.stop ≤ a.extent.stop := (Extent.encloses_iff.1 hinside).2
    _ < b.extent.start := hbefore a b ha hb
    _ ≤ v.extent.start := (Extent.encloses_iff.1 hinside').1

/-- The symbols below those of one kind inside a symbol start one after the other. -/
theorem IsParsed.within_ordered (h : t.IsParsed) (e : SymbolId) (list : Kind) :
    ((t.childrenOfKind e list).flatMap t.children).Pairwise t.StartsBefore := by
  obtain ⟨real, hn⟩ := h.nested
  refine List.pairwise_flatMap.2 ⟨fun area _ => h.children_ordered area, ?_⟩
  refine ((hn.childrenApart e).filter _).imp_of_mem fun hi hj hbefore c hc d hd => ?_
  exact hn.startsBefore_inside hc hd (exists_of_mem_children (List.mem_filter.1 hi).1)
    (exists_of_mem_children (List.mem_filter.1 hj).1) hbefore

/-! ### The look-ups -/

theorem IsParsed.picks_findChild? (h : t.IsParsed) (e : SymbolId) (kinds : List Kind)
    (name : String) : t.Picks (t.Stands (some e) kinds name) (t.findChild? e kinds name) := by
  refine picks_find? (h.children_ordered e) fun i => ?_
  rw [mem_children_iff, satisfies_iff, Stands]
  simp

theorem IsParsed.picks_findRoot? (h : t.IsParsed) (kind : Kind) (name : String) :
    t.Picks (t.Stands none [kind] name) (t.findRoot? kind name) := by
  refine picks_find? h.roots_ordered fun i => ?_
  rw [mem_roots_iff, lt_size_iff, satisfies_iff, Stands]
  constructor
  · intro hi
    obtain ⟨⟨-, hparent⟩, s, hs, hq⟩ := hi
    exact ⟨hparent, s, hs, by simpa using hq⟩
  · intro hi
    obtain ⟨hparent, s, hs, hq⟩ := hi
    exact ⟨⟨⟨s, hs⟩, hparent⟩, s, hs, by simpa using hq⟩

/-- The first symbol of a name below the children of one kind. -/
theorem IsParsed.picks_findWithin? (h : t.IsParsed) (e : SymbolId) (list : Kind) (kinds : List Kind)
    (name : String) : t.Picks (t.StandsWithin e list kinds name)
      ((t.childrenOfKind e list).findSome? fun area => t.findChild? area kinds name) := by
  unfold findChild?
  rw [← List.find?_flatMap]
  refine picks_find? (h.within_ordered e list) fun i => ?_
  rw [List.mem_flatMap, satisfies_iff, StandsWithin]
  constructor
  · intro hi
    obtain ⟨⟨area, harea, hchild⟩, s, hs, hq⟩ := hi
    obtain ⟨hchild', hkind⟩ := List.mem_filter.1 harea
    obtain ⟨u, hu, huk⟩ := satisfies_iff.1 hkind
    exact ⟨area, u, mem_children_iff.1 hchild', hu, of_decide_eq_true huk, mem_children_iff.1 hchild,
      s, hs, by simpa using hq⟩
  · intro hi
    obtain ⟨area, u, hparent, hu, huk, hparent', s, hs, hq⟩ := hi
    refine ⟨⟨area, List.mem_filter.2 ⟨mem_children_iff.2 hparent, ?_⟩, mem_children_iff.2 hparent'⟩,
      s, hs, by simpa using hq⟩
    exact satisfies_iff.2 ⟨u, hu, decide_eq_true huk⟩

/-- The symbol is an overlay and the position lies in it. -/
def Around (t : SymbolTree) (p : Position) (e : SymbolId) : Prop :=
  ∃ s, t.get? e = some s ∧ s.kind = .entry ∧ s.extent.contains p = true

/-- Extents do not cross, so there is one overlay around a position at most. -/
theorem IsParsed.around_unique (h : t.IsParsed) (hi : t.Around p i) (hj : t.Around p j) : i = j := by
  obtain ⟨real, hn⟩ := h.nested
  obtain ⟨a, ha, hka, hpa⟩ := hi
  obtain ⟨b, hb, hkb, hpb⟩ := hj
  exact hn.oneEntry p i j a b ha hb hka hkb hpa hpb

theorem IsParsed.entryAt?_eq_some_iff (h : t.IsParsed) : t.entryAt? p = some e ↔ t.Around p e := by
  have haround : ∀ i, i ∈ t.roots ∧
      t.satisfies (fun s => s.kind = .entry && s.extent.contains p) i = true ↔ t.Around p i := by
    intro i
    rw [mem_roots_iff, lt_size_iff, satisfies_iff, Around]
    constructor
    · intro hi
      obtain ⟨-, s, hs, hq⟩ := hi
      exact ⟨s, hs, by simpa using hq⟩
    · intro hi
      obtain ⟨s, hs, hkind, hp⟩ := hi
      obtain ⟨text, htext⟩ := h
      have hg := parseChars_grammatical text
      rw [← htext] at hg
      exact ⟨⟨⟨s, hs⟩, parent?_of_entry hg hs hkind⟩, s, hs, by simp [hkind, hp]⟩
  have hpicks : t.Picks (t.Around p) (t.entryAt? p) := picks_find? h.roots_ordered haround
  rw [hpicks.some_iff]
  exact ⟨fun he => he.1, fun he => ⟨he, fun j hj hne => absurd (h.around_unique hj he) hne⟩⟩

/-! ### Inclusions -/

/-- The position is on the name of the block in an inclusion of this target. -/
def OnBlockName (t : SymbolTree) (p : Position) (target : InclusionTarget) : Prop :=
  ∃ i s, t.get? i = some s ∧ s.kind = .inclusion ∧ InclusionTarget.parse? s.name = some target ∧
    s.selection.start.line = p.line ∧ s.selection.start.col + target.blockOffset ≤ p.col ∧
    p.col ≤ s.selection.start.col + target.blockOffset + byteLength target.block.toList

theorem blockUnder?_eq_some_iff {s : Symbol} {target : InclusionTarget} :
    blockUnder? p s = some target ↔ s.kind = .inclusion ∧
      InclusionTarget.parse? s.name = some target ∧ s.selection.start.line = p.line ∧
      s.selection.start.col + target.blockOffset ≤ p.col ∧
      p.col ≤ s.selection.start.col + target.blockOffset + byteLength target.block.toList := by
  unfold blockUnder?
  by_cases h : s.kind = .inclusion ∧ s.selection.start.line = p.line
  · rw [if_pos h, Option.filter_eq_some_iff]
    simp [h.1, h.2]
  · rw [if_neg h]
    constructor
    · intro hnone
      cases hnone
    · intro hs
      exact absurd ⟨hs.1, hs.2.2.1⟩ h

/-- An inclusion starts in column zero of the line on which its name stands. -/
theorem IsParsed.start_of_inclusion (h : t.IsParsed) {s : Symbol} (hs : s ∈ t.symbols)
    (hkind : s.kind = .inclusion) : s.extent.start = ⟨s.selection.start.line, 0⟩ := by
  obtain ⟨text, htext⟩ := h
  rw [symbols_eq, htext] at hs
  have hrule : s.rule = .inclusion := by rw [Symbol.rule, hkind]
  have hcol := parseChars_lineStart text s hs (by rw [hrule]; rfl)
  obtain ⟨line, c, m, -, -, -, -, -, -, hselection⟩ := parseChars_marked text s hs
  rw [hselection]
  exact congrArg (Position.mk s.extent.start.line) hcol

/-- No two symbols start at the same place. -/
theorem Nested.eq_of_start_eq {real : Position → Prop} (h : t.Nested real) {a b : Symbol}
    (ha : a ∈ t.symbols) (hb : b ∈ t.symbols) (heq : a.extent.start = b.extent.start) : a = b := by
  obtain ⟨i, hi, rfl⟩ := List.getElem_of_mem ha
  obtain ⟨j, hj, rfl⟩ := List.getElem_of_mem hb
  have hordered := List.pairwise_iff_getElem.1 h.ordered
  rcases Nat.lt_trichotomy i j with hlt | rfl | hlt
  · exact absurd heq (ne_of_lt (hordered i j hi hj hlt))
  · rfl
  · exact absurd heq.symm (ne_of_lt (hordered j i hj hi hlt))

/-- No two inclusions start on one line, so the position is on the name of one block at most. -/
theorem IsParsed.inclusionAt?_eq_some_iff (h : t.IsParsed) {target : InclusionTarget} :
    t.inclusionAt? p = some target ↔ t.OnBlockName p target := by
  have hon : t.OnBlockName p target ↔ ∃ s ∈ t.symbols, blockUnder? p s = some target := by
    unfold OnBlockName
    simp only [blockUnder?_eq_some_iff, get?_eq, List.mem_iff_getElem?]
    constructor
    · intro hi
      obtain ⟨i, s, hs, hrest⟩ := hi
      exact ⟨s, ⟨i, hs⟩, hrest⟩
    · intro hi
      obtain ⟨s, ⟨i, hs⟩, hrest⟩ := hi
      exact ⟨i, s, hs, hrest⟩
  rw [hon, inclusionAt?]
  constructor
  · exact List.exists_of_findSome?_eq_some
  · intro hs
    obtain ⟨s, hs, hunder⟩ := hs
    cases hfind : t.symbols.findSome? (blockUnder? p) with
    | none =>
        rw [List.findSome?_eq_none_iff.1 hfind s hs] at hunder
        cases hunder
    | some found =>
        obtain ⟨u, hu, hfound⟩ := List.exists_of_findSome?_eq_some hfind
        obtain ⟨hkind, -, hline, -⟩ := blockUnder?_eq_some_iff.1 hunder
        obtain ⟨hkind', -, hline', -⟩ := blockUnder?_eq_some_iff.1 hfound
        obtain ⟨real, hn⟩ := h.nested
        have hsame : u = s := hn.eq_of_start_eq hu hs <| by
          rw [h.start_of_inclusion hu hkind', h.start_of_inclusion hs hkind, hline, hline']
        rw [← hfound, hsame, hunder]

end SymbolTree

end OverlayIndex
