/-
How the extents of a tree lie to each other.

The forest of a text is laminar, and here that is read off in terms of symbol numbers: every
child lies inside its parent, siblings are strictly apart, and starts increase with the
numbers.  So of all symbols that hold a position, each is the parent of the next, and the last
of them with its ancestors are all there are.
-/
import OverlayIndex.Proofs.Parse.Grammatical
import OverlayIndex.Proofs.Parse.Laminar

namespace OverlayIndex

namespace Forest

variable {real : Position → Prop}

/-- All symbols of a laminar forest, at whatever depth, lie between its two bounds. -/
theorem Laminar.mem {lo hi : Position} {f : Forest Symbol} (h : f.Laminar real lo hi) :
    ∀ s ∈ f.toList, lo ≤ s.extent.start ∧ s.extent.stop < hi ∧ s.WellPlaced real := by
  induction f generalizing lo hi with
  | nil => intro s hs; simp [toList] at hs
  | node a below beside ih₁ ih₂ =>
      obtain ⟨hlo, hhi, ha, hbelow, hbeside⟩ := h
      intro s hs
      rw [toList, List.mem_cons, List.mem_append] at hs
      rcases hs with rfl | hs | hs
      · exact ⟨hlo, hhi, ha⟩
      · obtain ⟨h₁, h₂, h₃⟩ := ih₁ hbelow s hs
        have hstart := Position.next_le_iff.1 h₁
        exact ⟨le_trans hlo (le_of_lt hstart), lt_of_le_of_lt (Position.lt_next_iff.1 h₂) hhi, h₃⟩
      · obtain ⟨h₁, h₂, h₃⟩ := ih₂ hbeside s hs
        have hstart := lt_trans ha.start_lt_stop (Position.next_le_iff.1 h₁)
        exact ⟨le_trans hlo (le_of_lt hstart), h₂, h₃⟩

/-- In numbering order, each symbol starts after the one before. -/
theorem Laminar.starts_increase {lo hi : Position} {f : Forest Symbol}
    (h : f.Laminar real lo hi) :
    f.toList.Pairwise fun a b => a.extent.start < b.extent.start := by
  induction f generalizing lo hi with
  | nil => exact List.Pairwise.nil
  | node a below beside ih₁ ih₂ =>
      obtain ⟨-, -, ha, hbelow, hbeside⟩ := h
      rw [toList, List.pairwise_cons, List.pairwise_append]
      have hlow := hbelow.mem
      have hside := hbeside.mem
      refine ⟨?_, ih₁ hbelow, ih₂ hbeside, ?_⟩
      · intro b hb
        rcases List.mem_append.1 hb with hb | hb
        · exact Position.next_le_iff.1 (hlow b hb).1
        · exact lt_trans ha.start_lt_stop (Position.next_le_iff.1 (hside b hb).1)
      · intro b hb c hc
        -- What is below ends with `a` at the latest, and what is beside starts after `a`.
        have hb' := lt_of_lt_of_le (hlow b hb).2.2.start_lt_stop
          (Position.lt_next_iff.1 (hlow b hb).2.1)
        exact lt_trans hb' (Position.next_le_iff.1 (hside c hc).1)

end Forest

namespace SymbolTree

variable {real : Position → Prop} {t : SymbolTree}

/-- The first symbol ends strictly before the second starts. -/
def Before (t : SymbolTree) (i j : SymbolId) : Prop :=
  ∀ a b, t.get? i = some a → t.get? j = some b → a.extent.stop < b.extent.start

/-- The numbers of the symbols whose extents hold the position, in order. -/
def holders (t : SymbolTree) (p : Position) : List SymbolId :=
  (t.symbols.zipIdx.filter fun x => x.1.extent.contains p).map (·.2)

theorem get?_of_node? {i : SymbolId} {n : Forest.Node Symbol} (h : t.node? i = some n) :
    t.get? i = some n.value := by
  rw [get?, h]
  rfl

/-- The symbols of a laminar row lie between its bounds, one strictly after the other. -/
theorem row_apart :
    ∀ (g : Forest Symbol) (first : Nat) (parent : Option Nat) (lo hi : Position),
      t.forest.Sits first parent g → g.Laminar real lo hi →
      (∀ i ∈ g.rootIds first, ∃ s, t.get? i = some s ∧ lo ≤ s.extent.start ∧ s.extent.stop < hi) ∧
        (g.rootIds first).Pairwise t.Before := by
  intro g
  induction g with
  | nil =>
      intro first parent lo hi _ _
      exact ⟨fun i hi => by simp [Forest.rootIds] at hi, List.Pairwise.nil⟩
  | node a below beside _ ih =>
      intro first parent lo hi hsits hlam
      obtain ⟨hlo, hhi, ha, -, hbeside⟩ := hlam
      obtain ⟨hmem, hapart⟩ := ih _ parent _ hi hsits.beside hbeside
      have hget : t.get? first = some a := get?_of_node? hsits.head
      rw [Forest.rootIds, List.pairwise_cons]
      refine ⟨?_, ?_, hapart⟩
      · intro i hi
        rcases List.mem_cons.1 hi with rfl | hi
        · exact ⟨a, hget, hlo, hhi⟩
        · obtain ⟨s, hs, hstart, hstop⟩ := hmem i hi
          have hlt := lt_trans ha.start_lt_stop (Position.next_le_iff.1 hstart)
          exact ⟨s, hs, le_trans hlo (le_of_lt hlt), hstop⟩
      · intro i hi x y hx hy
        obtain ⟨s, hs, hstart, -⟩ := hmem i hi
        rw [hget] at hx
        rw [hs] at hy
        cases hx
        cases hy
        exact Position.next_le_iff.1 hstart

/-- The row below a symbol of a laminar tree is laminar inside the symbol's extent. -/
theorem exists_row_below {hi : Position} (h : t.forest.Laminar real Position.origin hi)
    {i : SymbolId} {n : Forest.Node Symbol} (hn : t.node? i = some n) :
    ∃ below, t.forest.Sits (i + 1) (some i) below ∧ n.children = below.rootIds (i + 1) ∧
      below.Laminar real n.value.extent.start.next n.value.extent.stop.next := by
  let P : Option Nat → Forest Symbol → Prop := fun _ g => ∃ lo hi, g.Laminar real lo hi
  have hbelow : ∀ first par a below beside, P par (.node a below beside) → P (some first) below := by
    rintro first par a below beside ⟨lo, hi, -, -, -, hlow, -⟩
    exact ⟨_, _, hlow⟩
  have hbeside : ∀ par a below beside, P par (.node a below beside) → P par beside := by
    rintro par a below beside ⟨lo, hi, -, -, -, -, hside⟩
    exact ⟨_, _, hside⟩
  have hself : P none t.forest := ⟨Position.origin, hi, h⟩
  obtain ⟨below, beside, hsits, hchildren, lo, hi, -, -, -, hlow, -⟩ :=
    Forest.exists_row hbelow hbeside hself hn
  exact ⟨below, hsits.below, hchildren, hlow⟩

/-! ### The symbols around a position -/

/-- Of the row's symbols, at whatever depth, the numbers of those whose extents hold the
position. -/
def rowHolders (p : Position) (first : Nat) (g : Forest Symbol) : List SymbolId :=
  ((g.toList.zipIdx first).filter fun x => x.1.extent.contains p).map (·.2)

theorem holders_eq (t : SymbolTree) (p : Position) : t.holders p = rowHolders p 0 t.forest := by
  rw [holders, rowHolders, symbols_eq]

theorem rowHolders_node (p : Position) (first : Nat) (a : Symbol) (below beside : Forest Symbol) :
    rowHolders p first (.node a below beside) =
      (if a.extent.contains p then [first] else []) ++ rowHolders p (first + 1) below ++
        rowHolders p (first + below.size + 1) beside := by
  simp only [rowHolders, Forest.toList, List.zipIdx_cons, List.zipIdx_append, List.filter_cons,
    List.filter_append, Forest.length_toList]
  rw [show first + 1 + below.size = first + below.size + 1 by omega]
  by_cases ha : a.extent.contains p = true
  · rw [if_pos ha, if_pos ha]
    simp
  · rw [if_neg ha, if_neg ha]
    simp

/-- No symbol of a laminar row holds a position outside the row's bounds. -/
theorem rowHolders_outside {lo hi p : Position} {g : Forest Symbol}
    (h : g.Laminar real lo hi) (hp : p < lo ∨ hi ≤ p) (first : Nat) :
    rowHolders p first g = [] := by
  rw [rowHolders, List.map_eq_nil_iff, List.filter_eq_nil_iff]
  intro x hx
  rw [Extent.contains_iff]
  rintro ⟨hstart, hstop⟩
  obtain ⟨hlo, hhi, -⟩ := h.mem x.1 (List.fst_mem_of_mem_zipIdx hx)
  rcases hp with hp | hp
  · exact absurd (lt_of_lt_of_le hp (le_trans hlo hstart)) (lt_irrefl p)
  · exact absurd (lt_of_le_of_lt (le_trans hp hstop) hhi) (lt_irrefl hi)

/-- Each of the symbols is the parent of the next, and `parent` is that of the first. -/
def Descends (t : SymbolTree) : Option SymbolId → List SymbolId → Prop
  | _, [] => True
  | parent, i :: ids => t.parent? i = parent ∧ t.Descends (some i) ids

theorem rowHolders_descends (p : Position) :
    ∀ (g : Forest Symbol) (first : Nat) (parent : Option Nat) (lo hi : Position),
      t.forest.Sits first parent g → g.Laminar real lo hi →
      t.Descends parent (rowHolders p first g) := by
  intro g
  induction g with
  | nil => intro first parent lo hi _ _; trivial
  | node a below beside ih₁ ih₂ =>
      intro first parent lo hi hsits hlam
      obtain ⟨-, -, -, hbelow, hbeside⟩ := hlam
      rw [rowHolders_node]
      by_cases ha : a.extent.contains p = true
      · -- What is beside starts too late to hold the position, so only what is below counts.
        have hp := (Extent.contains_iff.1 ha).2
        rw [if_pos ha, rowHolders_outside hbeside (Or.inl (Position.lt_next_iff.2 hp)),
          List.append_nil]
        refine ⟨?_, ih₁ _ _ _ _ hsits.below hbelow⟩
        rw [parent?, node?, hsits.head]
        rfl
      · -- What is below lies inside an extent that does not hold the position.
        have hp : p < a.extent.start.next ∨ a.extent.stop.next ≤ p := by
          rcases lt_or_ge p a.extent.start with hlt | hge
          · exact Or.inl (lt_trans hlt (Position.lt_next _))
          · rcases le_or_gt p a.extent.stop with hle | hgt
            · exact absurd (Extent.contains_iff.2 ⟨hge, hle⟩) ha
            · exact Or.inr (Position.next_le_iff.2 hgt)
        rw [if_neg ha, rowHolders_outside hbelow hp]
        exact ih₂ _ _ _ _ hsits.beside hbeside

/-- The symbols on the way down to the last one are that one and its ancestors. -/
theorem Descends.reverse_eq :
    ∀ (ids : List SymbolId) (parent : Option SymbolId) (i : SymbolId), t.Descends parent (i :: ids) →
      ∃ last, (i :: ids).reverse ++ (parent.map fun q => q :: t.ancestors q).getD [] =
        last :: t.ancestors last := by
  intro ids
  induction ids with
  | nil =>
      intro parent i h
      refine ⟨i, ?_⟩
      rw [ancestors_eq t i, h.1]
      rfl
  | cons j ids ih =>
      intro parent i h
      obtain ⟨last, hlast⟩ := ih (some i) j h.2
      refine ⟨last, ?_⟩
      rw [← hlast, Option.map_some, Option.getD_some, ancestors_eq t i, h.1, List.reverse_cons]
      simp

theorem holders_eq_ancestors {p : Position} (h : t.Descends none (t.holders p)) :
    t.holders p = [] ∨ ∃ i, t.holders p = (i :: t.ancestors i).reverse := by
  cases hids : t.holders p with
  | nil => exact Or.inl rfl
  | cons i ids =>
      rw [hids] at h
      obtain ⟨last, hlast⟩ := Descends.reverse_eq ids none i h
      refine Or.inr ⟨last, ?_⟩
      rw [← hlast]
      simp

theorem mem_holders {p : Position} {i : SymbolId} {s : Symbol} (hs : t.get? i = some s)
    (hp : s.extent.contains p = true) : i ∈ t.holders p := by
  rw [get?_eq] at hs
  rw [holders, List.mem_map]
  refine ⟨(s, i), List.mem_filter.2 ⟨?_, hp⟩, rfl⟩
  exact List.mem_zipIdx_iff_getElem?.2 hs

/-- On the way down, only the first symbol hangs below nothing. -/
theorem Descends.parent_ne_none :
    ∀ (ids : List SymbolId) (q : SymbolId), t.Descends (some q) ids →
      ∀ i ∈ ids, t.parent? i ≠ none := by
  intro ids
  induction ids with
  | nil => intro q _ i hi; simp at hi
  | cons j ids ih =>
      intro q h i hi
      rcases List.mem_cons.1 hi with rfl | hi
      · rw [h.1]
        simp
      · exact ih j h.2 i hi

/-- On the way down there is only one symbol that hangs below nothing. -/
theorem Descends.eq_of_parent_none {ids : List SymbolId} (h : t.Descends none ids)
    {i j : SymbolId} (hi : i ∈ ids) (hj : j ∈ ids) (hi' : t.parent? i = none)
    (hj' : t.parent? j = none) : i = j := by
  cases ids with
  | nil => simp at hi
  | cons k ids =>
      have hrest := Descends.parent_ne_none ids k h.2
      rcases List.mem_cons.1 hi with rfl | hi
      · rcases List.mem_cons.1 hj with rfl | hj
        · rfl
        · exact absurd hj' (hrest j hj)
      · exact absurd hi' (hrest i hi)

/-! ### The tree of a text -/

/-- The extents of the tree never cross. -/
structure Nested (real : Position → Prop) (t : SymbolTree) : Prop where
  /-- No extent is empty, each holds its selection, and its ends are places of the text. -/
  placed : ∀ s ∈ t.symbols, s.WellPlaced real
  /-- A child lies inside its parent. -/
  inside : ∀ i s, t.get? i = some s → ∀ c ∈ t.children i,
    ∃ u, t.get? c = some u ∧ s.extent.encloses u.extent = true
  /-- Of two children of a symbol, the earlier one ends before the later one starts. -/
  childrenApart : ∀ i, (t.children i).Pairwise t.Before
  /-- The roots are symbols, and the earlier one ends before the later one starts. -/
  rootsApart : (∀ r ∈ t.roots, ∃ s, t.get? r = some s) ∧ t.roots.Pairwise t.Before
  /-- Starts increase with the numbers. -/
  ordered : t.symbols.Pairwise fun a b => a.extent.start < b.extent.start
  /-- The symbols that hold a position are one symbol and its ancestors. -/
  chain : ∀ p, t.holders p = [] ∨ ∃ i, t.holders p = (i :: t.ancestors i).reverse
  /-- At most one overlay holds a position. -/
  oneEntry : ∀ p i j a b, t.get? i = some a → t.get? j = some b → a.kind = .entry →
    b.kind = .entry → a.extent.contains p = true → b.extent.contains p = true → i = j

theorem parent?_of_entry (hg : t.forest.Grammatical Rule.topLevel) {i : SymbolId} {s : Symbol}
    (hs : t.get? i = some s) (hkind : s.kind = .entry) : t.parent? i = none := by
  obtain ⟨n, hn, rfl⟩ := get?_eq_some_iff.1 hs
  rw [parent?, hn]
  exact hg.parent_of_entry hn hkind

/-- A laminar forest that follows the grammar is nested, number by number. -/
theorem nested_of_laminar {hi : Position} (h : t.forest.Laminar real Position.origin hi)
    (hg : t.forest.Grammatical Rule.topLevel) : t.Nested real := by
  have hdescends : ∀ p, t.Descends none (t.holders p) := by
    intro p
    rw [holders_eq]
    exact rowHolders_descends p t.forest 0 none _ _ t.forest.sits_self h
  have hroots := row_apart t.forest 0 none _ _ t.forest.sits_self h
  refine ⟨?_, ?_, ?_, ⟨?_, hroots.2⟩, ?_, ?_, ?_⟩
  · intro s hs
    rw [symbols_eq] at hs
    exact (h.mem s hs).2.2
  · intro i s hs c hc
    obtain ⟨n, hn, rfl⟩ := get?_eq_some_iff.1 hs
    obtain ⟨below, hsits, hchildren, hlam⟩ := exists_row_below h hn
    have hids : t.children i = below.rootIds (i + 1) := by
      rw [children, hn, ← hchildren]
      rfl
    obtain ⟨u, hu, hstart, hstop⟩ := (row_apart below _ _ _ _ hsits hlam).1 c (hids ▸ hc)
    refine ⟨u, hu, Extent.encloses_iff.2 ⟨le_of_lt (Position.next_le_iff.1 hstart), ?_⟩⟩
    exact Position.lt_next_iff.1 hstop
  · intro i
    rw [children]
    cases hn : t.node? i with
    | none => exact List.Pairwise.nil
    | some n =>
        obtain ⟨below, hsits, hchildren, hlam⟩ := exists_row_below h hn
        rw [Option.map_some, Option.getD_some, hchildren]
        exact (row_apart below _ _ _ _ hsits hlam).2
  · intro r hr
    obtain ⟨s, hs, -⟩ := hroots.1 r hr
    exact ⟨s, hs⟩
  · rw [symbols_eq]
    exact h.starts_increase
  · intro p
    exact holders_eq_ancestors (hdescends p)
  · intro p i j a b ha hb hka hkb hpa hpb
    exact (hdescends p).eq_of_parent_none (mem_holders ha hpa) (mem_holders hb hpb)
      (parent?_of_entry hg ha hka) (parent?_of_entry hg hb hkb)

end SymbolTree

/-- **The extents of every text's tree are nested.** -/
theorem parse_extents_nested (file : FileId) (text : String) :
    (parse file text).Nested (IsPlace text.toList) := by
  obtain ⟨hi, hlam⟩ := parseChars_laminar text.toList
  exact SymbolTree.nested_of_laminar hlam (parseChars_grammatical text.toList)

end OverlayIndex
