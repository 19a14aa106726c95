/-
The numbers of a tree's symbols.

A walk that starts at the roots and goes from each symbol to its children, a parent before its
children and these in order, ends, and it meets the numbers from zero on, each once.  Parents and
children tell the same story, and a climb from child to parent goes to smaller numbers until it is
at a root.  Which symbols stand directly in which is a matter of the rules.
-/
import OverlayIndex.Editor.Outline
import OverlayIndex.Proofs.Parse.Lawful
import OverlayIndex.Proofs.Workspace.Runs

namespace OverlayIndex

namespace Forest

variable {α : Type}

/-- The forest of the nodes' numbers, when numbering starts at `first`. -/
def numbered (first : Nat) : Forest α → Forest Nat
  | nil => nil
  | node _ below beside =>
    node first (below.numbered (first + 1)) (beside.numbered (first + below.size + 1))

theorem toList_numbered (f : Forest α) (first : Nat) :
    (f.numbered first).toList = List.range' first f.size := by
  induction f generalizing first with
  | nil => rfl
  | node a below beside ih₁ ih₂ =>
      have happend := List.range'_append_1 (s := first + 1) (m := below.size) (n := beside.size)
      rw [show first + 1 + below.size = first + below.size + 1 by omega] at happend
      rw [numbered, toList, ih₁, ih₂, happend, size, List.range'_succ]

theorem length_rootIds (f : Forest α) (first : Nat) : (f.rootIds first).length = f.width := by
  induction f generalizing first with
  | nil => rfl
  | node a below beside _ ih => rw [rootIds, List.length_cons, ih, width]

end Forest

/-- A walk that starts at these symbols, and goes from each to its children before it goes on to
the next, meets the numbers of this forest. -/
inductive Unfolds (children : SymbolId → List SymbolId) : List SymbolId → Forest SymbolId → Prop
  | nil : Unfolds children [] .nil
  | cons {i : SymbolId} {ids : List SymbolId} {below beside : Forest SymbolId}
      (hbelow : Unfolds children (children i) below) (hbeside : Unfolds children ids beside) :
      Unfolds children (i :: ids) (.node i below beside)

/-- There is only one way to walk. -/
theorem Unfolds.unique {children : SymbolId → List SymbolId} {ids : List SymbolId}
    {g : Forest SymbolId} (h : Unfolds children ids g) :
    ∀ g', Unfolds children ids g' → g' = g := by
  induction h with
  | nil => intro g' h'; cases h'; rfl
  | cons _ _ ih₁ ih₂ =>
      intro g' h'
      cases h' with
      | cons hbelow hbeside => rw [ih₁ _ hbelow, ih₂ _ hbeside]

theorem Unfolds.iff_eq {children : SymbolId → List SymbolId} {ids : List SymbolId}
    {g : Forest SymbolId} (h : Unfolds children ids g) (g' : Forest SymbolId) :
    Unfolds children ids g' ↔ g' = g := by
  constructor
  · intro h'
    exact h.unique g' h'
  · intro heq
    rw [heq]
    exact h

/-- A climb from a symbol to its parent, and on from there, goes through these symbols and ends. -/
inductive Climbs (parent? : SymbolId → Option SymbolId) : SymbolId → List SymbolId → Prop
  | root {i : SymbolId} (h : parent? i = none) : Climbs parent? i []
  | step {i p : SymbolId} {ids : List SymbolId} (h : parent? i = some p)
      (hclimb : Climbs parent? p ids) : Climbs parent? i (p :: ids)

namespace SymbolTree

variable {t : SymbolTree}

/-! ### Walking down -/

theorem children_of_sits {first : Nat} {parent : Option Nat} {a : Symbol}
    {below beside : Forest Symbol} (h : t.forest.Sits first parent (.node a below beside)) :
    t.children first = below.rootIds (first + 1) := by
  have hhead : t.node? first = some ⟨a, parent, below.rootIds (first + 1)⟩ := h.head
  rw [children, hhead]
  rfl

/-- The walk from a row meets the numbers of the row. -/
theorem unfolds_of_sits :
    ∀ (g : Forest Symbol) (first : Nat) (parent : Option Nat), t.forest.Sits first parent g →
      Unfolds t.children (g.rootIds first) (g.numbered first) := by
  intro g
  induction g with
  | nil => intro first parent _; exact .nil
  | node a below beside ih₁ ih₂ =>
      intro first parent hsits
      refine .cons ?_ (ih₂ _ parent hsits.beside)
      rw [children_of_sits hsits]
      exact ih₁ _ (some first) hsits.below

/-- The numbers of a row, each with its symbol, are the row. -/
theorem map_get?_numbered :
    ∀ (g : Forest Symbol) (first : Nat) (parent : Option Nat), t.forest.Sits first parent g →
      (g.numbered first).map t.get? = g.map some := by
  intro g
  induction g with
  | nil => intro first parent _; rfl
  | node a below beside ih₁ ih₂ =>
      intro first parent hsits
      rw [Forest.numbered, Forest.map, Forest.map, (head_of_sits hsits).1, ih₁ _ _ hsits.below,
        ih₂ _ _ hsits.beside]

/-! ### Parents and children -/

/-- The symbols of a row have the parent that the row hangs below. -/
theorem parent?_of_mem_rootIds :
    ∀ (g : Forest Symbol) (first : Nat) (parent : Option Nat), t.forest.Sits first parent g →
      ∀ i ∈ g.rootIds first, (∃ s, t.get? i = some s) ∧ t.parent? i = parent := by
  intro g
  induction g with
  | nil => intro first parent _ i hi; simp [Forest.rootIds] at hi
  | node a below beside _ ih =>
      intro first parent hsits i hi
      rcases List.mem_cons.1 hi with rfl | hi
      · obtain ⟨hget, hparent⟩ := head_of_sits hsits
        exact ⟨⟨a, hget⟩, hparent⟩
      · exact ih _ parent hsits.beside i hi

/-- A symbol is in the row at hand or among the children of its parent. -/
theorem mem_row_or_children :
    ∀ (g : Forest Symbol) (first : Nat) (parent : Option Nat), t.forest.Sits first parent g →
      ∀ j < g.size, first + j ∈ g.rootIds first ∨
        ∃ p, t.parent? (first + j) = some p ∧ first + j ∈ t.children p := by
  intro g
  induction g with
  | nil => intro first parent _ j hj; exact absurd hj (Nat.not_lt_zero j)
  | node a below beside ih₁ ih₂ =>
      intro first parent hsits j hj
      cases j with
      | zero => exact Or.inl (by simp [Forest.rootIds])
      | succ k =>
          by_cases hk : k < below.size
          · have heq : first + (k + 1) = first + 1 + k := by omega
            rw [heq]
            rcases ih₁ (first + 1) (some first) hsits.below k hk with hmem | hchild
            · refine Or.inr ⟨first, ?_, ?_⟩
              · exact (parent?_of_mem_rootIds _ _ _ hsits.below _ hmem).2
              · rw [children_of_sits hsits]
                exact hmem
            · exact Or.inr hchild
          · have heq : first + (k + 1) = first + below.size + 1 + (k - below.size) := by omega
            have hlt : k - below.size < beside.size := by
              rw [Forest.size] at hj
              omega
            rw [heq]
            rcases ih₂ (first + below.size + 1) parent hsits.beside _ hlt with hmem | hchild
            · exact Or.inl (List.mem_cons_of_mem _ hmem)
            · exact Or.inr hchild

theorem lt_size_iff {i : SymbolId} : i < t.size ↔ ∃ s, t.get? i = some s := by
  rw [get?_eq, symbols_eq]
  constructor
  · intro h
    exact ⟨_, List.getElem?_eq_getElem (by rwa [Forest.length_toList])⟩
  · rintro ⟨s, hs⟩
    have hlt := (List.getElem?_eq_some_iff.1 hs).1
    rwa [Forest.length_toList] at hlt

theorem mem_roots_iff {i : SymbolId} : i ∈ t.roots ↔ i < t.size ∧ t.parent? i = none := by
  have hrow := mem_row_or_children t.forest 0 none t.forest.sits_self
  constructor
  · intro hi
    obtain ⟨hget, hparent⟩ := parent?_of_mem_rootIds t.forest 0 none t.forest.sits_self i hi
    exact ⟨lt_size_iff.2 hget, hparent⟩
  · rintro ⟨hlt, hparent⟩
    have hi := hrow i hlt
    rw [Nat.zero_add, hparent] at hi
    rcases hi with hi | ⟨p, hp, -⟩
    · exact hi
    · cases hp

theorem lt_size_of_parent? {c p : SymbolId} (h : t.parent? c = some p) : c < t.size := by
  rw [parent?, Option.bind_eq_some_iff] at h
  obtain ⟨n, hn, -⟩ := h
  exact Forest.lt_size_of_nodeAt? hn

theorem mem_children_iff {p c : SymbolId} : c ∈ t.children p ↔ t.parent? c = some p := by
  constructor
  · intro hc
    rw [children] at hc
    cases hn : t.node? p with
    | none => simp [hn] at hc
    | some n =>
        obtain ⟨below, beside, hsits, hchildren, -⟩ := Forest.exists_row
          (P := fun _ _ => True) (fun _ _ _ _ _ _ => trivial) (fun _ _ _ _ _ => trivial) trivial hn
        rw [hn, Option.map_some, Option.getD_some, hchildren] at hc
        exact (parent?_of_mem_rootIds _ _ _ hsits.below c hc).2
  · intro hparent
    have hi := mem_row_or_children t.forest 0 none t.forest.sits_self c (lt_size_of_parent? hparent)
    rw [Nat.zero_add] at hi
    rcases hi with hroot | ⟨q, hq, hmem⟩
    · rw [(mem_roots_iff.1 hroot).2] at hparent
      cases hparent
    · rw [hq] at hparent
      cases hparent
      exact hmem

/-! ### Climbing up -/

theorem climbs_ancestors (t : SymbolTree) :
    ∀ i : SymbolId, Climbs t.parent? i (t.ancestors i) := by
  intro i
  -- A parent has the smaller number, which is what ends the climb.
  induction i using Nat.strongRecOn with
  | ind i ih =>
      rw [ancestors_eq]
      cases h : t.parent? i with
      | none => exact .root h
      | some p => exact .step h (ih p (parent?_lt h))

theorem eq_ancestors_of_climbs {i : SymbolId} {ids : List SymbolId}
    (h : Climbs t.parent? i ids) : ids = t.ancestors i := by
  induction h with
  | root h => rw [ancestors_eq, h]; rfl
  | step h _ ih => rw [ancestors_eq, h, ih]; rfl

/-! ### Which symbols stand in which -/

theorem rulesAround_of_get? {p : SymbolId} {s : Symbol} (h : t.get? p = some s) :
    t.rulesAround (some p) = s.rule :: t.outerRules p := by
  rw [rulesAround, h]
  rfl

/-- The rule of a child is one that its parent's rule lists. -/
theorem rule_mem_children (h : t.forest.Every Symbol.Lawful []) {i c : SymbolId} {s : Symbol}
    (hs : t.get? i = some s) (hc : c ∈ t.children i) :
    ∃ u, t.get? c = some u ∧ u.rule ∈ s.rule.children := by
  have hparent := mem_children_iff.1 hc
  obtain ⟨u, hu⟩ := lt_size_iff.1 (lt_size_of_parent? hparent)
  obtain ⟨below, -, -, hlawful⟩ := every_get? h hu
  rw [outerRules_eq, hparent, rulesAround_of_get? hs] at hlawful
  exact ⟨u, hu, hlawful.1⟩

/-- What has none of these kinds of rules takes nothing. -/
theorem children_rule_eq_nil {s : Symbol}
    (h : s.kind ∈ [.prog, .proc, .inclusion, .overlayRef, .codeValue] ∨
      s.kind = .editMask ∧ s.rule ≠ .codeMask) : s.rule.children = [] := by
  rw [← s.kind_rule] at h
  cases hr : s.rule <;> simp_all [Rule.kind, Rule.children]

end SymbolTree

end OverlayIndex
