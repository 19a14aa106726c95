/-
The numbers of a forest's nodes.

Every row of a forest, at whatever depth, keeps its own numbering inside the numbering of the
whole: if it is numbered from where it stands, its nodes are the nodes of the forest.  `Sits`
says so.  The whole forest sits in itself, and if a row sits somewhere, so do the row below its
first node and the row beside it.  Facts about numbers then follow the forest by induction and
never count.
-/
import OverlayIndex.Symbol.Tree

namespace OverlayIndex

namespace Forest

variable {α β : Type}

/-- The row `g` is a part of `f`, numbered from `first` there and hanging below `parent`. -/
def Sits (f : Forest α) (first : Nat) (parent : Option Nat) (g : Forest α) : Prop :=
  ∀ j, j < g.size → f.nodeAt? 0 none (first + j) = g.nodeAt? first parent j

theorem sits_self (f : Forest α) : f.Sits 0 none f := by
  intro j _
  rw [Nat.zero_add]

namespace Sits

variable {f low side : Forest α} {first : Nat} {parent : Option Nat} {a : α}

theorem head (h : f.Sits first parent (node a low side)) :
    f.nodeAt? 0 none first = some ⟨a, parent, low.rootIds (first + 1)⟩ :=
  h 0 (Nat.succ_pos _)

theorem below (h : f.Sits first parent (node a low side)) :
    f.Sits (first + 1) (some first) low := by
  intro j hj
  have hsize : j + 1 < (node a low side).size := by
    rw [size]
    omega
  have hnode := h (j + 1) hsize
  rw [nodeAt?, if_pos hj] at hnode
  rw [← hnode]
  congr 1
  omega

theorem beside (h : f.Sits first parent (node a low side)) :
    f.Sits (first + low.size + 1) parent side := by
  intro j hj
  have hsize : low.size + j + 1 < (node a low side).size := by
    rw [size]
    omega
  have hnode := h (low.size + j + 1) hsize
  rw [nodeAt?, if_neg (by omega), Nat.add_sub_cancel_left] at hnode
  rw [← hnode]
  congr 1
  omega

end Sits

/-- Every node is the first of a row that sits at its number.  What a row hands down to the rows
below and beside its first node holds of that row too. -/
theorem exists_row_of_sits {f : Forest α} {P : Option Nat → Forest α → Prop}
    (hbelow : ∀ first par a below beside, P par (node a below beside) → P (some first) below)
    (hbeside : ∀ par a below beside, P par (node a below beside) → P par beside) :
    ∀ (g : Forest α) (first : Nat) (parent : Option Nat), f.Sits first parent g → P parent g →
      ∀ j, j < g.size → ∃ a par below beside, f.Sits (first + j) par (node a below beside) ∧
        P par (node a below beside) := by
  intro g
  induction g with
  | nil => intro first parent _ _ j hj; exact absurd hj (Nat.not_lt_zero j)
  | node a below beside ih₁ ih₂ =>
      intro first parent hsits hP j hj
      match j with
      | 0 => exact ⟨a, parent, below, beside, hsits, hP⟩
      | k + 1 =>
          by_cases hk : k < below.size
          · have hrow := ih₁ (first + 1) (some first) hsits.below (hbelow _ _ _ _ _ hP) k hk
            rwa [show first + 1 + k = first + (k + 1) by omega] at hrow
          · have hlt : k - below.size < beside.size := by
              rw [size] at hj
              omega
            have hrow := ih₂ (first + below.size + 1) parent hsits.beside (hbeside _ _ _ _ hP) _ hlt
            rwa [show first + below.size + 1 + (k - below.size) = first + (k + 1) by omega] at hrow

theorem lt_size_of_nodeAt? {f : Forest α} {first k : Nat} {parent : Option Nat} {n : Node α}
    (h : f.nodeAt? first parent k = some n) : k < f.size := by
  rw [nodeAt?_eq] at h
  have hlt := (List.getElem?_eq_some_iff.1 h).1
  rwa [length_nodesFrom] at hlt

/-- Every node is the first of a row that sits at its number. -/
theorem exists_row {f : Forest α} {P : Option Nat → Forest α → Prop}
    (hbelow : ∀ first par a below beside, P par (node a below beside) → P (some first) below)
    (hbeside : ∀ par a below beside, P par (node a below beside) → P par beside)
    (hf : P none f) {k : Nat} {n : Node α} (h : f.nodeAt? 0 none k = some n) :
    ∃ below beside, f.Sits k n.parent (node n.value below beside) ∧
      n.children = below.rootIds (k + 1) ∧ P n.parent (node n.value below beside) := by
  obtain ⟨a, par, below, beside, hsits, hP⟩ :=
    exists_row_of_sits hbelow hbeside f 0 none f.sits_self hf k (lt_size_of_nodeAt? h)
  rw [Nat.zero_add] at hsits
  have hhead := hsits.head
  rw [h] at hhead
  cases hhead
  exact ⟨below, beside, hsits, rfl, hP⟩

/-- A parent has a smaller number than its child. -/
theorem parent_lt_of_sits {f : Forest α} :
    ∀ (g : Forest α) (first : Nat) (parent : Option Nat), f.Sits first parent g →
      (∀ p, parent = some p → p < first) →
      ∀ j n, j < g.size → f.nodeAt? 0 none (first + j) = some n → ∀ p, n.parent = some p →
        p < first + j := by
  intro g
  induction g with
  | nil => intro first parent _ _ j n hj; exact absurd hj (Nat.not_lt_zero j)
  | node a below beside ih₁ ih₂ =>
      intro first parent hsits hpar j n hj hn p hp
      match j with
      | 0 =>
          rw [Nat.add_zero, hsits.head] at hn
          cases hn
          exact hpar p hp
      | k + 1 =>
          by_cases hk : k < below.size
          · have hlt := ih₁ (first + 1) (some first) hsits.below
              (fun q hq => by cases hq; exact Nat.lt_succ_self _) k n hk
              (by rw [← hn]; congr 1; omega) p hp
            omega
          · rw [size] at hj
            have hlt := ih₂ (first + below.size + 1) parent hsits.beside
              (fun q hq => by have := hpar q hq; omega) (k - below.size) n (by omega)
              (by rw [← hn]; congr 1; omega) p hp
            omega

@[simp] theorem nodesFrom_values (f : Forest α) (first : Nat) (parent : Option Nat) :
    (f.nodesFrom first parent).map (·.value) = f.toList := by
  induction f generalizing first parent with
  | nil => rfl
  | node a below beside ih₁ ih₂ => simp [nodesFrom, toList, ih₁, ih₂]

/-! ### One row beside another -/

@[simp] theorem map_append (g : α → β) (f f' : Forest α) :
    (f ++ f').map g = f.map g ++ f'.map g := by
  induction f with
  | nil => rfl
  | node a below beside _ ih => simp [map, ih]

@[simp] theorem width_map (g : α → β) (f : Forest α) : (f.map g).width = f.width := by
  induction f with
  | nil => rfl
  | node a below beside _ ih => simp [map, width, ih]

@[simp] theorem size_map (g : α → β) (f : Forest α) : (f.map g).size = f.size := by
  induction f with
  | nil => rfl
  | node a below beside ih₁ ih₂ => simp [map, size, ih₁, ih₂]

theorem rootIds_append (f g : Forest α) (first : Nat) :
    (f ++ g).rootIds first = f.rootIds first ++ g.rootIds (first + f.size) := by
  induction f generalizing first with
  | nil => rfl
  | node a below beside _ ih =>
      rw [node_append, rootIds, rootIds, ih, size, List.cons_append,
        show first + below.size + 1 + beside.size = first + (below.size + beside.size + 1) by omega]

theorem nodesFrom_append (f g : Forest α) (first : Nat) (parent : Option Nat) :
    (f ++ g).nodesFrom first parent =
      f.nodesFrom first parent ++ g.nodesFrom (first + f.size) parent := by
  induction f generalizing first with
  | nil => rfl
  | node a below beside _ ih =>
      rw [node_append, nodesFrom, nodesFrom, ih, size, List.cons_append, List.append_assoc,
        show first + below.size + 1 + beside.size = first + (below.size + beside.size + 1) by omega]

/-- The node with another value, in a numbering that starts `n` numbers later. -/
def Node.moved (n : Nat) (g : α → β) (x : Node α) : Node β :=
  ⟨g x.value, x.parent.map (· + n), x.children.map (· + n)⟩

theorem rootIds_moved (n : Nat) (g : α → β) (f : Forest α) (first : Nat) :
    (f.map g).rootIds (first + n) = (f.rootIds first).map (· + n) := by
  induction f generalizing first with
  | nil => rfl
  | node a below beside _ ih =>
      rw [map, rootIds, rootIds, List.map_cons, size_map, ← ih,
        show first + n + below.size + 1 = first + below.size + 1 + n by omega]

theorem nodesFrom_moved (n : Nat) (g : α → β) (f : Forest α) (first : Nat)
    (parent : Option Nat) :
    (f.map g).nodesFrom (first + n) (parent.map (· + n)) =
      (f.nodesFrom first parent).map (Node.moved n g) := by
  induction f generalizing first parent with
  | nil => rfl
  | node a below beside ih₁ ih₂ =>
      rw [map, nodesFrom, nodesFrom, List.map_cons, List.map_append, ← ih₁, ← ih₂, size_map,
        show first + n + 1 = first + 1 + n by omega, rootIds_moved,
        show first + n + below.size + 1 = first + below.size + 1 + n by omega]
      rfl

end Forest

namespace SymbolTree

theorem symbols_eq (t : SymbolTree) : t.symbols = t.forest.toList :=
  Forest.nodesFrom_values t.forest 0 none

theorem get?_eq (t : SymbolTree) (id : SymbolId) : t.get? id = t.symbols[id]? := by
  rw [get?, node?_eq, symbols, List.getElem?_map]

theorem get?_eq_some_iff {t : SymbolTree} {id : SymbolId} {s : Symbol} :
    t.get? id = some s ↔ ∃ n, t.node? id = some n ∧ n.value = s := by
  rw [get?, Option.map_eq_some_iff]

theorem parent?_lt {t : SymbolTree} {id p : SymbolId} (h : t.parent? id = some p) : p < id := by
  rw [parent?, Option.bind_eq_some_iff] at h
  obtain ⟨n, hn, hp⟩ := h
  rw [node?] at hn
  have hlt := Forest.parent_lt_of_sits t.forest 0 none t.forest.sits_self
    (fun q hq => by cases hq) id n (Forest.lt_size_of_nodeAt? hn) (by rwa [Nat.zero_add]) p hp
  rwa [Nat.zero_add] at hlt

/-- The climb from a symbol goes to its parent and on from there. -/
theorem ancestors_eq (t : SymbolTree) (id : SymbolId) :
    t.ancestors id = ((t.parent? id).map fun p => p :: t.ancestors p).getD [] := by
  rw [ancestors]
  cases h : t.parent? id with
  | none => rfl
  | some p => simp [parent?_lt h]

/-- The walk over the numbers of a row gives the row. -/
theorem outlineFrom_of_sits {t : SymbolTree} :
    ∀ (g : Forest Symbol) (first start : Nat) (parent : Option Nat), t.forest.Sits first parent g →
      start ≤ first → t.outlineFrom start (g.rootIds first) = g := by
  intro g
  induction g with
  | nil => intro first start parent _ _; rw [Forest.rootIds, outlineFrom]
  | node a below beside ih₁ ih₂ =>
      intro first start parent hsits hstart
      have hnode : t.node? first = some ⟨a, parent, below.rootIds (first + 1)⟩ := hsits.head
      have hlt : first < t.size := Forest.lt_size_of_nodeAt? hnode
      rw [Forest.rootIds, outlineFrom, hnode]
      simp only [dif_pos (And.intro hstart hlt)]
      rw [ih₁ (first + 1) (first + 1) (some first) hsits.below (Nat.le_refl _),
        ih₂ (first + below.size + 1) (first + 1) parent hsits.beside (by omega)]

/-- The walk from one number gives the symbol and the row inside it. -/
theorem outlineFrom_singleton {t : SymbolTree} {i : SymbolId} {parent : Option Nat} {a : Symbol}
    {below beside : Forest Symbol} (h : t.forest.Sits i parent (.node a below beside)) :
    t.outlineFrom i [i] = .node a below .nil := by
  have hnode : t.node? i = some ⟨a, parent, below.rootIds (i + 1)⟩ := h.head
  have hlt : i < t.size := Forest.lt_size_of_nodeAt? hnode
  rw [outlineFrom, hnode]
  simp only [dif_pos (And.intro (Nat.le_refl i) hlt)]
  rw [outlineFrom_of_sits below (i + 1) (i + 1) (some i) h.below (Nat.le_refl _), outlineFrom]

/-- **The walk from the roots meets every symbol where the text has it.** -/
theorem outline_eq (t : SymbolTree) : t.outline = t.forest :=
  outlineFrom_of_sits t.forest 0 0 none t.forest.sits_self (Nat.le_refl 0)

end SymbolTree

end OverlayIndex
