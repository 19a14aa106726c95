/-
The symbols of a whole text by number.

When the loop over the lines has done its last round on the last line, what is still open closes at
the end of the text.  The ledger that is left has the rows of the tree of the text, and all of them
are from its file.  They are numbered as a walk from the roots meets them, which goes from each
symbol to its children, a parent before its children and these in order.  The outline is such a walk
over the numbers of children, so it meets every symbol once.

No round knows of this order.  A round gives a symbol the next number and adds that number to what
its parent holds, and closing changes no number; that the order comes out as that of the walk is
what `round?_ofDraft` is for.
-/
import OverlayIndex.Editor.Outline
import OverlayIndex.Proofs.Parse.StackDiscipline
import OverlayIndex.Proofs.Workspace.Runs

namespace OverlayIndex

namespace Ledger

/-! ### When the loop is over -/

/-- The ledger when all is read: on the last line no round is left, and what is open closes at the
end of the text. -/
def Visit.finish? (lines : List (List Char)) (v : Visit) : Option Ledger :=
  lines[v.line]?.bind fun line =>
    (round? (contextOf lines v.line) (visible line) v.ledger v.offset).bind fun round =>
      if round.isNone ∧ v.line + 1 = lines.length then
        v.ledger.finish? (edgeBefore lines (v.line + 1))
      else none

/-- The last ledger, if the loop is over after that many rounds. -/
def last? (file : FileId) (lines : List (List Char)) (k : Nat) : Option Ledger :=
  (visit? file lines k).bind (Visit.finish? lines)

section Loop

variable {file : FileId} {lines : List (List Char)}

theorem Visit.finish?_of_end {n : Nat} {d : Draft} {c : Cursor} (h : Reached lines n d c)
    (hend : (contextOf lines n).step? d c = none) (hlast : n + 1 = lines.length) :
    finish? lines (ofDraft file n d c) =
      some (.ofDraft file ⟨[], d.finish (edgeBefore lines (n + 1))⟩) := by
  obtain ⟨line, hline, hc⟩ := h.exists_line
  show lines[n]?.bind _ = _
  rw [hline, Option.bind_some, ← hc]
  show (round? (contextOf lines n) c.line (.ofDraft file d) (byteLength c.left)).bind _ = _
  rw [round?_ofDraft, hend, Option.map_none, Option.bind_some]
  show (if _ then (Ledger.ofDraft file d).finish? (edgeBefore lines (n + 1)) else none) = _
  rw [if_pos ⟨rfl, hlast⟩, finish?_ofDraft]

/-- When the loop is over, there is no next round. -/
theorem Visit.next?_of_finish? {v : Visit} {l : Ledger} (h : v.finish? lines = some l) :
    v.next? lines = none := by
  obtain ⟨line, hline, h⟩ := Option.bind_eq_some_iff.1 h
  obtain ⟨round, hround, h⟩ := Option.bind_eq_some_iff.1 h
  by_cases hover : round.isNone = true ∧ v.line + 1 = lines.length
  · obtain ⟨hnone, hlast⟩ := hover
    have hbelow : lines[v.line + 1]? = none :=
      List.getElem?_eq_none_iff.2 (Nat.le_of_eq hlast.symm)
    rw [Option.isNone_iff_eq_none] at hnone
    rw [next?, hline, Option.bind_some, hround, hnone, Option.bind_some, Option.elim_none, hbelow,
      Option.bind_none]
  · rw [if_neg hover] at h
    cases h

/-- Behind a last round there are no others. -/
theorem visit?_of_lt {k m : Nat} {v : Visit} (hk : visit? file lines k = some v)
    (hlast : v.next? lines = none) (hlt : k < m) : visit? file lines m = none := by
  induction m with
  | zero => exact absurd hlt (Nat.not_lt_zero k)
  | succ m ih =>
      rw [visit?]
      rcases Nat.lt_or_eq_of_le (Nat.le_of_lt_succ hlt) with hless | rfl
      · rw [ih hless, Option.bind_none]
      · rw [hk, Option.bind_some, hlast]

/-- The loop is over once at most. -/
theorem last?_unique {k m : Nat} {l l' : Ledger} (h : last? file lines k = some l)
    (h' : last? file lines m = some l') : m = k ∧ l' = l := by
  obtain ⟨v, hv, hl⟩ := Option.bind_eq_some_iff.1 h
  obtain ⟨v', hv', hl'⟩ := Option.bind_eq_some_iff.1 h'
  rcases Nat.lt_trichotomy k m with hlt | rfl | hlt
  · rw [visit?_of_lt hv (Visit.next?_of_finish? hl) hlt] at hv'
    cases hv'
  · rw [h] at h'
    exact ⟨rfl, (Option.some.inj h').symm⟩
  · rw [visit?_of_lt hv' (Visit.next?_of_finish? hl') hlt] at hv
    cases hv

end Loop

/-! ### The ledger of a tree -/

/-- The ledger of a tree, in which nothing is open. -/
def ofTree (t : SymbolTree) : Ledger :=
  ofDraft t.file ⟨[], t.forest⟩

/-- **The loop comes to an end, and leaves the ledger of the tree of the text.** -/
theorem exists_last? (file : FileId) (text : String) :
    ∃ k, ∀ k' l, last? file (contentLines text.toList) k' = some l ↔
      k' = k ∧ l = ofTree (parse file text) := by
  obtain ⟨n, d, c, hreached, hend, hlast, hparse⟩ := parseChars_reached text.toList
  obtain ⟨k, hk⟩ := exists_visit? file hreached
  have hover : last? file (contentLines text.toList) k = some (ofTree (parse file text)) := by
    rw [last?, hk, Option.bind_some, Visit.finish?_of_end hreached hend hlast, ← hparse]
    rfl
  refine ⟨k, fun k' l => ⟨fun h => last?_unique hover h, ?_⟩⟩
  rintro ⟨rfl, rfl⟩
  exact hover

/-- The symbol of a number. -/
def value? (l : Ledger) (i : SymbolId) : Option Symbol :=
  l.rows[i]?.map (·.value)

/-- The number of the symbol that directly holds this one. -/
def parent? (l : Ledger) (i : SymbolId) : Option SymbolId :=
  l.rows[i]?.bind (·.parent)

/-- The numbers of the symbols directly inside this one. -/
def children (l : Ledger) (i : SymbolId) : List SymbolId :=
  (l.rows[i]?.map (·.children)).getD []

section OfTree

variable (t : SymbolTree)

theorem getElem?_ofTree (i : SymbolId) :
    (ofTree t).rows[i]? = (t.node? i).map fun n => ⟨n, t.file⟩ := by
  rw [SymbolTree.node?_eq]
  exact List.getElem?_map

@[simp] theorem value?_ofTree : (ofTree t).value? = t.get? := by
  funext i
  rw [value?, getElem?_ofTree, Option.map_map]
  rfl

@[simp] theorem parent?_ofTree : (ofTree t).parent? = t.parent? := by
  funext i
  rw [parent?, getElem?_ofTree, Option.bind_map]
  rfl

@[simp] theorem children_ofTree : (ofTree t).children = t.children := by
  funext i
  rw [children, getElem?_ofTree, Option.map_map]
  rfl

@[simp] theorem length_ofTree : (ofTree t).rows.length = t.size :=
  length_rowsOf

end OfTree

/-! ### The order of the numbers -/

/-- The ledger has the symbols of the tree, numbered as a walk from the roots meets them. -/
structure Preordered (t : SymbolTree) (l : Ledger) : Prop where
  /-- The rows are the nodes of the tree, and the file of the tree owns them. -/
  rows : l.rows = t.nodes.map fun n => ⟨n, t.file⟩
  roots : l.roots = t.roots
  /-- The walk from the roots ends, it goes one way only, it meets every number once and in order,
  and its symbols are the outline. -/
  walk : ∃ g, (∀ g', Unfolds l.children l.roots g' ↔ g' = g) ∧
    g.toList = List.range l.rows.length ∧ g.map l.value? = t.outline.map some
  /-- So does the walk from any symbol, and its symbols are the outline from there. -/
  inside : ∀ i < l.rows.length, ∃ g, (∀ g', Unfolds l.children [i] g' ↔ g' = g) ∧
    g.map l.value? = (t.outlineFrom i [i]).map some
  /-- The outline has every symbol once and in order. -/
  outline : t.outline.toList = l.rows.map (·.value)
  /-- Children and parents tell the same story. -/
  children : ∀ p c, c ∈ l.children p ↔ l.parent? c = some p
  /-- The roots are the symbols that nothing holds. -/
  tops : ∀ i, i ∈ l.roots ↔ i < l.rows.length ∧ l.parent? i = none
  /-- A parent has a smaller number than its child. -/
  parents : ∀ p c, l.parent? c = some p → p < c
  /-- The climb from a symbol ends, and it goes one way only. -/
  climb : ∀ i ids, Climbs l.parent? i ids ↔ ids = t.ancestors i

/-- **The ledger of a tree is numbered as a walk meets it.** -/
theorem preordered_ofTree (t : SymbolTree) : (ofTree t).Preordered t where
  rows := rfl
  roots := rfl
  walk := by
    have hwalk := SymbolTree.unfolds_of_sits t.forest 0 none t.forest.sits_self
    rw [children_ofTree, value?_ofTree, length_ofTree, SymbolTree.outline_eq]
    refine ⟨t.forest.numbered 0, hwalk.iff_eq, ?_, ?_⟩
    · rw [Forest.toList_numbered, List.range_eq_range']
      rfl
    · exact SymbolTree.map_get?_numbered t.forest 0 none t.forest.sits_self
  inside := by
    intro i hi
    rw [length_ofTree, SymbolTree.lt_size_iff] at hi
    obtain ⟨s, hs⟩ := hi
    obtain ⟨n, hn, -⟩ := SymbolTree.get?_eq_some_iff.1 hs
    obtain ⟨below, beside, hsits, -, -⟩ := Forest.exists_row
      (P := fun _ _ => True) (fun _ _ _ _ _ _ => trivial) (fun _ _ _ _ _ => trivial) trivial hn
    have hbelow := SymbolTree.unfolds_of_sits below (i + 1) (some i) hsits.below
    rw [← SymbolTree.children_of_sits hsits] at hbelow
    rw [children_ofTree, value?_ofTree, SymbolTree.outlineFrom_singleton hsits]
    refine ⟨_, (Unfolds.cons hbelow .nil).iff_eq, ?_⟩
    rw [Forest.map, Forest.map, SymbolTree.map_get?_numbered below (i + 1) (some i) hsits.below,
      (SymbolTree.head_of_sits hsits).1]
    rfl
  outline := by
    rw [SymbolTree.outline_eq, ← SymbolTree.symbols_eq]
    show t.nodes.map (·.value) = (t.nodes.map _).map _
    rw [List.map_map]
    rfl
  children := by
    intro p c
    rw [children_ofTree, parent?_ofTree]
    exact SymbolTree.mem_children_iff
  tops := by
    intro i
    rw [length_ofTree, parent?_ofTree]
    exact SymbolTree.mem_roots_iff
  parents := by
    intro p c
    rw [parent?_ofTree]
    exact SymbolTree.parent?_lt
  climb := by
    intro i ids
    rw [parent?_ofTree]
    constructor
    · exact SymbolTree.eq_ancestors_of_climbs
    · intro heq
      rw [heq]
      exact t.climbs_ancestors i

/-! ### Which symbols stand in which -/

/-- The symbols stand where the rules allow them. -/
structure ObeysRules (lines : List (List Char)) (l : Ledger) : Prop where
  /-- A mark of its rule stands where a symbol starts. -/
  marked : ∀ row ∈ l.rows, row.value.Marked lines
  /-- Overlays and blocks stand at file level, and nothing else does. -/
  roots : ∀ i ∈ l.roots, ∃ s, l.value? i = some s ∧ (s.kind = .entry ∨ s.kind = .name)
  /-- A symbol takes only what its rule lists. -/
  children : ∀ i s, l.value? i = some s → ∀ c ∈ l.children i, ∃ u, l.value? c = some u ∧
    u.rule ∈ s.rule.children ∧ u.kind ∈ s.rule.children.map Rule.kind
  /-- A variable has one format at most. -/
  formats : ∀ i s, l.value? i = some s → s.kind = .var → (l.children i).length ≤ 1
  /-- Nothing stands in a program, a procedure, an inclusion, an entry of a list or a format other
  than a list of values. -/
  leaves : ∀ i s, l.value? i = some s →
    (s.kind ∈ [.prog, .proc, .inclusion, .overlayRef, .codeValue] ∨
      s.kind = .editMask ∧ s.rule ≠ .codeMask) → l.children i = []

theorem obeysRules_ofTree {t : SymbolTree} {lines : List (List Char)}
    (h : t.forest.Every Symbol.Lawful []) (hmarked : ∀ s ∈ t.symbols, s.Marked lines) :
    (ofTree t).ObeysRules lines where
  marked := by
    intro row hrow
    obtain ⟨n, hn, rfl⟩ := List.mem_map.1 hrow
    exact hmarked n.value (List.mem_map.2 ⟨n, hn, rfl⟩)
  roots := by
    intro i hi
    rw [value?_ofTree]
    obtain ⟨hlt, hparent⟩ := SymbolTree.mem_roots_iff.1 hi
    obtain ⟨s, hs⟩ := SymbolTree.lt_size_iff.1 hlt
    obtain ⟨below, -, -, hlawful, -⟩ := SymbolTree.every_get? h hs
    rw [SymbolTree.outerRules_eq, hparent] at hlawful
    refine ⟨s, hs, ?_⟩
    rw [← s.kind_rule]
    simp only [SymbolTree.rulesAround, Rule.permittedIn, Rule.topLevel, List.mem_cons,
      List.not_mem_nil, or_false] at hlawful
    rcases hlawful with hr | hr
    · exact Or.inl (by rw [hr]; rfl)
    · exact Or.inr (by rw [hr]; rfl)
  children := by
    intro i s hs c hc
    rw [value?_ofTree] at hs ⊢
    rw [children_ofTree] at hc
    obtain ⟨u, hu, hmem⟩ := SymbolTree.rule_mem_children h hs hc
    refine ⟨u, hu, hmem, ?_⟩
    rw [← u.kind_rule]
    exact List.mem_map_of_mem hmem
  formats := by
    intro i s hs hkind
    rw [value?_ofTree] at hs
    obtain ⟨below, -, hchildren, -, hwidth⟩ := SymbolTree.every_get? h hs
    rw [children_ofTree, hchildren, Forest.length_rootIds]
    exact hwidth 1 (Rule.maxChildren_eq_some_iff.2 ⟨by rw [Symbol.rule, hkind], rfl⟩)
  leaves := by
    intro i s hs hkind
    rw [value?_ofTree] at hs
    rw [children_ofTree]
    refine List.eq_nil_iff_forall_not_mem.2 fun c hc => ?_
    obtain ⟨u, -, hmem⟩ := SymbolTree.rule_mem_children h hs hc
    rw [SymbolTree.children_rule_eq_nil hkind] at hmem
    cases hmem

end Ledger

/-- **When a text is read, its symbols are numbered as a walk meets them, and stand where the rules
allow.**  The loop over the lines is over after some number of rounds and no other.  The rows that
it leaves are those of the tree, all from the file.  The outline of a file, flattened, is the list
of its symbols. -/
theorem parse_preordered (file : FileId) (text : String) :
    ∃ k l, (∀ k' l', Ledger.last? file (contentLines text.toList) k' = some l' ↔
        k' = k ∧ l' = l) ∧
      l.stack = [] ∧ (∀ row ∈ l.rows, row.owner = file) ∧ l.Preordered (parse file text) ∧
      l.ObeysRules (contentLines text.toList) ∧
      ∀ {σ : Type} [Source σ] (w : Workspace σ),
        (Workspace.answer (Workspace.outline file) w).toList =
          (Workspace.answer (Workspace.tree file) w).symbols := by
  obtain ⟨k, hk⟩ := Ledger.exists_last? file text
  refine ⟨k, .ofTree (parse file text), hk, rfl, ?_, Ledger.preordered_ofTree _, ?_, ?_⟩
  · intro row hrow
    obtain ⟨n, -, rfl⟩ := List.mem_map.1 hrow
    rfl
  · refine Ledger.obeysRules_ofTree (parseChars_lawful text.toList) fun s hs => ?_
    rw [SymbolTree.symbols_eq] at hs
    exact parseChars_marked text.toList s hs
  · intro σ _ w
    show (Workspace.answer (Workspace.tree file) w).outline.toList = _
    rw [SymbolTree.outline_eq, SymbolTree.symbols_eq]

end OverlayIndex
