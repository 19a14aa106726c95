/-
Selections that grow.

The last symbol in the order of numbers whose extent holds the position is looked for, and from it
the way leads up through its ancestors, whose extents nobody looks at again.  That is enough, since
the symbols that hold a position are one symbol and its ancestors.  So the extents on the way up are
those of all symbols that hold the position, and each lies in the next and is smaller, because a
symbol starts after the one that it stands in.
-/
import OverlayIndex.Editor.Ranges
import OverlayIndex.Proofs.Resolve.Chain
import OverlayIndex.Proofs.Resolve.Uses

namespace OverlayIndex

/-- The extent lies in the other one, which reaches further. -/
def Extent.Inside (inner outer : Extent) : Prop :=
  outer.encloses inner = true ∧ inner ≠ outer

/-- Where no two neighbours are the same, nothing is left out. -/
theorem eraseRepsBy_loop_eq {α : Type} (r : α → α → Bool) :
    ∀ (as : List α) (a : α) (before : List α), (a :: as).Pairwise (fun x y => r x y = false) →
      List.eraseRepsBy.loop r a as before = before.reverse ++ a :: as := by
  intro as
  induction as with
  | nil =>
      intro a before _
      exact List.reverse_cons
  | cons b as ih =>
      intro a before h
      have hab : r a b = false := (List.pairwise_cons.1 h).1 b (by simp)
      simp only [List.eraseRepsBy.loop, hab]
      rw [ih b (a :: before) (List.pairwise_cons.1 h).2, List.reverse_cons, List.append_assoc]
      rfl

theorem eraseReps_eq_self {α : Type} [BEq α] [LawfulBEq α] {as : List α}
    (h : as.Pairwise fun x y => x ≠ y) : as.eraseReps = as := by
  cases as with
  | nil => rfl
  | cons a as =>
      exact eraseRepsBy_loop_eq _ as a [] (h.imp fun hne => beq_eq_false_iff_ne.2 hne)

namespace SymbolTree

variable {t : SymbolTree} {real : Position → Prop} {p : Position} {i q : SymbolId} {s u : Symbol}

theorem innermost?_eq (t : SymbolTree) (p : Position) : t.innermost? p = (t.holders p).getLast? := by
  rw [innermost?, holders, List.getLast?_map]

/-- The extents of the symbols that hold the position, in the order of their numbers. -/
theorem filterMap_holders (t : SymbolTree) (p : Position) :
    (t.holders p).filterMap (fun i => (t.get? i).map (·.extent)) =
      (t.symbols.filter (·.extent.contains p)).map (·.extent) := by
  have hget : ∀ x ∈ t.symbols.zipIdx.filter (fun x => x.1.extent.contains p),
      (t.get? x.2).map (·.extent) = some x.1.extent := by
    intro x hx
    rw [get?_eq, List.mem_zipIdx_iff_getElem?.1 (List.mem_filter.1 hx).1]
    rfl
  have hfirst : t.symbols.filter (·.extent.contains p) =
      (t.symbols.zipIdx.filter fun x => x.1.extent.contains p).map Prod.fst := by
    conv_lhs => rw [← List.zipIdx_map_fst 0 t.symbols, List.filter_map]
    rfl
  rw [holders, List.filterMap_map, hfirst, List.map_map, ← List.filterMap_eq_map]
  exact List.filterMap_congr hget

/-! ### The way up -/

/-- The climb from a symbol meets its ancestors only, each with a smaller number than all before. -/
theorem pairwise_of_climbs {ids : List SymbolId} (h : Climbs t.parent? i ids) :
    (i :: ids).Pairwise fun a b => b ∈ t.ancestors a ∧ b < a := by
  induction h with
  | root _ => exact List.pairwise_singleton _ _
  | @step i q ids hparent hclimb ih =>
      have hlt : q < i := parent?_lt hparent
      refine List.pairwise_cons.2 ⟨fun b hb => ⟨?_, ?_⟩, ih⟩
      · rw [← eq_ancestors_of_climbs (.step hparent hclimb)]
        exact hb
      · rcases List.mem_cons.1 hb with rfl | hb
        · exact hlt
        · exact Nat.lt_trans ((List.pairwise_cons.1 ih).1 b hb).2 hlt

/-- A symbol lies in its ancestors, which start earlier. -/
theorem Nested.inside_of_mem_ancestors (h : t.Nested real) (hq : q ∈ t.ancestors i) (hlt : q < i)
    (hs : t.get? i = some s) (hu : t.get? q = some u) : s.extent.Inside u.extent := by
  obtain ⟨u', hu', hencloses⟩ := h.encloses_of_mem_ancestors i s hs q hq
  rw [hu] at hu'
  cases hu'
  refine ⟨hencloses, fun heq => ?_⟩
  rw [get?_eq] at hs hu
  obtain ⟨hi, rfl⟩ := List.getElem?_eq_some_iff.1 hs
  obtain ⟨hq, rfl⟩ := List.getElem?_eq_some_iff.1 hu
  have hstart := List.pairwise_iff_getElem.1 h.ordered q i hq hi hlt
  rw [heq] at hstart
  exact lt_irrefl _ hstart

/-- **The extents around a position are those of all symbols that hold it**, the last one first, and
each lies in all that follow it. -/
theorem IsParsed.selections_eq (h : t.IsParsed) (p : Position) :
    t.selections p = ((t.symbols.filter (·.extent.contains p)).map (·.extent)).reverse ∧
      (t.selections p).Pairwise Extent.Inside := by
  obtain ⟨real, hn⟩ := h.nested
  rw [selections, innermost?_eq, ← filterMap_holders]
  rcases hn.chain p with hnil | ⟨i, hi⟩
  · rw [hnil]
    exact ⟨rfl, List.Pairwise.nil⟩
  · rw [hi, List.getLast?_reverse, List.head?_cons, ← List.filterMap_reverse, List.reverse_reverse]
    have hinside : ((i :: t.ancestors i).filterMap fun i => (t.get? i).map (·.extent)).Pairwise
        Extent.Inside := by
      refine List.pairwise_filterMap.2 ((pairwise_of_climbs (t.climbs_ancestors i)).imp ?_)
      intro a b hab x hx y hy
      obtain ⟨s, hs, rfl⟩ := Option.map_eq_some_iff.1 hx
      obtain ⟨u, hu, rfl⟩ := Option.map_eq_some_iff.1 hy
      exact hn.inside_of_mem_ancestors hab.1 hab.2 hs hu
    have hkept := eraseReps_eq_self (hinside.imp fun hab => hab.2)
    show List.eraseReps _ = _ ∧ (List.eraseReps _).Pairwise _
    rw [hkept]
    exact ⟨rfl, hinside⟩

end SymbolTree

namespace Workspace

variable {σ : Type} [Source σ] {w : Workspace σ} {f : FileId}

/-- If the tree that is kept of a file, if there is one, was read from a text, then the tree that the
file has was. -/
theorem isParsed_tree (hkept : ∀ t, w.cache.get? f = some t → t.IsParsed) :
    (answer (tree f) w).IsParsed := by
  cases hget : w.cache.get? f with
  | some t =>
      rw [(tree_of_hit hget).1]
      exact hkept t hget
  | none =>
      cases hread : answer (text f) w with
      | error err =>
          rw [(tree_of_error hget hread).1]
          exact ⟨[], parseChars_nil.symm⟩
      | ok x =>
          rw [(tree_of_ok hget hread).1]
          exact ⟨x.toList, rfl⟩

end Workspace

open Workspace

/-- **Selecting more and more goes through the extents of exactly the symbols that hold the
position**, innermost first, each once and each strictly inside the next.  That holds of any tree
that was read from a text, so it does not matter whether the text has changed since. -/
theorem selections_are_holding_extents {σ : Type} [Source σ] {w : Workspace σ} {f : FileId}
    (hkept : ∀ t, w.cache.get? f = some t → t.IsParsed) (p : Position) :
    answer (selections f p) w =
        (((answer (tree f) w).symbols.filter (·.extent.contains p)).map (·.extent)).reverse ∧
      (answer (selections f p) w).Pairwise Extent.Inside ∧
      (answer (selections f p) w = [] ↔
        ∀ s ∈ (answer (tree f) w).symbols, s.extent.contains p = false) := by
  obtain ⟨heq, hinside⟩ := (isParsed_tree hkept).selections_eq p
  have hanswer : answer (selections f p) w = (answer (tree f) w).selections p := rfl
  rw [hanswer]
  refine ⟨heq, hinside, ?_⟩
  rw [heq, List.reverse_eq_nil_iff, List.map_eq_nil_iff, List.filter_eq_nil_iff]
  simp only [Bool.not_eq_true]

/-- An overlay with a mask in a variable in a data area. -/
def maskedOverlay : String :=
  "$ENTRY ORD\n$DATA\nAMT N9.2\n$PROG\nRETURN\n"

/-- The workspace that keeps the tree of this overlay, while the file holds another text by now, of
which nobody has told. -/
def staleWorkspace : Workspace MemorySource :=
  { after (treeOfPath ⟨"ORD.rtm"⟩)
      (Workspace.ofSource (MemorySource.empty.insert ⟨"ORD.rtm"⟩ maskedOverlay) .standard) with
    source := MemorySource.empty.insert ⟨"ORD.rtm"⟩ "$NAME N" }

/-- Four extents around the mask in the tree that is kept. -/
theorem selections_around_mask :
    staleWorkspace.textOf ⟨0⟩ = some "$NAME N" ∧
      answer (selections ⟨0⟩ ⟨2, 5⟩) staleWorkspace =
        [.onLine 2 4 8, .onLine 2 0 8, ⟨⟨1, 0⟩, ⟨2, 8⟩⟩, ⟨⟨0, 0⟩, ⟨5, 0⟩⟩] ∧
      (answer (selections ⟨0⟩ ⟨2, 5⟩) staleWorkspace).Pairwise Extent.Inside := by
  have hcurrent := Current.after_tree
    ((Current.ofSource (MemorySource.calm (MemorySource.empty.insert ⟨"ORD.rtm"⟩ maskedOverlay))
      .standard).after_fileId ⟨"ORD.rtm"⟩).1 ⟨0⟩
  have hkept : ∀ t, staleWorkspace.cache.get? ⟨0⟩ = some t → t.IsParsed := by
    intro t ht
    obtain ⟨x, -, rfl⟩ := hcurrent.1.fresh ⟨0⟩ t ht
    exact ⟨x.toList, rfl⟩
  exact ⟨rfl, by decide +kernel, (selections_are_holding_extents hkept ⟨2, 5⟩).2.1⟩

end OverlayIndex
