/-
The cache seen through its look-ups.

Everything the workspace knows of its cache is which tree is kept for a file and which stamp
the file has.  Here is what each operation does to the two.
-/
import OverlayIndex.Workspace.TreeCache

namespace OverlayIndex

namespace TreeCache

@[simp] theorem get?_empty (f : FileId) : empty.get? f = none := rfl

/-- The trees of other files are not touched by leaving out the tree of one. -/
theorem find?_filter_file {f g : FileId} (trees : List SymbolTree) :
    (trees.filter fun t => decide (t.file ≠ g)).find? (fun t => decide (t.file = f)) =
      if f = g then none else trees.find? fun t => decide (t.file = f) := by
  rw [List.find?_filter]
  by_cases hfg : f = g
  · subst hfg
    rw [if_pos rfl, List.find?_eq_none]
    intro t _
    simp
  · rw [if_neg hfg]
    congr 1
    funext t
    by_cases ht : t.file = f
    · simp [ht, hfg]
    · simp [ht]

theorem get?_insert (c : TreeCache) (t : SymbolTree) (f : FileId) :
    (c.insert t).get? f = if f = t.file then some t else c.get? f := by
  rw [get?, insert, List.find?_cons]
  by_cases hf : f = t.file
  · subst hf
    simp
  · rw [if_neg hf, decide_eq_false (fun h => hf h.symm), find?_filter_file, if_neg hf]
    rfl

@[simp] theorem get?_invalidate (c : TreeCache) (g f : FileId) :
    (c.invalidate g).get? f = if f = g then none else c.get? f :=
  find?_filter_file c.trees

@[simp] theorem get?_invalidateAll (c : TreeCache) (f : FileId) :
    c.invalidateAll.get? f = none := rfl

@[simp] theorem stamp_store (c : TreeCache) (s : Stamp) (t : SymbolTree) (f : FileId) :
    (c.store s t).stamp f = c.stamp f := by
  rw [store]
  split <;> rfl

/-- A tree that is kept after storing was kept before, or is the one stored, and then nothing was
announced about its file since the stamp was taken. -/
theorem get?_store {c : TreeCache} {s : Stamp} {t u : SymbolTree} {f : FileId}
    (h : (c.store s t).get? f = some u) :
    c.get? f = some u ∨ (u = t ∧ f = t.file ∧ c.stamp f = s) := by
  rw [store] at h
  split at h
  · rename_i hs
    rw [get?_insert] at h
    split at h
    · rename_i hf
      cases h
      exact Or.inr ⟨rfl, hf, hf ▸ hs⟩
    · exact Or.inl h
  · exact Or.inl h

/-- A tree that is kept stays, unless one of the same file takes its place. -/
theorem get?_store_of_kept {c : TreeCache} {t u : SymbolTree} {f : FileId}
    (h : c.get? f = some u) (s : Stamp) :
    (c.store s t).get? f = some u ∨ (f = t.file ∧ (c.store s t).get? f = some t) := by
  rw [store]
  by_cases hs : c.stamp t.file = s
  · rw [if_pos hs, get?_insert]
    by_cases hf : f = t.file
    · rw [if_pos hf]
      exact Or.inr ⟨hf, rfl⟩
    · rw [if_neg hf]
      exact Or.inl h
  · rw [if_neg hs]
    exact Or.inl h

theorem stamp_invalidate (c : TreeCache) (g f : FileId) :
    (c.invalidate g).stamp f =
      ⟨c.epoch, c.announced.count f + if g = f then 1 else 0⟩ := by
  simp [stamp, invalidate, List.count_cons]

theorem stamp_invalidateAll (c : TreeCache) (f : FileId) :
    c.invalidateAll.stamp f = ⟨c.epoch + 1, c.announced.count f⟩ := rfl

end TreeCache

end OverlayIndex
