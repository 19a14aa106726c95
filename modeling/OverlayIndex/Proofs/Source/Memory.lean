/-
Texts in memory, looked up by path.

The buffers are found by comparing paths in two ways: a buffer is put in its place by the order
of paths and looked up by their being the same.  The two agree, since the order calls two paths
equal exactly when their components are.
-/
import OverlayIndex.Proofs.Workspace.FileSet
import OverlayIndex.Source.Memory

namespace OverlayIndex

theorem compareLists_eq_iff {α : Type} {cmp : α → α → Ordering}
    (h : ∀ a b, cmp a b = .eq ↔ a = b) :
    ∀ as bs : List α, compareLists cmp as bs = .eq ↔ as = bs := by
  intro as
  induction as with
  | nil => intro bs; cases bs <;> simp [compareLists]
  | cons a as ih =>
      intro bs
      cases bs with
      | nil => simp [compareLists]
      | cons b bs => rw [compareLists, Ordering.then_eq_eq, h, ih, List.cons.injEq]

theorem Component.compare_eq_iff (a b : Component) : a.compare b = .eq ↔ a = b := by
  cases a <;> cases b <;> simp [compare, rank]

namespace Path

theorem compare_eq_iff {p q : Path} : p.compare q = .eq ↔ p.same q = true := by
  rw [compare, compareLists_eq_iff Component.compare_eq_iff, same_iff]

theorem same_congr {p q r : Path} (h : p.same q = true) : r.same p = r.same q := by
  rw [Bool.eq_iff_iff, same_iff, same_iff, same_iff.1 h]

end Path

namespace MemorySource

/-- Every spelling of a path has the same text. -/
theorem get?_congr (m : MemorySource) {p q : Path} (h : p.same q = true) : m.get? p = m.get? q := by
  rw [get?, get?]
  congr 2
  funext b
  exact Path.same_congr h

theorem find?_insertBuffer (p q : Path) (text : String) (buffers : List Buffer) :
    ((insertBuffer p text buffers).find? (·.path.same q)).map (·.text) =
      if p.same q then some text else (buffers.find? (·.path.same q)).map (·.text) := by
  induction buffers with
  | nil => by_cases h : p.same q = true <;> simp [insertBuffer, h]
  | cons b rest ih =>
      rw [insertBuffer]
      cases hcmp : p.compare b.path with
      | lt => by_cases h : p.same q = true <;> simp [h]
      | eq =>
          have hb : b.path.same q = p.same q := by
            have hsame := Path.same_iff.1 (Path.compare_eq_iff.1 hcmp)
            rw [Bool.eq_iff_iff, Path.same_iff, Path.same_iff, hsame]
          by_cases h : p.same q = true <;> simp [hb, h]
      | gt =>
          have hne : ¬ (p.same q = true ∧ b.path.same q = true) := by
            rintro ⟨hp, hb⟩
            have hsame : p.same b.path = true :=
              Path.same_iff.2 ((Path.same_iff.1 hp).trans (Path.same_iff.1 hb).symm)
            rw [Path.compare_eq_iff.2 hsame] at hcmp
            cases hcmp
          by_cases h : b.path.same q = true
          · have hp : ¬ p.same q = true := fun hp => hne ⟨hp, h⟩
            simp [h, hp]
          · simpa [h] using ih

/-- After a text is set, every spelling of its path has it, and the other paths have what they
had. -/
theorem get?_insert (m : MemorySource) (p q : Path) (text : String) :
    (m.insert p text).get? q = if p.same q then some text else m.get? q :=
  find?_insertBuffer p q text m.buffers

theorem get?_erase (m : MemorySource) (p q : Path) :
    (m.erase p).get? q = if p.same q then none else m.get? q := by
  rw [get?, get?, erase, List.find?_filter]
  by_cases h : p.same q = true
  · rw [if_pos h, Option.map_eq_none_iff, List.find?_eq_none]
    intro b _
    simp [Path.same_congr h]
  · rw [if_neg h]
    congr 2
    funext b
    by_cases hb : b.path.same q = true
    · have hp : ¬ b.path.same p = true := by
        intro hp
        exact h (Path.same_iff.2 ((Path.same_iff.1 hp).symm.trans (Path.same_iff.1 hb)))
      simp [hb, hp]
    · simp [hb]

end MemorySource

end OverlayIndex
