/-
The numbers of paths.

A number keeps its path for good, and as long as no path has two numbers, interning a path
finds the number of any of its spellings.  The spelling that is kept of a path is the first one.
-/
import OverlayIndex.Workspace.FileSet

namespace OverlayIndex

namespace Path

theorem same_iff {p q : Path} : p.same q = true ↔ p.components = q.components := by
  simp [same]

end Path

namespace FileSet

/-- Every number of the first set has the same path in the second. -/
def Extends (s s' : FileSet) : Prop :=
  ∀ f p, s.path? f = some p → s'.path? f = some p

theorem Extends.refl (s : FileSet) : s.Extends s :=
  fun _ _ h => h

theorem Extends.trans {s s' s'' : FileSet} (h : s.Extends s') (h' : s'.Extends s'') :
    s.Extends s'' :=
  fun f p hp => h' f p (h f p hp)

theorem extends_intern (s : FileSet) (p : Path) : s.Extends (s.intern p).2 := by
  intro f q hq
  rw [intern]
  split
  · exact hq
  · rw [path?] at hq ⊢
    rw [List.getElem?_append_left (List.getElem?_eq_some_iff.1 hq).1]
    exact hq

theorem path?_of_lookup? {s : FileSet} {p : Path} {f : FileId} (h : s.lookup? p = some f) :
    ∃ q, s.path? f = some q ∧ q.same p = true := by
  rw [lookup?, Option.map_eq_some_iff] at h
  obtain ⟨i, hi, rfl⟩ := h
  obtain ⟨hlt, hsame, -⟩ := List.findIdx?_eq_some_iff_getElem.1 hi
  exact ⟨s.paths[i], List.getElem?_eq_getElem hlt, hsame⟩

/-- A path that is interned has its number from then on. -/
theorem path?_intern (s : FileSet) (p : Path) :
    ∃ q, (s.intern p).2.path? (s.intern p).1 = some q ∧ q.same p = true := by
  rw [intern]
  split
  · rename_i f hf
    exact path?_of_lookup? hf
  · refine ⟨p, ?_, Path.same_iff.2 rfl⟩
    simp [path?, size]

/-- What has a number after a path was interned had it before, or is that path. -/
theorem path?_intern_cases {s : FileSet} {p q : Path} {f : FileId}
    (h : (s.intern p).2.path? f = some q) : s.path? f = some q ∨ q = p := by
  rw [intern] at h
  cases hl : s.lookup? p with
  | some g =>
      rw [hl] at h
      exact Or.inl h
  | none =>
      rw [hl, path?] at h
      by_cases hlt : f.slot < s.paths.length
      · rw [List.getElem?_append_left hlt] at h
        exact Or.inl h
      · rw [List.getElem?_append_right (Nat.le_of_not_lt hlt)] at h
        exact Or.inr (List.mem_singleton.1 (List.mem_of_getElem? h))

/-- No path has two numbers. -/
def Distinct (s : FileSet) : Prop :=
  s.paths.Pairwise fun p q => p.same q = false

theorem distinct_empty : empty.Distinct :=
  List.Pairwise.nil

theorem Distinct.intern {s : FileSet} (h : s.Distinct) (p : Path) : (s.intern p).2.Distinct := by
  rw [FileSet.intern]
  cases hl : s.lookup? p with
  | some f => exact h
  | none =>
      rw [lookup?, Option.map_eq_none_iff, List.findIdx?_eq_none_iff] at hl
      refine List.pairwise_append.2 ⟨h, List.pairwise_singleton _ _, ?_⟩
      intro q hq r hr
      rw [List.mem_singleton.1 hr]
      exact hl q hq

/-- Where no path has two numbers, the number of a path is found by any of its spellings. -/
theorem Distinct.lookup?_eq_some {s : FileSet} (h : s.Distinct) {f : FileId} {p q : Path}
    (hq : s.path? f = some q) (hsame : q.same p = true) : s.lookup? p = some f := by
  have hlt : f.slot < s.paths.length := (List.getElem?_eq_some_iff.1 hq).1
  have hget : s.paths[f.slot] = q := (List.getElem?_eq_some_iff.1 hq).2
  rw [lookup?, Option.map_eq_some_iff]
  refine ⟨f.slot, List.findIdx?_eq_some_iff_getElem.2 ⟨hlt, hget ▸ hsame, ?_⟩, rfl⟩
  intro j hj hp
  have hne := List.pairwise_iff_getElem.1 h j f.slot (Nat.lt_trans hj hlt) hlt hj
  rw [hget, ← Bool.not_eq_true, Path.same_iff] at hne
  exact hne ((Path.same_iff.1 hp).trans (Path.same_iff.1 hsame).symm)

/-! ### Spellings -/

variable {s : FileSet} {p q r : Path} {f : FileId}

/-- The spelling of a path that is kept or, if the path is new, would be. -/
def spelling (s : FileSet) (p : Path) : Path :=
  ((s.lookup? p).bind s.path?).getD p

theorem same_spelling (s : FileSet) (p : Path) : (s.spelling p).same p = true := by
  rw [spelling]
  cases h : s.lookup? p with
  | none => exact Path.same_iff.2 rfl
  | some f =>
      obtain ⟨q, hq, hsame⟩ := path?_of_lookup? h
      rw [Option.bind_some, hq, Option.getD_some]
      exact hsame

theorem path?_intern_spelling (s : FileSet) (p : Path) :
    (s.intern p).2.path? (s.intern p).1 = some (s.spelling p) := by
  rw [intern, spelling]
  cases h : s.lookup? p with
  | none => simp [path?, size]
  | some f =>
      obtain ⟨q, hq, -⟩ := path?_of_lookup? h
      simp [hq]

theorem Distinct.spelling_eq (h : s.Distinct) (hq : s.path? f = some q) (hsame : q.same p = true) :
    s.spelling p = q := by
  rw [spelling, h.lookup?_eq_some hq hsame, Option.bind_some, hq, Option.getD_some]

theorem lookup?_intern_of_other (s : FileSet) (h : p.same r ≠ true) :
    (s.intern p).2.lookup? r = s.lookup? r := by
  rw [intern]
  cases s.lookup? p with
  | some f => rfl
  | none => simp [lookup?, List.findIdx?_append, List.findIdx?_cons, h]

/-- Interning a path settles its spelling and no other. -/
theorem Distinct.spelling_intern (h : s.Distinct) (p r : Path) :
    (s.intern p).2.spelling r = if p.same r = true then s.spelling p else s.spelling r := by
  by_cases hsame : p.same r = true
  · rw [if_pos hsame]
    refine (h.intern p).spelling_eq (s.path?_intern_spelling p) (Path.same_iff.2 ?_)
    exact (Path.same_iff.1 (s.same_spelling p)).trans (Path.same_iff.1 hsame)
  · rw [if_neg hsame, spelling, spelling, lookup?_intern_of_other s hsame]
    cases hr : s.lookup? r with
    | none => rfl
    | some g =>
        obtain ⟨q, hq, -⟩ := path?_of_lookup? hr
        rw [Option.bind_some, Option.bind_some, hq, extends_intern s p g q hq]

end FileSet

end OverlayIndex
