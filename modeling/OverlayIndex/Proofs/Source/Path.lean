/-
Paths seen from a directory.

The components of a joined path are those of the directory and then those of the other path,
except that a point at the front of the latter is none of its own there.  So joining the same
directory a second time changes the path, unless the directory is absolute or nothing but a
point.
-/
import OverlayIndex.Proofs.Workspace.FileSet

namespace OverlayIndex

/-- Nothing stands before the first separator of a text that does not begin with one only if the
text is empty. -/
theorem eq_nil_of_splitOn {sep : Char} {cs : List Char} {rest : List (List Char)}
    (h : splitOn sep cs = [] :: rest) (hhead : cs.head? ≠ some sep) : cs = [] := by
  cases cs with
  | nil => rfl
  | cons c cs =>
      have hc : c ≠ sep := fun heq => hhead (by rw [heq, List.head?_cons])
      unfold splitOn at h
      rw [if_neg hc] at h
      split at h
      · cases h
      · cases h

namespace Component

/-- The step that the stretch before the first slash stands for. -/
def ofFirst (s : List Char) : List Component :=
  if s = [] then [.root] else if s = ['.'] then [.here] else (ofSegment? s).toList

theorem ofSegment?_eq_none_iff {s : List Char} : ofSegment? s = none ↔ s = [] ∨ s = ['.'] := by
  unfold ofSegment?
  split
  · simp [*]
  · split <;> simp [*]

theorem ofSegment?_ne_here (s : List Char) : ofSegment? s ≠ some .here := by
  unfold ofSegment?
  split
  · simp
  · split <;> simp

end Component

namespace Path

variable {p q dir r : Path}

/-- The steps of a path from a directory.  A point at its front is none. -/
def inner (p : Path) : List Component :=
  (splitOn '/' p.text.toList).filterMap Component.ofSegment?

theorem isAbsolute_eq_false_iff : p.isAbsolute = false ↔ p.text.toList.head? ≠ some '/' := by
  simp [isAbsolute]

theorem components_eq (h : p.text ≠ "") {first : List Char} {rest : List (List Char)}
    (hsplit : splitOn '/' p.text.toList = first :: rest) :
    p.components = Component.ofFirst first ++ rest.filterMap Component.ofSegment? := by
  unfold components
  rw [hsplit]
  cases rest with
  | cons _ _ => rfl
  | nil =>
      have hfirst : first ≠ [] := by
        intro hnil
        subst hnil
        have hhead : p.text.toList.head? ≠ some '/' := by
          intro hhead
          obtain ⟨cs, hcs⟩ := List.head?_eq_some_iff.1 hhead
          rw [hcs, splitOn, if_pos rfl] at hsplit
          exact splitOn_ne_nil _ _ (List.cons.inj hsplit).2
        exact h (String.toList_eq_nil_iff.1 (eq_nil_of_splitOn hsplit hhead))
      simp [Component.ofFirst, hfirst]

/-! ### Joining -/

/-- A joined path is the directory, with or without a slash at its end, and a slash and the path. -/
theorem exists_stem (hdir : dir.text ≠ "") (hr : r.isAbsolute = false) :
    ∃ stem, (dir.join r).text.toList = stem ++ '/' :: r.text.toList ∧
      (dir.text.toList = stem ∧ stem ≠ [] ∨ dir.text.toList = stem ++ ['/']) := by
  have hne : dir.text.toList ≠ [] := fun hnil => hdir (String.toList_eq_nil_iff.1 hnil)
  have hlast := List.getLast?_eq_some_getLast hne
  have hsplit := List.dropLast_concat_getLast hne
  unfold join
  rw [if_neg (by simp [hr]), hlast, Option.any_some]
  by_cases hslash : dir.text.toList.getLast hne = '/'
  · refine ⟨dir.text.toList.dropLast, ?_, Or.inr ?_⟩
    · rw [if_neg (by simp [hslash]), String.toList_append, ← hsplit, hslash]
      simp
    · rw [← hslash, hsplit]
  · refine ⟨dir.text.toList, ?_, Or.inl ⟨rfl, hne⟩⟩
    rw [if_pos (by simpa using hslash)]
    simp

theorem text_join_ne_empty (hdir : dir.text ≠ "") (hr : r.isAbsolute = false) :
    (dir.join r).text ≠ "" := by
  obtain ⟨stem, hjoin, -⟩ := exists_stem hdir hr
  intro hempty
  rw [hempty] at hjoin
  simp at hjoin

theorem join_of_isAbsolute (h : p.isAbsolute = true) (dir : Path) : dir.join p = p := by
  rw [join, if_pos h]

theorem isAbsolute_join (hdir : dir.text ≠ "") (hr : r.isAbsolute = false) :
    (dir.join r).isAbsolute = dir.isAbsolute := by
  obtain ⟨stem, hjoin, hstem⟩ := exists_stem hdir hr
  have hhead : (dir.join r).text.toList.head? = dir.text.toList.head? := by
    rw [hjoin]
    rcases hstem with ⟨hstem, hne⟩ | hstem
    · obtain ⟨c, cs, rfl⟩ := List.exists_cons_of_ne_nil hne
      rw [hstem]
      rfl
    · rw [hstem, List.head?_append, List.head?_append]
      rfl
  unfold isAbsolute
  rw [hhead]

theorem inner_join (hdir : dir.text ≠ "") (hr : r.isAbsolute = false) :
    (dir.join r).inner = dir.inner ++ r.inner := by
  obtain ⟨stem, hjoin, hstem⟩ := exists_stem hdir hr
  unfold inner
  rw [hjoin, splitOn_append, List.filterMap_append]
  rcases hstem with ⟨hstem, -⟩ | hstem
  · rw [hstem]
  · rw [hstem, splitOn_append, List.filterMap_append]
    simp [splitOn, Component.ofSegment?]

theorem components_join (hdir : dir.text ≠ "") (hr : r.isAbsolute = false) :
    (dir.join r).components = dir.components ++ r.inner := by
  obtain ⟨stem, hjoin, hstem⟩ := exists_stem hdir hr
  obtain ⟨first, rest, hsplit⟩ := List.exists_cons_of_ne_nil (splitOn_ne_nil '/' stem)
  have hwhole : splitOn '/' (dir.join r).text.toList =
      first :: (rest ++ splitOn '/' r.text.toList) := by
    rw [hjoin, splitOn_append, hsplit, List.cons_append]
  have hcomponents : dir.components =
      Component.ofFirst first ++ rest.filterMap Component.ofSegment? := by
    rcases hstem with ⟨hstem, -⟩ | hstem
    · exact components_eq hdir (by rw [hstem, hsplit])
    · -- The slash at the end adds an empty stretch, which is no step.
      have hslash : splitOn '/' dir.text.toList = first :: (rest ++ [[]]) := by
        rw [hstem, splitOn_append, hsplit]
        rfl
      rw [components_eq hdir hslash, List.filterMap_append]
      simp [Component.ofSegment?]
  rw [components_eq (text_join_ne_empty hdir hr) hwhole, List.filterMap_append, hcomponents,
    List.append_assoc]
  rfl

/-! ### Directories that paths can be joined to twice -/

/-- The path is absolute, or it is a point, in whatever spelling. -/
def Settled (p : Path) : Prop :=
  p.isAbsolute = true ∨ p.components = [.here]

theorem inner_eq_nil_iff (hp : p.text ≠ "") (hrelative : p.isAbsolute = false) :
    p.inner = [] ↔ p.components = [.here] := by
  obtain ⟨first, rest, hsplit⟩ := List.exists_cons_of_ne_nil (splitOn_ne_nil '/' p.text.toList)
  have hfirst : first ≠ [] := by
    intro hnil
    rw [hnil] at hsplit
    have hempty := eq_nil_of_splitOn hsplit (isAbsolute_eq_false_iff.1 hrelative)
    exact hp (String.toList_eq_nil_iff.1 hempty)
  rw [components_eq hp hsplit]
  unfold inner Component.ofFirst
  rw [hsplit, List.filterMap_cons, if_neg hfirst]
  by_cases hpoint : first = ['.']
  · rw [if_pos hpoint, Component.ofSegment?_eq_none_iff.2 (Or.inr hpoint)]
    simp
  · rw [if_neg hpoint]
    cases hc : Component.ofSegment? first with
    | none => exact absurd (Component.ofSegment?_eq_none_iff.1 hc) (not_or.2 ⟨hfirst, hpoint⟩)
    | some c =>
        have hhere : c ≠ .here := fun heq => Component.ofSegment?_ne_here first (heq ▸ hc)
        simp [hhere]

/-- **Joining a directory twice is joining it once exactly if it is settled.** -/
theorem same_join_join_iff (hdir : dir.text ≠ "") (hr : r.isAbsolute = false) :
    (dir.join (dir.join r)).same (dir.join r) = true ↔ dir.Settled := by
  cases habsolute : dir.isAbsolute with
  | true =>
      have hjoined := (isAbsolute_join hdir hr).trans habsolute
      rw [join_of_isAbsolute hjoined]
      exact iff_of_true (same_iff.2 rfl) (Or.inl habsolute)
  | false =>
      have hjoined := (isAbsolute_join hdir hr).trans habsolute
      rw [same_iff, components_join hdir hjoined, inner_join hdir hr, components_join hdir hr]
      unfold Settled
      rw [habsolute, ← inner_eq_nil_iff hdir habsolute]
      simp

end Path

end OverlayIndex
