/-
Texts in memory after any changes.

The texts are a map whose keys are the components of paths.  Which text a path has after some
changes is read off the changes alone: it is the text of the last change to a path with the same
components, if that change set one.  The spelling of a key is read off them too: it is that of the
change that brought the key in, and setting the key again does not change it.  Both are said for
one more change at a time, and the buffers, which stand in the order of their keys, follow.
-/
import OverlayIndex.Proofs.Glob.Matching
import OverlayIndex.Proofs.Source.Listing
import Mathlib.Data.List.Induction
import Mathlib.Data.List.Nodup

namespace OverlayIndex

/-- A change of the texts in memory. -/
inductive Edit where
  | set (path : Path) (text : String)
  | remove (path : Path)
  deriving DecidableEq, Repr

/-- The path that is changed. -/
def Edit.path : Edit → Path
  | set p _ => p
  | remove p => p

/-! ### What changes say -/

/-- The last change to the components of the path set this text. -/
def LastSet (edits : List Edit) (p : Path) (text : String) : Prop :=
  ∃ before q after, edits = before ++ .set q text :: after ∧ q.components = p.components ∧
    ∀ e ∈ after, e.path.components ≠ p.components

/-- The path brought its components in: they had no text before it was set, and they have not been
removed since. -/
def BroughtIn (edits : List Edit) (p : Path) : Prop :=
  ∃ before text after, edits = before ++ .set p text :: after ∧
    (∀ old, ¬ LastSet before p old) ∧ ∀ q, .remove q ∈ after → q.components ≠ p.components

/-- A list that ends in one more element is cut at that element or before it. -/
theorem cut_of_concat {α : Type} {as before after : List α} {a b : α}
    (h : as ++ [a] = before ++ b :: after) :
    after = [] ∧ as = before ∧ a = b ∨ ∃ init, after = init ++ [a] ∧ as = before ++ b :: init := by
  rcases List.eq_nil_or_concat after with rfl | ⟨init, last, rfl⟩
  · obtain ⟨hbefore, hlast⟩ := List.append_inj' h rfl
    exact Or.inl ⟨rfl, hbefore, List.singleton_inj.1 hlast⟩
  · rw [List.concat_eq_append, ← List.cons_append, ← List.append_assoc] at h
    obtain ⟨hinit, hlast⟩ := List.append_inj' h rfl
    exact Or.inr ⟨init, by rw [List.singleton_inj.1 hlast, List.concat_eq_append], hinit⟩

theorem not_lastSet_nil (p : Path) (text : String) : ¬ LastSet [] p text := by
  rintro ⟨before, q, after, h, -⟩
  simp at h

theorem not_broughtIn_nil (p : Path) : ¬ BroughtIn [] p := by
  rintro ⟨before, text, after, h, -⟩
  simp at h

/-- A change decides what is last for its own components and for no others. -/
theorem lastSet_concat_iff {edits : List Edit} {e : Edit} {p : Path} {text : String} :
    LastSet (edits ++ [e]) p text ↔
      if e.path.components = p.components then e = .set e.path text else LastSet edits p text := by
  constructor
  · rintro ⟨before, q, after, hcut, hq, hafter⟩
    rcases cut_of_concat hcut with ⟨-, -, rfl⟩ | ⟨init, rfl, rfl⟩
    · rw [if_pos (by exact hq)]
      rfl
    · rw [if_neg (hafter e (by simp))]
      exact ⟨before, q, init, rfl, hq, fun x hx => hafter x (by simp [hx])⟩
  · intro h
    by_cases he : e.path.components = p.components
    · rw [if_pos he] at h
      exact ⟨edits, e.path, [], by rw [← h], he, by simp⟩
    · rw [if_neg he] at h
      obtain ⟨before, q, after, rfl, hq, hafter⟩ := h
      refine ⟨before, q, after ++ [e], by simp, hq, fun x hx => ?_⟩
      rcases List.mem_append.1 hx with hx | hx
      · exact hafter x hx
      · rwa [List.mem_singleton.1 hx]

/-- Setting a path brings its components in exactly if they had no text. -/
theorem broughtIn_concat_set_iff {edits : List Edit} {p q : Path} {text : String} :
    BroughtIn (edits ++ [.set q text]) p ↔
      BroughtIn edits p ∨ p = q ∧ ∀ old, ¬ LastSet edits p old := by
  constructor
  · rintro ⟨before, first, after, hcut, hnew, hkept⟩
    rcases cut_of_concat hcut with ⟨-, rfl, heq⟩ | ⟨init, rfl, rfl⟩
    · cases heq
      exact Or.inr ⟨rfl, hnew⟩
    · exact Or.inl ⟨before, first, init, rfl, hnew, fun r hr => hkept r (by simp [hr])⟩
  · rintro (⟨before, first, after, rfl, hnew, hkept⟩ | ⟨rfl, hnew⟩)
    · exact ⟨before, first, after ++ [.set q text], by simp, hnew,
        fun r hr => hkept r (by simpa using hr)⟩
    · exact ⟨edits, text, [], rfl, hnew, by simp⟩

theorem broughtIn_concat_remove_iff {edits : List Edit} {p q : Path} :
    BroughtIn (edits ++ [.remove q]) p ↔ BroughtIn edits p ∧ q.components ≠ p.components := by
  constructor
  · rintro ⟨before, first, after, hcut, hnew, hkept⟩
    rcases cut_of_concat hcut with ⟨-, -, heq⟩ | ⟨init, rfl, rfl⟩
    · cases heq
    · exact ⟨⟨before, first, init, rfl, hnew, fun r hr => hkept r (by simp [hr])⟩,
        hkept q (by simp)⟩
  · rintro ⟨⟨before, first, after, rfl, hnew, hkept⟩, hq⟩
    refine ⟨before, first, after ++ [.remove q], by simp, hnew, fun r hr => ?_⟩
    rcases List.mem_append.1 hr with hr | hr
    · exact hkept r hr
    · cases List.mem_singleton.1 hr
      exact hq

/-! ### What the buffers hold -/

namespace MemorySource

/-- The texts after a change. -/
def edit (m : MemorySource) : Edit → MemorySource
  | .set p text => m.insert p text
  | .remove p => (m.remove p).2

/-- The texts after changes, one after the other. -/
def editAll (m : MemorySource) (edits : List Edit) : MemorySource :=
  edits.foldl edit m

theorem editAll_concat (m : MemorySource) (edits : List Edit) (e : Edit) :
    m.editAll (edits ++ [e]) = (m.editAll edits).edit e := by
  simp [editAll]

theorem isBuilt_editAll (edits : List Edit) : (empty.editAll edits).IsBuilt := by
  induction edits using List.reverseRecOn with
  | nil => exact .empty
  | append_singleton edits e ih =>
      rw [editAll_concat]
      cases e with
      | set p text => exact .insert ih p text
      | remove p => exact .erase ih p

/-- **A path has the text that its components were last set to.** -/
theorem get?_editAll_iff (edits : List Edit) (p : Path) (text : String) :
    (empty.editAll edits).get? p = some text ↔ LastSet edits p text := by
  induction edits using List.reverseRecOn with
  | nil =>
      refine iff_of_false (fun h => ?_) (not_lastSet_nil p text)
      cases h
  | append_singleton edits e ih =>
      rw [editAll_concat, lastSet_concat_iff]
      cases e with
      | set q new =>
          show ((empty.editAll edits).insert q new).get? p = some text ↔ _
          rw [get?_insert]
          by_cases hq : q.components = p.components
          · rw [if_pos (Path.same_iff.2 hq), if_pos (by exact hq)]
            simp [Edit.path]
          · rw [if_neg fun h => hq (Path.same_iff.1 h), if_neg (by exact hq)]
            exact ih
      | remove q =>
          show ((empty.editAll edits).erase q).get? p = some text ↔ _
          rw [get?_erase]
          by_cases hq : q.components = p.components
          · rw [if_pos (Path.same_iff.2 hq), if_pos (by exact hq)]
            simp
          · rw [if_neg fun h => hq (Path.same_iff.1 h), if_neg (by exact hq)]
            exact ih

theorem get?_eq_none_iff {m : MemorySource} {p : Path} :
    m.get? p = none ↔ ∀ b ∈ m.buffers, b.path.components ≠ p.components := by
  rw [get?, Option.map_eq_none_iff, List.find?_eq_none]
  exact forall₂_congr fun b _ => not_congr Path.same_iff

/-- A key that is there keeps its spelling when it is set. -/
theorem paths_insertBuffer_of_same {buffers : List Buffer} (h : IsOrdered buffers) {p : Path}
    {b : Buffer} (hb : b ∈ buffers) (hsame : b.path.components = p.components) (text : String) :
    (insertBuffer p text buffers).map (·.path) = buffers.map (·.path) := by
  induction buffers with
  | nil => cases hb
  | cons c rest ih =>
      obtain ⟨hfirst, hrest⟩ := List.pairwise_cons.1 h
      rw [insertBuffer]
      rcases List.mem_cons.1 hb with rfl | hb
      · rw [Path.compare_eq_iff.2 (Path.same_iff.2 hsame.symm)]
        rfl
      · -- The key stands further on, so it comes after the first one.
        have hgt : p.compare c.path = .gt := by
          rw [Path.compare_eq_gt_iff, Path.compare, ← hsame]
          exact hfirst b hb
        rw [hgt, List.map_cons, ih hrest hb, List.map_cons]

/-- A key that is not there comes in as it is spelled. -/
theorem path_mem_insertBuffer_iff {buffers : List Buffer} {p : Path}
    (h : ∀ b ∈ buffers, b.path.components ≠ p.components) (text : String) (q : Path) :
    q ∈ (insertBuffer p text buffers).map (·.path) ↔ q = p ∨ q ∈ buffers.map (·.path) := by
  induction buffers with
  | nil => simp [insertBuffer]
  | cons c rest ih =>
      rw [insertBuffer]
      cases hcompare : p.compare c.path with
      | lt => simp
      | eq =>
          have hsame := Path.same_iff.1 (Path.compare_eq_iff.1 hcompare)
          exact absurd hsame.symm (h c List.mem_cons_self)
      | gt =>
          rw [List.map_cons, List.mem_cons, ih fun b hb => h b (List.mem_cons_of_mem _ hb),
            List.map_cons, List.mem_cons]
          exact or_left_comm

/-- Setting a path adds it to the keys, unless it is a spelling of one of them. -/
theorem path_mem_insert_iff {m : MemorySource} (h : IsOrdered m.buffers) (p : Path) (text : String)
    (q : Path) :
    q ∈ (m.insert p text).buffers.map (·.path) ↔
      q ∈ m.buffers.map (·.path) ∨ q = p ∧ m.get? p = none := by
  show q ∈ (insertBuffer p text m.buffers).map (·.path) ↔ _
  by_cases hnone : m.get? p = none
  · rw [path_mem_insertBuffer_iff (get?_eq_none_iff.1 hnone), or_comm, and_iff_left hnone]
  · have hkey := get?_eq_none_iff.not.1 hnone
    push Not at hkey
    obtain ⟨b, hb, hsame⟩ := hkey
    rw [paths_insertBuffer_of_same h hb hsame]
    exact (or_iff_left fun h => hnone h.2).symm

theorem path_mem_erase_iff (m : MemorySource) (p q : Path) :
    q ∈ (m.erase p).buffers.map (·.path) ↔
      q ∈ m.buffers.map (·.path) ∧ p.components ≠ q.components := by
  show q ∈ (m.buffers.filter (!·.path.same p)).map (·.path) ↔ _
  simp only [List.mem_map, List.mem_filter, Bool.not_eq_true', ← Bool.not_eq_true, Path.same_iff]
  constructor
  · rintro ⟨b, ⟨hb, hne⟩, rfl⟩
    exact ⟨⟨b, hb, rfl⟩, fun heq => hne heq.symm⟩
  · rintro ⟨⟨b, hb, rfl⟩, hne⟩
    exact ⟨b, ⟨hb, fun heq => hne heq.symm⟩, rfl⟩

/-- **The keys are spelled as they were brought in.** -/
theorem path_mem_editAll_iff (edits : List Edit) (p : Path) :
    p ∈ (empty.editAll edits).buffers.map (·.path) ↔ BroughtIn edits p := by
  induction edits using List.reverseRecOn with
  | nil =>
      refine iff_of_false (fun h => ?_) (not_broughtIn_nil p)
      cases h
  | append_singleton edits e ih =>
      rw [editAll_concat]
      cases e with
      | set q text =>
          have hordered := (isBuilt_editAll edits).isOrdered
          rw [edit, path_mem_insert_iff hordered, ih, broughtIn_concat_set_iff]
          refine or_congr_right (and_congr_right ?_)
          rintro rfl
          rw [Option.eq_none_iff_forall_ne_some]
          exact forall_congr' fun old => not_congr (get?_editAll_iff edits p old)
      | remove q =>
          show p ∈ ((empty.editAll edits).erase q).buffers.map (·.path) ↔ _
          rw [path_mem_erase_iff, ih, broughtIn_concat_remove_iff]

/-- Paths in strict order differ in their components. -/
theorem nodup_components {paths : List Path}
    (h : paths.Pairwise fun p q => p.compare q = .lt) : (paths.map (·.components)).Nodup := by
  refine List.pairwise_map.2 (h.imp fun {p q} hlt heq => ?_)
  rw [Path.compare_eq_iff.2 (Path.same_iff.2 heq)] at hlt
  cases hlt

theorem isOrdered_paths (edits : List Edit) :
    ((empty.editAll edits).buffers.map (·.path)).Pairwise fun p q => p.compare q = .lt :=
  List.pairwise_map.2 (isBuilt_editAll edits).isOrdered

/-- A path has a text exactly if its components are a key, in the one spelling that brought it
in. -/
theorem exists_lastSet_iff (edits : List Edit) (q : Path) :
    (∃ text, LastSet edits q text) ↔ ∃! p, BroughtIn edits p ∧ p.components = q.components := by
  simp only [← get?_editAll_iff, ← path_mem_editAll_iff]
  rw [← Option.isSome_iff_exists, Option.isSome_iff_ne_none, ne_eq, get?_eq_none_iff]
  push Not
  constructor
  · rintro ⟨b, hb, hsame⟩
    have hmem := List.mem_map_of_mem (f := (·.path)) hb
    refine ⟨b.path, ⟨hmem, hsame⟩, ?_⟩
    rintro p ⟨hp, hsame'⟩
    exact List.inj_on_of_nodup_map (nodup_components (isOrdered_paths edits)) hp hmem
      (hsame'.trans hsame.symm)
  · rintro ⟨p, ⟨hp, hsame⟩, -⟩
    obtain ⟨b, hb, rfl⟩ := List.mem_map.1 hp
    exact ⟨b, hb, hsame⟩

/-- **Texts in memory are a map from components to texts.**  After any changes, reading and removing
a path give the text that its components were last set to, and a search lists each key that matches
once, in the order of the components and as it was spelled when it was brought in. -/
theorem memory_maps_components (edits : List Edit) :
    (∀ p text, (empty.editAll edits).read p = .ok text ↔ LastSet edits p text) ∧
    (∀ p e, (empty.editAll edits).read p = .error e ↔
      e = .notFound p ∧ ∀ text, ¬ LastSet edits p text) ∧
    (∀ p text, ((empty.editAll edits).remove p).1 = some text ↔ LastSet edits p text) ∧
    (∀ q, (∃ text, LastSet edits q text) ↔
      ∃! p, BroughtIn edits p ∧ p.components = q.components) ∧
    ∀ pattern matcher, pattern.compile = .ok matcher →
      ∃ paths, (empty.editAll edits).find pattern = .ok paths ∧
        paths.Pairwise (fun p q => p.compare q = .lt) ∧ (paths.map (·.components)).Nodup ∧
        ∀ p, p ∈ paths ↔ BroughtIn edits p ∧ matcher.Matches (utf8Bytes p.text.toList) := by
  have hget := get?_editAll_iff edits
  refine ⟨fun p text => ?_, fun p e => ?_, hget, exists_lastSet_iff edits, ?_⟩
  · rw [read, ← hget]
    cases (empty.editAll edits).get? p <;> simp
  · simp only [read, ← hget]
    cases (empty.editAll edits).get? p <;> simp [eq_comm]
  · intro pattern matcher hcompile
    have hsorted := List.Pairwise.filter matcher.acceptsPath (isOrdered_paths edits)
    refine ⟨_, by rw [find, hcompile]; rfl, hsorted, nodup_components hsorted, fun p => ?_⟩
    rw [List.mem_filter, path_mem_editAll_iff, Pattern.acceptsPath, Pattern.accepts_iff]

/-- A key that is set, removed and set again, each time in another spelling. -/
def respelled : List Edit :=
  [.set ⟨"a/b/"⟩ "1", .set ⟨"c"⟩ "2", .remove ⟨"a/./b"⟩, .set ⟨"a//b"⟩ "3", .set ⟨"a/b"⟩ "4"]

/-- The text is that of the last change.  The spelling is that of the change before it, which set the
key first after it was removed. -/
theorem respelled_key_is_listed_once :
    LastSet respelled ⟨"a/b/."⟩ "4" ∧ (∀ text, ¬ LastSet respelled ⟨"./a/b"⟩ text) ∧
      ((empty.editAll respelled).remove ⟨"a///b"⟩).1 = some "4" ∧
      BroughtIn respelled ⟨"a//b"⟩ ∧ ¬ BroughtIn respelled ⟨"a/b"⟩ := by
  obtain ⟨hread, hmissing, -, hkeys, hfind⟩ := memory_maps_components respelled
  have hanswers : (empty.editAll respelled).read ⟨"a/b/."⟩ = .ok "4" ∧
      (empty.editAll respelled).read ⟨"./a/b"⟩ = .error (.notFound ⟨"./a/b"⟩) ∧
      ((empty.editAll respelled).remove ⟨"a///b"⟩).1 = some "4" ∧
      (empty.editAll respelled).find ⟨"a//*", false⟩ = .ok [⟨"a//b"⟩] := by
    decide +kernel
  have hlast := (hread _ _).1 hanswers.1
  obtain ⟨matcher, hcompile⟩ : ∃ matcher, (FilePattern.mk "a//*" false).compile = .ok matcher :=
    ⟨_, rfl⟩
  obtain ⟨paths, hpaths, -, -, hlisted⟩ := hfind _ _ hcompile
  rw [hanswers.2.2.2] at hpaths
  cases hpaths
  have hbrought := ((hlisted ⟨"a//b"⟩).1 List.mem_cons_self).1
  refine ⟨hlast, ((hmissing _ _).1 hanswers.2.1).2, hanswers.2.2.1, hbrought, fun hother => ?_⟩
  have hsame : (Path.mk "a//b").components = (Path.mk "a/b/.").components ∧
      (Path.mk "a/b").components = (Path.mk "a/b/.").components := by decide +kernel
  have heq := ((hkeys _).1 ⟨_, hlast⟩).unique ⟨hbrought, hsame.1⟩ ⟨hother, hsame.2⟩
  revert heq
  decide

end MemorySource

end OverlayIndex
