/-
Workspaces that are up to date.

`textOf` and `treeOf` say what a file's text and tree are by the source as it stands, whatever is
kept.  A workspace is current if every tree it keeps is that one and no path has two numbers.
Then searching, reading, parsing and numbering answer by the source alone, and they leave the
workspace current, with the source untouched and every number still standing for its path.  That is all
that queries do, so it holds of every query.
-/
import OverlayIndex.Proofs.Workspace.FileSet
import OverlayIndex.Proofs.Workspace.Queries
import OverlayIndex.Proofs.Workspace.TreeCache

namespace OverlayIndex

/-- Searching and reading leave the source as it is, and nothing is announced meanwhile. -/
structure Source.Calm {σ : Type} [Source σ] (s : σ) : Prop where
  searched : ∀ pattern, Source.searched s pattern = s
  read : ∀ p, (Source.read s p).source = s ∧ (Source.read s p).notices = []

namespace Workspace

variable {σ : Type} [Source σ]

/-- The text of a file by the source as it stands. -/
def textOf (w : Workspace σ) (f : FileId) : Option String :=
  (w.path? f).bind fun p => (Source.read w.source p).text.toOption

theorem toOption_answer_text (w : Workspace σ) (f : FileId) :
    (answer (text f) w).toOption = w.textOf f := by
  cases hp : w.path? f with
  | none => rw [answer_text_of_unknown hp, textOf, hp]; rfl
  | some p => rw [answer_text_of_path hp, textOf, hp]; rfl

/-- The tree of a file by the source as it stands. -/
def treeOf (w : Workspace σ) (f : FileId) : SymbolTree :=
  match w.textOf f with
  | some x => parse f x
  | none => .empty f

theorem file_treeOf (w : Workspace σ) (f : FileId) : (w.treeOf f).file = f := by
  rw [treeOf]
  split <;> rfl

/-- Every tree that is kept is the one that its file has now. -/
structure Current (w : Workspace σ) : Prop where
  calm : Source.Calm w.source
  distinct : w.files.Distinct
  fresh : ∀ f t, w.cache.get? f = some t → ∃ x, w.textOf f = some x ∧ t = parse f x

/-- The second workspace has the same source as the first, and every number of the first. -/
structure Later (w w' : Workspace σ) : Prop where
  source : w'.source = w.source
  config : w'.config = w.config
  files : w.files.Extends w'.files

namespace Later

variable {w w' w'' : Workspace σ}

omit [Source σ] in
theorem refl (w : Workspace σ) : Later w w :=
  ⟨rfl, rfl, .refl _⟩

omit [Source σ] in
theorem trans (h : Later w w') (h' : Later w' w'') : Later w w'' :=
  ⟨h'.source.trans h.source, h'.config.trans h.config, h.files.trans h'.files⟩

theorem textOf_eq (h : Later w w') {f : FileId} {p : Path} (hp : w.path? f = some p) :
    w'.textOf f = w.textOf f := by
  have hp' : w'.path? f = some p := h.files f p hp
  rw [textOf, textOf, hp, hp', h.source]

theorem treeOf_eq (h : Later w w') {f : FileId} {p : Path} (hp : w.path? f = some p) :
    w'.treeOf f = w.treeOf f := by
  rw [treeOf, treeOf, h.textOf_eq hp]

end Later

namespace Current

variable {w : Workspace σ}

theorem ofSource {s : σ} (hs : Source.Calm s) (config : Config) :
    (Workspace.ofSource s config).Current :=
  ⟨hs, FileSet.distinct_empty, fun f t h => by cases h⟩

theorem after_find (h : w.Current) (pattern : FilePattern) : after (find pattern) w = w := by
  rw [Workspace.after_find, h.calm.searched]

theorem after_text (h : w.Current) (f : FileId) : after (text f) w = w := by
  cases hp : w.path? f with
  | none => exact after_text_of_unknown hp
  | some p =>
      obtain ⟨hsource, hnotices⟩ := h.calm.read p
      rw [after_text_of_path hp, hnotices, hsource, List.foldl_nil]

/-- What is not kept is parsed from the text and kept; nothing else changes. -/
theorem tree_cases (h : w.Current) (f : FileId) :
    answer (tree f) w = w.treeOf f ∧
      (after (tree f) w = w ∨ ∃ x s, w.textOf f = some x ∧
        after (tree f) w = { w with cache := w.cache.store s (parse f x) }) := by
  have htext := w.toOption_answer_text f
  cases hget : w.cache.get? f with
  | some t =>
      obtain ⟨x, hx, rfl⟩ := h.fresh f t hget
      obtain ⟨hanswer, hafter⟩ := tree_of_hit hget
      exact ⟨by rw [hanswer, treeOf, hx], Or.inl hafter⟩
  | none =>
      cases hread : answer (text f) w with
      | error e =>
          obtain ⟨hanswer, hafter⟩ := tree_of_error hget hread
          rw [hread] at htext
          refine ⟨?_, Or.inl (hafter.trans (h.after_text f))⟩
          rw [hanswer, treeOf, ← htext]
          rfl
      | ok x =>
          obtain ⟨hanswer, hafter⟩ := tree_of_ok hget hread
          rw [hread] at htext
          refine ⟨by rw [hanswer, treeOf, ← htext]; rfl, Or.inr ⟨x, w.cache.stamp f, htext.symm, ?_⟩⟩
          rw [hafter, h.after_text f]

theorem store (h : w.Current) {f : FileId} {x : String} (hx : w.textOf f = some x) (s : Stamp) :
    Current { w with cache := w.cache.store s (parse f x) } := by
  refine ⟨h.calm, h.distinct, ?_⟩
  intro g t hget
  rcases TreeCache.get?_store hget with hold | ⟨rfl, rfl, -⟩
  · exact h.fresh g t hold
  · exact ⟨x, hx, rfl⟩

theorem after_tree (h : w.Current) (f : FileId) :
    (after (tree f) w).Current ∧ Later w (after (tree f) w) := by
  rcases (h.tree_cases f).2 with heq | ⟨x, s, hx, heq⟩
  · rw [heq]
    exact ⟨h, .refl w⟩
  · rw [heq]
    exact ⟨h.store hx s, rfl, rfl, .refl _⟩

theorem files_after_tree (h : w.Current) (f : FileId) : (after (tree f) w).files = w.files := by
  rcases (h.tree_cases f).2 with heq | ⟨x, s, -, heq⟩
  · rw [heq]
  · rw [heq]

theorem after_fileId (h : w.Current) (p : Path) :
    (after (fileId p) w).Current ∧ Later w (after (fileId p) w) := by
  have hext := FileSet.extends_intern w.files (Source.normalize w.source p)
  have hlater : Later w (after (fileId p) w) := ⟨rfl, rfl, hext⟩
  refine ⟨⟨h.calm, h.distinct.intern _, ?_⟩, hlater⟩
  intro f t hget
  obtain ⟨x, hx, ht⟩ := h.fresh f t hget
  obtain ⟨q, hq, -⟩ := Option.bind_eq_some_iff.1 hx
  exact ⟨x, (hlater.textOf_eq hq).trans hx, ht⟩

/-- **Queries leave a workspace current**, with its source and its numbers. -/
theorem invariant (w₀ : Workspace σ) :
    Invariant (fun w : Workspace σ => w.Current ∧ Later w₀ w) fun _ => True where
  find pattern := by
    rintro w ⟨h, hlater⟩
    rw [h.after_find pattern]
    exact ⟨h, hlater⟩
  listed _ _ _ _ _ _ _ := trivial
  fileId p _ := by
    rintro w ⟨h, hlater⟩
    exact ⟨(h.after_fileId p).1, hlater.trans (h.after_fileId p).2⟩
  text f := by
    rintro w ⟨h, hlater⟩
    rw [h.after_text f]
    exact ⟨h, hlater⟩
  tree f := by
    rintro w ⟨h, hlater⟩
    exact ⟨(h.after_tree f).1, hlater.trans (h.after_tree f).2⟩

theorem after_askPath (h : w.Current) (p : Path) (q : Query) :
    (after (fileId p >>= ask q) w).Current :=
  ((invariant _).ask q _ _ ⟨(h.after_fileId p).1, .refl _⟩).1

end Current

end Workspace

end OverlayIndex
