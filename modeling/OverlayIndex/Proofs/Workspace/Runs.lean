/-
What work on a workspace answers, and what it leaves.

Work is a function from a workspace to an answer and a workspace.  `answer` and `after` are the
two halves, and each way to put work together has an equation for both, so that later proofs
speak of the halves and never open the function.
-/
import OverlayIndex.Workspace.Basic

namespace OverlayIndex

namespace Workspace

variable {σ α β : Type}

/-- What the work answers. -/
def answer (x : WorkspaceM σ α) (w : Workspace σ) : α :=
  (x.run w).1

/-- The workspace that the work leaves. -/
def after (x : WorkspaceM σ α) (w : Workspace σ) : Workspace σ :=
  (x.run w).2

@[simp] theorem answer_pure (a : α) (w : Workspace σ) : answer (pure a) w = a := rfl

@[simp] theorem after_pure (a : α) (w : Workspace σ) : after (pure a) w = w := rfl

@[simp] theorem answer_bind (x : WorkspaceM σ α) (g : α → WorkspaceM σ β) (w : Workspace σ) :
    answer (x >>= g) w = answer (g (answer x w)) (after x w) := rfl

@[simp] theorem after_bind (x : WorkspaceM σ α) (g : α → WorkspaceM σ β) (w : Workspace σ) :
    after (x >>= g) w = after (g (answer x w)) (after x w) := rfl

@[simp] theorem answer_map (g : α → β) (x : WorkspaceM σ α) (w : Workspace σ) :
    answer (g <$> x) w = g (answer x w) := rfl

@[simp] theorem after_map (g : α → β) (x : WorkspaceM σ α) (w : Workspace σ) :
    after (g <$> x) w = after x w := rfl

@[simp] theorem answer_get (w : Workspace σ) : answer get w = w := rfl

@[simp] theorem after_get (w : Workspace σ) : after get w = w := rfl

@[simp] theorem answer_modifyGet (g : Workspace σ → α × Workspace σ) (w : Workspace σ) :
    answer (modifyGet g) w = (g w).1 := rfl

@[simp] theorem after_modifyGet (g : Workspace σ → α × Workspace σ) (w : Workspace σ) :
    after (modifyGet g) w = (g w).2 := rfl

@[simp] theorem after_modify (g : Workspace σ → Workspace σ) (w : Workspace σ) :
    after (modify g) w = g w := rfl

/-! ### Texts and trees -/

variable [Source σ] {w : Workspace σ} {f : FileId}

@[simp] theorem answer_find (pattern : FilePattern) (w : Workspace σ) :
    answer (find pattern) w = Source.find w.source pattern := rfl

@[simp] theorem after_find (pattern : FilePattern) (w : Workspace σ) :
    after (find pattern) w = { w with source := Source.searched w.source pattern } := rfl

theorem answer_text_of_path {p : Path} (h : w.path? f = some p) :
    answer (text f) w = (Source.read w.source p).text := by
  simp [text, h, readPath]

theorem answer_text_of_unknown (h : w.path? f = none) :
    answer (text f) w = .error (.unknownFile f) := by
  simp [text, h]

theorem after_text_of_path {p : Path} (h : w.path? f = some p) :
    after (text f) w = (Source.read w.source p).notices.foldl hear
      { w with source := (Source.read w.source p).source } := by
  simp [text, h, readPath]

theorem after_text_of_unknown (h : w.path? f = none) : after (text f) w = w := by
  simp [text, h]

theorem tree_of_hit {t : SymbolTree} (h : w.cache.get? f = some t) :
    answer (tree f) w = t ∧ after (tree f) w = w := by
  simp [tree, h]

theorem tree_of_error (h : w.cache.get? f = none) {e : SourceError}
    (he : answer (text f) w = .error e) :
    answer (tree f) w = .empty f ∧ after (tree f) w = after (text f) w := by
  simp [tree, h, he]

theorem tree_of_ok (h : w.cache.get? f = none) {x : String} (hx : answer (text f) w = .ok x) :
    answer (tree f) w = parse f x ∧
      after (tree f) w = { after (text f) w with
        cache := (after (text f) w).cache.store (w.cache.stamp f) (parse f x) } := by
  simp [tree, h, hx]

end Workspace

end OverlayIndex
