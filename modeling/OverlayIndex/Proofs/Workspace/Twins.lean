/-
Workspaces with the same numbers.

Two workspaces that are alike and have the same numbers give the very same answers, not only the same
up to the names of files, and whatever is asked of both leaves them so.  This holds of every number,
also of one that no file has.  There is no text for such a number and so nothing to be found; a query
may give it to a file on the way, but does not look at it again then.
-/
import OverlayIndex.Proofs.Workspace.SameAnswers

namespace OverlayIndex

namespace Workspace

variable {σ τ : Type} [Source σ] [Source τ]

/-! ### Files without numbers -/

section

variable {w : Workspace σ} {f : FileId}

theorem Current.tree_of_unknown (h : w.Current) (hf : w.path? f = none) :
    answer (tree f) w = .empty f ∧ after (tree f) w = w := by
  have htext : w.textOf f = none := by
    rw [textOf, hf, Option.bind_none]
  obtain ⟨hanswer, hafter⟩ := h.tree_cases f
  refine ⟨by rw [hanswer, treeOf, htext], ?_⟩
  rcases hafter with hsame | ⟨x, s, hx, -⟩
  · exact hsame
  · rw [htext] at hx
    cases hx

/-- What is answered about a number that no file has by the queries that look at that file only. -/
def blank? : Query → Option (Answer FileId)
  | .outline => some (.outline .nil)
  | .folds => some (.folds [])
  | .selections _ => some (.selections [])
  | .definition _ => some (.definition none)
  | .resolve _ => some .notFound
  | .references _ => some (.references [])
  | .links => some (.links [])
  | .symbols _ => none
  | .logicalName _ => none

theorem Current.ask_of_unknown (h : w.Current) (hf : w.path? f = none) {q : Query}
    {a : Answer FileId} (hq : blank? q = some a) :
    answer (ask q f) w = a ∧ after (ask q f) w = w := by
  obtain ⟨htree, htree'⟩ := h.tree_of_unknown hf
  cases q with
  | outline =>
      cases hq
      have hnone : (SymbolTree.empty f).outline = .nil := (SymbolTree.empty f).outline_eq
      rw [← hnone]
      exact ⟨congrArg (fun t : SymbolTree => Answer.outline t.outline) htree, htree'⟩
  | folds =>
      cases hq
      have hnone : (SymbolTree.empty f).folds = [] := by
        simp [SymbolTree.folds, SymbolTree.symbols_eq, SymbolTree.empty, Forest.toList]
      rw [← hnone]
      exact ⟨congrArg (fun t : SymbolTree => Answer.folds t.folds) htree, htree'⟩
  | selections p =>
      cases hq
      exact ⟨congrArg (fun t : SymbolTree => Answer.selections (t.selections p)) htree, htree'⟩
  | symbols query => cases hq
  | definition p =>
      cases hq
      obtain ⟨hfound, hafter⟩ := resolve_of_unknown hf p
      exact ⟨congrArg (fun r : Resolution => Answer.definition (r.declaration?.map Declaration.site))
        hfound, hafter⟩
  | resolve p =>
      cases hq
      obtain ⟨hfound, hafter⟩ := resolve_of_unknown hf p
      exact ⟨congrArg Answer.ofResolution hfound, hafter⟩
  | references p =>
      cases hq
      obtain ⟨hfound, hafter⟩ := resolve_of_unknown hf p
      simp only [ask, references, definition, answer_bind, after_bind, answer_pure, after_pure, hfound,
        hafter]
      exact ⟨rfl, rfl⟩
  | links =>
      cases hq
      simp only [ask, links, answer_bind, after_bind, answer_pure, after_pure, htree, htree']
      exact ⟨rfl, rfl⟩
  | logicalName name => cases hq

end

/-! ### Twins -/

/-- The two workspaces have the same numbers, their sources list the same paths, and the texts of
every path read alike. -/
structure Twins (w : Workspace σ) (v : Workspace τ) : Prop where
  find : ∀ pattern, Source.find w.source pattern = Source.find v.source pattern
  normalize : ∀ p, Source.normalize w.source p = Source.normalize v.source p
  texts : ∀ p, Option.Rel ReadAlike (Source.read w.source p).text.toOption
    (Source.read v.source p).text.toOption
  config : w.config = v.config
  files : w.files = v.files
  left : w.Current
  right : v.Current

namespace Twins

variable {w : Workspace σ} {v : Workspace τ}

theorem textAt (h : Twins w v) (p : Path) : Option.Rel ReadAlike (w.textAt p) (v.textAt p) := by
  rw [Workspace.textAt, Workspace.textAt, h.files]
  exact h.texts _

theorem alike (h : Twins w v) : Alike w v :=
  ⟨h.find, h.normalize, fun p _ _ => h.textAt p, h.config, h.left, h.right⟩

theorem sameFile (h : Twins w v) {f : FileId} {p : Path} (hp : w.path? f = some p) :
    SameFile w v f f := by
  refine ⟨p, p, hp, ?_, Path.same_iff.2 rfl⟩
  rw [path?, ← h.files]
  exact hp

/-- Works that agree leave twins. -/
theorem ofAgree {α β : Type} {R : Workspace σ → Workspace τ → α → β → Prop} {x : WorkspaceM σ α}
    {y : WorkspaceM τ β} (h : Twins w v) (hxy : Agree R w v x y) : Twins (after x w) (after y v) where
  find := hxy.alike.find
  normalize := hxy.alike.normalize
  texts := by
    rw [hxy.later_left.source, hxy.later_right.source]
    exact h.texts
  config := hxy.alike.config
  files := hxy.numbering h.files
  left := hxy.alike.left
  right := hxy.alike.right

/-- Queries whose answers are the same up to names have the same answers. -/
theorem answer_eq {x : WorkspaceM σ (Answer FileId)} {y : WorkspaceM τ (Answer FileId)}
    (h : Twins w v) (hxy : Agree SameAnswer w v x y) : answer x w = answer y v :=
  hxy.answers.eq (hxy.numbering h.files) hxy.alike.left.distinct

theorem fileId (h : Twins w v) (p : Path) :
    answer (fileId p) w = answer (fileId p) v ∧ Twins (after (fileId p) w) (after (fileId p) v) := by
  refine ⟨?_, h.ofAgree (agree_fileId_of_text h.alike (h.textAt _))⟩
  show (w.files.intern (Source.normalize w.source p)).1 =
    (v.files.intern (Source.normalize v.source p)).1
  rw [h.files, h.normalize]

theorem tree (h : Twins w v) (f : FileId) : answer (tree f) w = answer (tree f) v := by
  rw [(h.left.tree_cases f).1, (h.right.tree_cases f).1]
  have hfile : w.path? f = v.path? f := by rw [path?, path?, h.files]
  cases hp : w.path? f with
  | none => rw [treeOf, treeOf, textOf, textOf, ← hfile, hp, Option.bind_none, Option.bind_none]
  | some p =>
      have hforest := (h.sameFile hp).forest h.alike
      have hleft := w.file_treeOf f
      have hright := v.file_treeOf f
      generalize w.treeOf f = t at hforest hleft ⊢
      generalize v.treeOf f = u at hforest hright ⊢
      cases t
      cases u
      simp only at hforest hleft hright
      rw [hforest, hleft, hright]

theorem ask (h : Twins w v) (q : Query) (f : FileId) :
    answer (ask q f) w = answer (ask q f) v ∧ Twins (after (ask q f) w) (after (ask q f) v) := by
  cases hp : w.path? f with
  | some p =>
      have hagree := agree_ask h.alike (h.sameFile hp) q
      exact ⟨h.answer_eq hagree, h.ofAgree hagree⟩
  | none =>
      have hp' : v.path? f = none := by
        rw [path?, ← h.files]
        exact hp
      cases hblank : blank? q with
      | some a =>
          obtain ⟨hleft, hleft'⟩ := h.left.ask_of_unknown hp hblank
          obtain ⟨hright, hright'⟩ := h.right.ask_of_unknown hp' hblank
          rw [hleft, hright, hleft', hright']
          exact ⟨rfl, h⟩
      | none =>
          -- The other two look at the file only under the logical name that stands for it.
          cases q with
          | symbols query =>
              have hagree := agree_askSymbols h.alike query f f
              exact ⟨h.answer_eq hagree, h.ofAgree hagree⟩
          | logicalName name =>
              by_cases hname : name = thisFile
              · obtain ⟨hleft, hleft'⟩ := h.left.tree_of_unknown hp
                obtain ⟨hright, hright'⟩ := h.right.tree_of_unknown hp'
                simp only [Workspace.ask, treesOfLogicalName, if_pos hname, answer_bind, after_bind,
                  answer_pure, after_pure, hleft, hleft', hright, hright']
                exact ⟨trivial, h⟩
              · have hagree := agree_askLogicalName (agree_treesOfOther h.alike hname f f)
                exact ⟨h.answer_eq hagree, h.ofAgree hagree⟩
          | outline | folds | selections | definition | resolve | references | links => cases hblank

/-- Twins stay twins, whatever is asked of both. -/
theorem poseAll (asked : List Question) (h : Twins w v) :
    Twins (w.poseAll asked) (v.poseAll asked) := by
  induction asked generalizing w v with
  | nil => exact h
  | cons a asked ih =>
      cases a with
      | number p => exact ih (h.fileId p).2
      | about q f => exact ih (h.ask q f).2

end Twins

end Workspace

end OverlayIndex
