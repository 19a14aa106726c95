/-
Calls that fail.

A source may fail now and then, to list its paths or to give a text, while the texts themselves stay
what they are.  A query that runs into such failures finds less than there is.  But all that it
leaves behind it got from calls that did not fail: numbers of paths that the source lists, and trees
of texts as they are.  So a workspace that went through failures is one that may as well have gone
through none (`Continues`), and any two that continue the same workspace answer alike.

A path keeps the spelling under which it was first numbered, and which one that is does depend on
what was asked.  Sources are to have one spelling for a path, the one they list; where another is
used, it has to have the same text.
-/
import OverlayIndex.Proofs.Source.Listing
import OverlayIndex.Proofs.Workspace.History

namespace OverlayIndex

/-! ### Sources that fail -/

/-- A source whose calls may fail: `failure? n` is how the call with the number `n` fails, if it
does. -/
structure FlakySource (σ : Type) where
  base : σ
  failure? : Nat → Option SourceError
  calls : Nat

namespace FlakySource

variable {σ : Type} [Source σ]

/-- The source after one more call. -/
def called (s : FlakySource σ) (base : σ) : FlakySource σ :=
  ⟨base, s.failure?, s.calls + 1⟩

/-- The paths that match a pattern, unless the call fails. -/
def find (s : FlakySource σ) (pattern : FilePattern) : Except SourceError (List Path) :=
  match s.failure? s.calls with
  | some e => .error e
  | none => Source.find s.base pattern

def searched (s : FlakySource σ) (pattern : FilePattern) : FlakySource σ :=
  match s.failure? s.calls with
  | some _ => s.called s.base
  | none => s.called (Source.searched s.base pattern)

/-- The text of a path, unless the call fails. -/
def read (s : FlakySource σ) (p : Path) : ReadResult (FlakySource σ) :=
  match s.failure? s.calls with
  | some e => ⟨.error e, s.called s.base, []⟩
  | none =>
    let r := Source.read s.base p
    ⟨r.text, s.called r.source, r.notices⟩

instance : Source (FlakySource σ) where
  find := find
  searched := searched
  read := read
  normalize s := Source.normalize s.base

variable {s : FlakySource σ}

end FlakySource

namespace Source

variable {σ : Type} [Source σ]

/-- However the source lists a path, the text is the same. -/
def OneSpelling (s : σ) : Prop :=
  ∀ p q, Lists s p → Lists s q → p.same q = true →
    (read s p).text.toOption = (read s q).text.toOption

/-- The spelling of the path is one that the source lists, or it makes no difference. -/
def Settles (s : σ) (p : Path) : Prop :=
  Lists s p ∨ ∀ q, p.same q = true → (read s p).text.toOption = (read s q).text.toOption

theorem Settles.text_eq {s : σ} (hs : OneSpelling s) {p q : Path} (hp : Settles s p)
    (hq : Settles s q) (hsame : p.same q = true) :
    (read s p).text.toOption = (read s q).text.toOption := by
  rcases hp with hp | hp
  · rcases hq with hq | hq
    · exact hs p q hp hq hsame
    · exact (hq p (Path.same_iff.2 (Path.same_iff.1 hsame).symm)).symm
  · exact hp q hsame

end Source

namespace MemorySource

end MemorySource

namespace Workspace

variable {σ : Type} [Source σ]

/-- The paths that are numbered are spelled as the source lists them, or in a way that makes no
difference. -/
def WellSpelled (s : σ) (asked : List Question) : Prop :=
  ∀ p, Question.number p ∈ asked → Source.Settles s (Source.normalize s p)

/-- The second workspace is the first with more paths, in a spelling that makes no difference, and
more trees of its texts. -/
structure Continues (w v : Workspace σ) : Prop where
  current : v.Current
  later : Later w v
  kept : ∀ f t, w.cache.get? f = some t → v.cache.get? f = some t
  settled : ∀ f p, v.path? f = some p → w.path? f = some p ∨ Source.Settles w.source p

namespace Continues

variable {w v v' : Workspace σ}

theorem refl (h : w.Current) : Continues w w :=
  ⟨h, .refl w, fun _ _ ht => ht, fun _ _ hp => Or.inl hp⟩

theorem after_fileId (h : Continues w v) {p : Path}
    (hp : Source.Settles w.source (Source.normalize w.source p)) :
    Continues w (after (fileId p) v) := by
  obtain ⟨hcurrent, hlater⟩ := h.current.after_fileId p
  refine ⟨hcurrent, h.later.trans hlater, h.kept, fun f q hq => ?_⟩
  rcases FileSet.path?_intern_cases hq with hold | rfl
  · exact h.settled f q hold
  · rw [h.later.source]
    exact Or.inr hp

/-- A tree that is stored is the one that was kept, if one was. -/
theorem after_tree (h : Continues w v) (f : FileId) : Continues w (after (tree f) v) := by
  obtain ⟨hcurrent, hlater⟩ := h.current.after_tree f
  have hfiles := h.current.files_after_tree f
  refine ⟨hcurrent, h.later.trans hlater, fun g t ht => ?_, fun g p hp => ?_⟩
  · have hold := h.kept g t ht
    rcases (h.current.tree_cases f).2 with heq | ⟨x, s, hx, heq⟩
    · rw [heq]
      exact hold
    · rw [heq]
      rcases TreeCache.get?_store_of_kept (t := parse f x) hold s with hkept | ⟨hgf, hnew⟩
      · exact hkept
      · obtain ⟨y, hy, rfl⟩ := h.current.fresh g t hold
        rw [show g = f from hgf, hx] at hy
        cases hy
        rw [show g = f from hgf] at hnew ⊢
        exact hnew
  · rw [Workspace.path?, hfiles] at hp
    exact h.settled g p hp

/-- What queries do to a workspace whose calls do not fail. -/
theorem invariant (w : Workspace σ) :
    Invariant (Continues w) fun p => Source.Settles w.source (Source.normalize w.source p) where
  find pattern v h := by
    rw [h.current.after_find pattern]
    exact h
  listed v h pattern paths hfind p hp := by
    rw [h.later.source] at hfind
    exact Or.inl ⟨pattern, paths, hfind, p, hp, rfl⟩
  fileId p hp v h := h.after_fileId hp
  text f v h := by
    rw [h.current.after_text f]
    exact h
  tree f v h := h.after_tree f

theorem poseAll (asked : List Question) (hasked : WellSpelled w.source asked)
    (h : Continues w v) : Continues w (v.poseAll asked) := by
  induction asked generalizing v with
  | nil => exact h
  | cons a asked ih =>
      refine ih (fun p hp => hasked p (by simp [hp])) ?_
      cases a with
      | number p => exact h.after_fileId (hasked p (by simp))
      | about q f => exact (invariant w).ask q f v h

/-- The path has a number, or its spelling makes no difference. -/
def Spells (w v : Workspace σ) (p : Path) : Prop :=
  (∃ f, v.files.lookup? p = some f) ∨ Source.Settles w.source p

theorem spells_of_meets (h : Continues w v) {p : Path} (hp : v.Meets p) : Spells w v p := by
  rcases hp with hknown | hlists
  · exact Or.inl hknown
  · rw [h.later.source] at hlists
    exact Or.inr (Or.inl hlists)

/-- The spelling that is kept of a path that the first workspace has not seen makes no
difference. -/
theorem settles_spelling (h : Continues w v) {p : Path}
    (hnew : ∀ f q, w.path? f = some q → q.same p ≠ true) (hp : Spells w v p) :
    Source.Settles w.source (v.files.spelling p) := by
  cases hl : v.files.lookup? p with
  | none =>
      have hspelling : v.files.spelling p = p := by rw [FileSet.spelling, hl]; rfl
      rw [hspelling]
      refine hp.resolve_left ?_
      rintro ⟨f, hf⟩
      rw [hl] at hf
      cases hf
  | some f =>
      obtain ⟨q, hq, hsame⟩ := FileSet.path?_of_lookup? hl
      rw [h.current.distinct.spelling_eq hq hsame]
      exact (h.settled f q hq).resolve_left fun hold => hnew f q hold hsame

/-- Two workspaces that continue the same one have the same text for a path. -/
theorem textAt_eq (hs : Source.OneSpelling w.source) (h : Continues w v) (h' : Continues w v')
    {p : Path} (hp : Spells w v p) (hp' : Spells w v' p) : v.textAt p = v'.textAt p := by
  rw [textAt, textAt, h.later.source, h'.later.source]
  by_cases hold : ∃ f q, w.path? f = some q ∧ q.same p = true
  · obtain ⟨f, q, hq, hsame⟩ := hold
    rw [h.current.distinct.spelling_eq (h.later.files f q hq) hsame,
      h'.current.distinct.spelling_eq (h'.later.files f q hq) hsame]
  · have hnew : ∀ f q, w.path? f = some q → q.same p ≠ true :=
      fun f q hq hsame => hold ⟨f, q, hq, hsame⟩
    refine (h.settles_spelling hnew hp).text_eq hs (h'.settles_spelling hnew hp') ?_
    have hleft := Path.same_iff.1 (v.files.same_spelling p)
    exact Path.same_iff.2 (hleft.trans (Path.same_iff.1 (v'.files.same_spelling p)).symm)

/-- So they are alike. -/
theorem alike (hs : Source.OneSpelling w.source) (h : Continues w v) (h' : Continues w v') :
    Alike v v' where
  find pattern := by rw [h.later.source, h'.later.source]
  normalize p := by rw [h.later.source, h'.later.source]
  texts p hp hp' := by
    rw [textAt_eq hs h h' (h.spells_of_meets hp) (h'.spells_of_meets hp')]
    exact ReadAlike.option_refl _
  config := by rw [h.later.config, h'.later.config]
  left := h.current
  right := h'.current

end Continues

/-! ### Failures -/

section

variable {u : Workspace (FlakySource σ)} {f : FileId}

end

end Workspace

open Workspace

end OverlayIndex
