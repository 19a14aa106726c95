/-
Trees asked for at the same time.

Asking for a tree takes three steps: the cache is looked at and a stamp is taken, the text is
read, and the tree is stored if the stamp is still the file's.  Between any two of these steps
any number of other callers may take steps of theirs, the source may change, and changes may
be announced.  `Shared` is a workspace with the calls that are on their way, and `Steps` says
what may happen to it, in any order.

What is shown is that a tree that is kept was made from a text that was read after the last
announcement that concerned its file.  The argument is about counting: a stamp is the number
of announcements so far, so equal stamps mean that there was none in between.  A call read its
text after it took its stamp, so there was none since the text was read either.
-/
import OverlayIndex.Proofs.Workspace.FileSet
import OverlayIndex.Proofs.Workspace.Runs
import OverlayIndex.Proofs.Workspace.TreeCache
import OverlayIndex.Source.Memory

namespace OverlayIndex

/-- A call for the tree of a file, on its way: the stamp it took and, once it has read, the text. -/
structure Call where
  file : FileId
  stamp : Stamp
  text : Option String

/-- A workspace that is used by several callers, and their calls on the way. -/
structure Shared (σ : Type) where
  workspace : Workspace σ
  calls : List Call

/-- What may happen to a shared workspace. -/
inductive Act (σ : Type) where
  /-- A call looks at the cache. -/
  | look (file : FileId)
  /-- A call reads this text. -/
  | read (file : FileId) (text : String)
  /-- A call finds that there is nothing to be read. -/
  | giveUp (file : FileId)
  /-- A call that has read stores its tree, or finds that it must not. -/
  | store (file : FileId)
  /-- The source changes. -/
  | write (old new : σ)
  /-- A path gets its number. -/
  | intern (path : Path)
  | invalidate (file : FileId)
  | invalidateAll

/-- The file is announced to have changed, by itself or with all others. -/
def Act.Announces {σ : Type} (f : FileId) : Act σ → Prop
  | .invalidate g => g = f
  | .invalidateAll => True
  | _ => False

namespace Shared

variable {σ : Type} [Source σ]

/-- One thing happens.  A call is anywhere among those on their way. -/
inductive Step : Shared σ → Act σ → Shared σ → Prop
  | hit {s : Shared σ} {f : FileId} {t : SymbolTree} (h : s.workspace.cache.get? f = some t) :
      Step s (.look f) s
  | miss {s : Shared σ} {f : FileId} (h : s.workspace.cache.get? f = none) :
      Step s (.look f) { s with calls := ⟨f, s.workspace.cache.stamp f, none⟩ :: s.calls }
  | read {w : Workspace σ} {before later : List Call} {f : FileId} {stamp : Stamp} {x : String}
      (hx : w.answer (Workspace.text f) = .ok x) :
      Step ⟨w, before ++ ⟨f, stamp, none⟩ :: later⟩ (.read f x)
        ⟨w, before ++ ⟨f, stamp, some x⟩ :: later⟩
  | giveUp {w : Workspace σ} {before later : List Call} {f : FileId} {stamp : Stamp}
      {e : SourceError} (he : w.answer (Workspace.text f) = .error e) :
      Step ⟨w, before ++ ⟨f, stamp, none⟩ :: later⟩ (.giveUp f) ⟨w, before ++ later⟩
  | store {w : Workspace σ} {before later : List Call} {f : FileId} {stamp : Stamp} {x : String} :
      Step ⟨w, before ++ ⟨f, stamp, some x⟩ :: later⟩ (.store f)
        ⟨{ w with cache := w.cache.store stamp (parse f x) }, before ++ later⟩
  | write {s : Shared σ} (new : σ) :
      Step s (.write s.workspace.source new)
        { s with workspace := { s.workspace with source := new } }
  | intern {s : Shared σ} (p : Path) :
      Step s (.intern p)
        { s with workspace := { s.workspace with files := (s.workspace.files.intern p).2 } }
  | invalidate {s : Shared σ} (f : FileId) :
      Step s (.invalidate f) { s with workspace := s.workspace.invalidate f }
  | invalidateAll {s : Shared σ} :
      Step s .invalidateAll { s with workspace := s.workspace.invalidateAll }

/-- One thing happens after the other.  The last one stands first in the list. -/
inductive Steps (s : Shared σ) : List (Act σ) → Shared σ → Prop
  | refl : Steps s [] s
  | step {past : List (Act σ)} {a : Act σ} {s' s'' : Shared σ} (h : Steps s past s')
      (ha : Step s' a s'') : Steps s (a :: past) s''

/-- What a workspace over a source can have come to. -/
def Run (source : σ) (config : Config) (past : List (Act σ)) (s : Shared σ) : Prop :=
  Steps ⟨.ofSource source config, []⟩ past s

/-- What happened can be cut at any moment. -/
theorem Steps.split {s s' : Shared σ} :
    ∀ {recent older : List (Act σ)}, Steps s (recent ++ older) s' →
      ∃ m, Steps s older m ∧ Steps m recent s' := by
  intro recent
  induction recent generalizing s' with
  | nil => intro older h; exact ⟨s', h, .refl⟩
  | cons a recent ih =>
      intro older h
      cases h with
      | step h ha =>
          obtain ⟨m, hm, hrecent⟩ := ih h
          exact ⟨m, hm, .step hrecent ha⟩

end Shared

/-! ### Counting announcements -/

namespace Act

variable {σ : Type}

/-- All files are announced to have changed. -/
def isForAll : Act σ → Bool
  | invalidateAll => true
  | _ => false

/-- This very file is announced to have changed. -/
def isFor (f : FileId) : Act σ → Bool
  | invalidate g => g = f
  | _ => false

theorem announces_iff {f : FileId} {a : Act σ} :
    a.Announces f ↔ a.isForAll = true ∨ a.isFor f = true := by
  cases a <;> simp [Announces, isForAll, isFor]

end Act

/-- The stamp of a file after all this has happened. -/
def stampAfter {σ : Type} (past : List (Act σ)) (f : FileId) : Stamp :=
  ⟨past.countP Act.isForAll, past.countP (Act.isFor f)⟩

/-- Neither count of the first stamp is above that of the second. -/
def Stamp.NotLater (a b : Stamp) : Prop :=
  a.epoch ≤ b.epoch ∧ a.generation ≤ b.generation

section

variable {σ : Type} {f : FileId}

theorem stampAfter_notLater {stamp : Stamp} {past : List (Act σ)}
    (h : stamp.NotLater (stampAfter past f)) (a : Act σ) :
    stamp.NotLater (stampAfter (a :: past) f) := by
  obtain ⟨hepoch, hgen⟩ := h
  refine ⟨Nat.le_trans hepoch ?_, Nat.le_trans hgen ?_⟩
  · exact (List.sublist_cons_self a past).countP_le
  · exact (List.sublist_cons_self a past).countP_le

/-- If the stamp has not moved, nothing was announced. -/
theorem not_announced_of_notLater {recent older : List (Act σ)}
    (h : (stampAfter (recent ++ older) f).NotLater (stampAfter older f)) :
    ∀ a ∈ recent, ¬ a.Announces f := by
  obtain ⟨hepoch, hgen⟩ := h
  simp only [stampAfter, List.countP_append] at hepoch hgen
  intro a ha hann
  rcases Act.announces_iff.1 hann with hall | hfor
  · have := List.countP_pos_iff.2 ⟨a, ha, hall⟩
    omega
  · have := List.countP_pos_iff.2 ⟨a, ha, hfor⟩
    omega

/-! ### What explains the state -/

/-- The call took its stamp before it read, if it has read yet. -/
def Call.Explained (past : List (Act σ)) (c : Call) : Prop :=
  match c.text with
  | none => c.stamp.NotLater (stampAfter past c.file)
  | some x => ∃ recent older, past = recent ++ .read c.file x :: older ∧
      c.stamp.NotLater (stampAfter older c.file)

/-- The tree was made from a text that was read after all announcements about its file. -/
def SymbolTree.Explained (past : List (Act σ)) (f : FileId) (t : SymbolTree) : Prop :=
  ∃ recent older x, past = recent ++ .read f x :: older ∧ t = parse f x ∧
    ∀ a ∈ recent, ¬ a.Announces f

theorem Call.Explained.cons {past : List (Act σ)} {c : Call} (h : c.Explained past)
    (a : Act σ) : c.Explained (a :: past) := by
  obtain ⟨file, stamp, text⟩ := c
  cases text with
  | none => exact stampAfter_notLater h a
  | some x =>
      obtain ⟨recent, older, hpast, hstamp⟩ := h
      exact ⟨a :: recent, older, by rw [hpast, List.cons_append], hstamp⟩

theorem SymbolTree.Explained.cons {past : List (Act σ)} {t : SymbolTree}
    (h : t.Explained past f) {a : Act σ} (ha : ¬ a.Announces f) : t.Explained (a :: past) f := by
  obtain ⟨recent, older, x, hpast, ht, hrecent⟩ := h
  refine ⟨a :: recent, older, x, by rw [hpast, List.cons_append], ht, ?_⟩
  intro b hb
  rcases List.mem_cons.1 hb with rfl | hb
  · exact ha
  · exact hrecent b hb

end

namespace Shared

variable {σ : Type}

/-- What happened explains the stamps, the calls on their way and the trees that are kept. -/
structure Explained (past : List (Act σ)) (s : Shared σ) : Prop where
  stamps : ∀ f, s.workspace.cache.stamp f = stampAfter past f
  calls : ∀ c ∈ s.calls, c.Explained past
  trees : ∀ f t, s.workspace.cache.get? f = some t → t.Explained past f

theorem explained_start (source : σ) (config : Config) :
    Explained [] (⟨.ofSource source config, []⟩ : Shared σ) where
  stamps _ := rfl
  calls c hc := by simp at hc
  trees f t ht := by simp [Workspace.ofSource] at ht

/-- Nothing is announced, and the cache stays as it is. -/
theorem Explained.of_same_cache {past : List (Act σ)} {s s' : Shared σ} (h : s.Explained past)
    {a : Act σ} (ha : ∀ f, ¬ a.Announces f) (hcache : s'.workspace.cache = s.workspace.cache)
    (hcalls : ∀ c ∈ s'.calls, c.Explained (a :: past)) : s'.Explained (a :: past) where
  stamps f := by
    have hnot := fun h => ha f (Act.announces_iff.2 h)
    rw [hcache, h.stamps f, stampAfter, stampAfter, List.countP_cons_of_neg (fun h => hnot (.inl h)),
      List.countP_cons_of_neg (fun h => hnot (.inr h))]
  calls := hcalls
  trees f t ht := (h.trees f t (hcache ▸ ht)).cons (ha f)

/-- Storing keeps a tree only if its file's stamp is the one that the call took. -/
theorem explained_store {past : List (Act σ)} {w : Workspace σ} {before later : List Call}
    {f : FileId} {stamp : Stamp} {x : String}
    (h : Explained past ⟨w, before ++ ⟨f, stamp, some x⟩ :: later⟩) :
    Explained (.store f :: past)
      (⟨{ w with cache := w.cache.store stamp (parse f x) }, before ++ later⟩ : Shared σ) where
  stamps g := by
    rw [TreeCache.stamp_store]
    exact h.stamps g
  calls c hc := by
    refine (h.calls c ?_).cons _
    simp only [List.mem_append, List.mem_cons] at hc ⊢
    exact hc.imp_right Or.inr
  trees g t ht := by
    rcases TreeCache.get?_store ht with hold | ⟨rfl, rfl, hstamp⟩
    · exact (h.trees g t hold).cons (fun ha => ha)
    · -- The call's stamp is still the file's, so nothing was announced since it read.
      have hcall := h.calls ⟨g, stamp, some x⟩ (by simp)
      obtain ⟨recent, older, hpast, hnot⟩ := hcall
      have hnow : stampAfter past g = stamp := (h.stamps g).symm.trans hstamp
      rw [← hnow, hpast, ← List.singleton_append, ← List.append_assoc] at hnot
      have hrecent := not_announced_of_notLater hnot
      have htree : (parse g x).Explained past g :=
        ⟨recent, older, x, hpast, rfl, fun a ha => hrecent a (List.mem_append_left _ ha)⟩
      exact htree.cons (fun ha => ha)

theorem explained_invalidate {past : List (Act σ)} {s : Shared σ} (h : s.Explained past)
    (g : FileId) :
    Explained (.invalidate g :: past) { s with workspace := s.workspace.invalidate g } where
  stamps f := by
    have hf := h.stamps f
    simp only [TreeCache.stamp, stampAfter, Stamp.mk.injEq] at hf
    simp only [Workspace.invalidate, TreeCache.stamp_invalidate, stampAfter, Stamp.mk.injEq,
      List.countP_cons, Act.isForAll, Act.isFor, hf]
    simp
  calls c hc := (h.calls c hc).cons _
  trees f t ht := by
    simp only [Workspace.invalidate, TreeCache.get?_invalidate] at ht
    split at ht
    · cases ht
    · rename_i hne
      exact (h.trees f t ht).cons (fun heq => hne heq.symm)

theorem explained_invalidateAll {past : List (Act σ)} {s : Shared σ} (h : s.Explained past) :
    Explained (.invalidateAll :: past) { s with workspace := s.workspace.invalidateAll } where
  stamps f := by
    have hf := h.stamps f
    simp only [TreeCache.stamp, stampAfter, Stamp.mk.injEq] at hf
    simp only [Workspace.invalidateAll, TreeCache.stamp_invalidateAll, stampAfter, Stamp.mk.injEq,
      List.countP_cons, Act.isForAll, Act.isFor, hf]
    simp
  calls c hc := (h.calls c hc).cons _
  trees f t ht := by
    simp [Workspace.invalidateAll] at ht

variable [Source σ]

/-- Whatever happens next, what happened still explains the state. -/
theorem Step.explained {past : List (Act σ)} {s s' : Shared σ} {a : Act σ} (hstep : Step s a s')
    (h : s.Explained past) : s'.Explained (a :: past) := by
  cases hstep with
  | hit _ => exact h.of_same_cache (fun _ ha => ha) rfl (fun c hc => (h.calls c hc).cons _)
  | @miss _ f _ =>
      refine h.of_same_cache (fun _ ha => ha) rfl ?_
      intro c hc
      rcases List.mem_cons.1 hc with rfl | hc
      · show Stamp.NotLater (s.workspace.cache.stamp f) _
        rw [h.stamps f]
        exact stampAfter_notLater ⟨Nat.le_refl _, Nat.le_refl _⟩ _
      · exact (h.calls c hc).cons _
  | @read w before later f stamp x _ =>
      refine h.of_same_cache (fun _ ha => ha) rfl ?_
      intro c hc
      rcases List.mem_append.1 hc with hc | hc
      · exact (h.calls c (List.mem_append_left _ hc)).cons _
      · rcases List.mem_cons.1 hc with rfl | hc
        · exact ⟨[], past, rfl, h.calls ⟨f, stamp, none⟩ (by simp)⟩
        · exact (h.calls c (by simp [hc])).cons _
  | giveUp _ =>
      refine h.of_same_cache (fun _ ha => ha) rfl ?_
      intro c hc
      refine (h.calls c ?_).cons _
      simp only [List.mem_append, List.mem_cons] at hc ⊢
      exact hc.imp_right Or.inr
  | store => exact explained_store h
  | write _ => exact h.of_same_cache (fun _ ha => ha) rfl (fun c hc => (h.calls c hc).cons _)
  | intern _ => exact h.of_same_cache (fun _ ha => ha) rfl (fun c hc => (h.calls c hc).cons _)
  | invalidate g => exact explained_invalidate h g
  | invalidateAll => exact explained_invalidateAll h

theorem Run.explained {source : σ} {config : Config} {past : List (Act σ)} {s : Shared σ}
    (h : Run source config past s) : s.Explained past := by
  induction h with
  | refl => exact explained_start source config
  | step _ ha ih => exact ha.explained ih

/-! ### What a file says now -/

theorem Steps.extends {s s' : Shared σ} {past : List (Act σ)} (h : Steps s past s') :
    s.workspace.files.Extends s'.workspace.files := by
  induction h with
  | refl => exact .refl _
  | step _ ha ih =>
      refine ih.trans ?_
      cases ha with
      | intern p => exact FileSet.extends_intern _ p
      | _ => exact .refl _

/-- The text of a path is the same as long as no change of the source touches it. -/
theorem Steps.read_eq {s s' : Shared σ} {past : List (Act σ)} (h : Steps s past s') {p : Path}
    (hwrites : ∀ old new, .write old new ∈ past →
      (Source.read old p).text = (Source.read new p).text) :
    (Source.read s.workspace.source p).text = (Source.read s'.workspace.source p).text := by
  induction h with
  | refl => rfl
  | step _ ha ih =>
      have hrest := ih fun old new hmem => hwrites old new (List.mem_cons_of_mem _ hmem)
      rw [hrest]
      cases ha with
      | write new => exact hwrites _ new (List.mem_cons_self ..)
      | _ => rfl

/-- The change of the source changes what the file says. -/
def Rewrites (s : Shared σ) (f : FileId) (old new : σ) : Prop :=
  ∃ p, s.workspace.path? f = some p ∧ (Source.read old p).text ≠ (Source.read new p).text

/-- If nothing was announced about a file, and every change of it was, then it says what it
said. -/
theorem Steps.text_eq {s s' : Shared σ} {recent : List (Act σ)} (h : Steps s recent s')
    {f : FileId} {x : String} (hx : s.workspace.answer (Workspace.text f) = .ok x)
    (hwrites : ∀ old new, .write old new ∈ recent → ¬ s'.Rewrites f old new) :
    s'.workspace.answer (Workspace.text f) = .ok x := by
  cases hp : s.workspace.path? f with
  | none =>
      rw [Workspace.answer_text_of_unknown hp] at hx
      cases hx
  | some p =>
      have hp' : s'.workspace.path? f = some p := h.extends f p hp
      rw [Workspace.answer_text_of_path hp] at hx
      rw [Workspace.answer_text_of_path hp', ← hx]
      refine (h.read_eq ?_).symm
      intro old new hmem
      exact Classical.byContradiction fun hne => hwrites old new hmem ⟨p, hp', hne⟩

/-- **A kept tree was read after the last announcement about its file.**  So if every change of
the file was announced after it was made, the kept tree is the tree of what the file says. -/
theorem kept_tree_is_fresh {source : σ} {config : Config} {past : List (Act σ)} {s : Shared σ}
    (h : Run source config past s) {f : FileId} {t : SymbolTree}
    (ht : s.workspace.cache.get? f = some t) :
    (∃ recent older x m, past = recent ++ .read f x :: older ∧ Run source config older m ∧
      m.workspace.answer (Workspace.text f) = .ok x ∧ t = parse f x ∧
      ∀ a ∈ recent, ¬ a.Announces f) ∧
    ((∀ recent older old new, past = recent ++ .write old new :: older → s.Rewrites f old new →
        ∃ a ∈ recent, a.Announces f) →
      ∃ x, s.workspace.answer (Workspace.text f) = .ok x ∧ t = parse f x) := by
  obtain ⟨recent, older, x, rfl, rfl, hrecent⟩ := h.explained.trees f t ht
  obtain ⟨m', hread, hlater⟩ := Steps.split h
  cases hread with
  | step holder hstep =>
      cases hstep with
      | read hx =>
          refine ⟨⟨recent, older, x, _, rfl, holder, hx, rfl, hrecent⟩, ?_⟩
          intro hannounced
          refine ⟨x, hlater.text_eq hx ?_, rfl⟩
          intro old new hmem hrew
          -- An announcement after the change would be one after the text was read.
          obtain ⟨r₁, r₂, rfl⟩ := List.append_of_mem hmem
          obtain ⟨a, ha, hann⟩ := hannounced r₁ (r₂ ++ .read f x :: older) old new (by simp) hrew
          exact hrecent a (List.mem_append_left _ ha) hann

/-- The workspace of the race below: one file `A`, and nothing seen yet but its path. -/
def raceWorkspace (text : String) (cache : TreeCache) : Workspace MemorySource :=
  ⟨⟨[⟨⟨"A"⟩, text⟩]⟩, .standard, ⟨[⟨"A"⟩]⟩, cache⟩

theorem answer_text_raceWorkspace (text : String) (cache : TreeCache) :
    (raceWorkspace text cache).answer (Workspace.text ⟨0⟩) = .ok text := by
  have hpath : (raceWorkspace text cache).path? ⟨0⟩ = some ⟨"A"⟩ := rfl
  rw [Workspace.answer_text_of_path hpath]
  simp [raceWorkspace, Source.read, MemorySource.read, MemorySource.get?, Path.same]

/-- A call reads the old text; the file changes and that is announced; a second call takes its
stamp; the first call comes to store its tree; the second reads the new text and stores. -/
theorem raced_tree_is_fresh :
    ∃ (past : List (Act MemorySource)) (s : Shared MemorySource),
      Run (raceWorkspace "$ENTRY A" .empty).source .standard past s ∧
      s.workspace.cache.get? ⟨0⟩ = some (parse ⟨0⟩ "$ENTRY B") ∧ .read ⟨0⟩ "$ENTRY A" ∈ past ∧
      ∃ x, s.workspace.answer (Workspace.text ⟨0⟩) = .ok x ∧
        parse ⟨0⟩ "$ENTRY B" = parse ⟨0⟩ x := by
  let old := raceWorkspace "$ENTRY A" .empty
  let new := raceWorkspace "$ENTRY B" ⟨[], [⟨0⟩], 0⟩
  have h₁ : Run old.source .standard _ ⟨old, []⟩ := .step .refl (.intern ⟨"A"⟩)
  have h₂ : Run old.source .standard _ ⟨old, [] ++ ⟨⟨0⟩, ⟨0, 0⟩, none⟩ :: []⟩ :=
    h₁.step (.miss rfl)
  have h₃ := h₂.step (.read (answer_text_raceWorkspace _ _))
  have h₄ := h₃.step (.write new.source)
  have h₅ : Run old.source .standard _ ⟨new, [⟨⟨0⟩, ⟨0, 0⟩, some "$ENTRY A"⟩]⟩ :=
    h₄.step (.invalidate ⟨0⟩)
  have h₆ : Run old.source .standard _
      ⟨new, [⟨⟨0⟩, ⟨0, 1⟩, none⟩] ++ ⟨⟨0⟩, ⟨0, 0⟩, some "$ENTRY A"⟩ :: []⟩ :=
    h₅.step (.miss rfl)
  -- The first call took its stamp before the announcement, so nothing is stored.
  have h₇ : Run old.source .standard _ ⟨new, [] ++ ⟨⟨0⟩, ⟨0, 1⟩, none⟩ :: []⟩ := h₆.step .store
  have h₈ := h₇.step (.read (answer_text_raceWorkspace _ _))
  have h₉ : Run old.source .standard _
      ⟨raceWorkspace "$ENTRY B" ⟨[parse ⟨0⟩ "$ENTRY B"], [⟨0⟩], 0⟩, []⟩ := h₈.step .store
  refine ⟨_, _, h₉, rfl, by simp, (kept_tree_is_fresh h₉ rfl).2 ?_⟩
  intro recent older o n hpast _
  -- The change comes sixth, counted from the end, and the announcement right after it.
  rcases recent with _ | ⟨a, _ | ⟨b, _ | ⟨c, _ | ⟨d, _ | ⟨e, recent⟩⟩⟩⟩⟩
  all_goals simp only [List.nil_append, List.cons_append, List.cons.injEq, reduceCtorEq,
    false_and, and_false] at hpast
  obtain ⟨-, -, -, -, rfl, -⟩ := hpast
  exact ⟨.invalidate ⟨0⟩, by simp, rfl⟩

/-! ### A call on its own

With nobody else around, asking for a tree is one way for the steps to follow each other: what
the source does while it is read happens right after the text was taken.
-/

theorem Steps.trans {s m s' : Shared σ} {older : List (Act σ)} (h : Steps s older m) :
    ∀ {recent : List (Act σ)}, Steps m recent s' → Steps s (recent ++ older) s' := by
  intro recent hrecent
  induction hrecent with
  | refl => exact h
  | step _ ha ih => exact .step ih ha

theorem hear_steps (w : Workspace σ) (calls : List Call) (n : Notice) :
    ∃ past, Steps ⟨w, calls⟩ past ⟨w.hear n, calls⟩ := by
  cases n with
  | everything => exact ⟨_, .step .refl .invalidateAll⟩
  | changed p =>
      rw [Workspace.hear, Workspace.invalidatePath]
      split
      · rename_i f _
        exact ⟨_, .step .refl (.invalidate f)⟩
      · exact ⟨_, .refl⟩

theorem hears_steps (calls : List Call) :
    ∀ (notices : List Notice) (w : Workspace σ),
      ∃ past, Steps ⟨w, calls⟩ past ⟨notices.foldl Workspace.hear w, calls⟩ := by
  intro notices
  induction notices with
  | nil => intro w; exact ⟨_, .refl⟩
  | cons n notices ih =>
      intro w
      obtain ⟨older, hfirst⟩ := hear_steps w calls n
      obtain ⟨recent, hrest⟩ := ih (w.hear n)
      exact ⟨_, hfirst.trans hrest⟩

/-- What reading a text does to the workspace is a change of the source and announcements. -/
theorem text_steps (w : Workspace σ) (calls : List Call) (f : FileId) :
    ∃ past, Steps ⟨w, calls⟩ past ⟨w.after (Workspace.text f), calls⟩ := by
  cases hp : w.path? f with
  | none =>
      rw [Workspace.after_text_of_unknown hp]
      exact ⟨_, .refl⟩
  | some p =>
      rw [Workspace.after_text_of_path hp]
      obtain ⟨past, h⟩ := hears_steps calls (Source.read w.source p).notices
        { w with source := (Source.read w.source p).source }
      exact ⟨_, Steps.trans (.step .refl (.write _)) h⟩

theorem tree_steps (w : Workspace σ) (calls : List Call) (f : FileId) :
    ∃ past, Steps ⟨w, calls⟩ past ⟨w.after (Workspace.tree f), calls⟩ := by
  cases hc : w.cache.get? f with
  | some t =>
      rw [(Workspace.tree_of_hit hc).2]
      exact ⟨_, .refl⟩
  | none =>
      have hlook : Steps ⟨w, calls⟩ [.look f] ⟨w, [] ++ ⟨f, w.cache.stamp f, none⟩ :: calls⟩ :=
        .step .refl (.miss hc)
      cases hx : w.answer (Workspace.text f) with
      | error e =>
          rw [(Workspace.tree_of_error hc hx).2]
          obtain ⟨past, htext⟩ := text_steps w calls f
          exact ⟨_, Steps.trans (.step hlook (.giveUp hx)) htext⟩
      | ok x =>
          rw [(Workspace.tree_of_ok hc hx).2]
          obtain ⟨past, htext⟩ := text_steps w ([] ++ ⟨f, w.cache.stamp f, some x⟩ :: calls) f
          have hread := Steps.step hlook (.read hx)
          exact ⟨_, .step (hread.trans htext) .store⟩

end Shared

end OverlayIndex
