/-
Answers do not depend on what happened before.

A workspace over texts in memory goes through requests: texts are set and taken away, paths are
numbered, changes are announced, trees are forgotten and queries are asked.  Each request leaves
the workspace current, since a text that changes has its tree forgotten whatever the spelling of
its path.  A workspace with the same texts that has seen nothing is current too, so the two
answer alike.
-/
import OverlayIndex.Proofs.Source.Memory
import OverlayIndex.Proofs.Workspace.SameAnswers
import OverlayIndex.Workspace.Editing

namespace OverlayIndex

namespace MemorySource

theorem calm (m : MemorySource) : Source.Calm m :=
  ⟨fun _ => rfl, fun _ => ⟨rfl, rfl⟩⟩

theorem toOption_read (m : MemorySource) (p : Path) : (m.read p).toOption = m.get? p := by
  rw [read]
  cases m.get? p <;> rfl

theorem alike_self (m : MemorySource) : Source.Alike m m where
  find _ := rfl
  normalize _ := rfl
  texts p q hsame := by
    show Option.Rel ReadAlike (m.read p).toOption (m.read q).toOption
    rw [toOption_read, toOption_read, m.get?_congr hsame]
    exact ReadAlike.option_refl _

end MemorySource

/-- What is asked of a workspace over texts in memory. -/
inductive Request where
  | set (p : Path) (text : String)
  | remove (p : Path)
  | number (p : Path)
  | announce (p : Path)
  | forget (f : FileId)
  | forgetAll
  | query (q : Query) (f : FileId)

namespace Workspace

/-- What a request leaves. -/
def handle (w : Workspace MemorySource) : Request → Workspace MemorySource
  | .set p text => after (setText p text) w
  | .remove p => after (removeText p) w
  | .number p => after (fileId p) w
  | .announce p => w.invalidatePath p
  | .forget f => w.invalidate f
  | .forgetAll => w.invalidateAll
  | .query q f => after (ask q f) w

/-- What requests leave, one after the other. -/
def handleAll (w : Workspace MemorySource) (requests : List Request) : Workspace MemorySource :=
  requests.foldl handle w

variable {w : Workspace MemorySource}

theorem textOf_memory (w : Workspace MemorySource) (f : FileId) :
    w.textOf f = (w.path? f).bind w.source.get? := by
  rw [textOf]
  cases w.path? f with
  | none => rfl
  | some p => exact w.source.toOption_read p

theorem invalidatePath_of_seen {p : Path} {f : FileId} (h : w.files.lookup? p = some f) :
    w.invalidatePath p = w.invalidate f := by
  rw [invalidatePath, show Source.normalize w.source p = p from rfl, h]

theorem invalidatePath_of_unseen {p : Path} (h : w.files.lookup? p = none) :
    w.invalidatePath p = w := by
  rw [invalidatePath, show Source.normalize w.source p = p from rfl, h]

/-- Forgetting some trees leaves nothing out of date. -/
theorem Current.forget (h : w.Current) {c : TreeCache}
    (hc : ∀ f t, c.get? f = some t → w.cache.get? f = some t) : Current { w with cache := c } :=
  ⟨h.calm, h.distinct, fun f t ht => h.fresh f t (hc f t ht)⟩

theorem Current.invalidate (h : w.Current) (f : FileId) : (w.invalidate f).Current := by
  refine h.forget fun g t hg => ?_
  rw [TreeCache.get?_invalidate] at hg
  by_cases hgf : g = f
  · rw [if_pos hgf] at hg
    cases hg
  · rwa [if_neg hgf] at hg

/-- A change to the text of one path leaves nothing out of date, once the path's tree is
forgotten. -/
theorem Current.changed (h : w.Current) {p : Path} {m : MemorySource}
    (hm : ∀ q, p.same q ≠ true → m.get? q = w.source.get? q) :
    (invalidatePath { w with source := m } p).Current := by
  -- What is still kept is of a file with another path, whose text is what it was.
  have hkept : ∀ {c : TreeCache}, (∀ f t, c.get? f = some t → w.cache.get? f = some t ∧
      ∀ q, w.path? f = some q → p.same q ≠ true) →
      Current { w with source := m, cache := c } := by
    intro c hc
    refine ⟨m.calm, h.distinct, fun f t ht => ?_⟩
    obtain ⟨hold, hother⟩ := hc f t ht
    obtain ⟨x, hx, rfl⟩ := h.fresh f t hold
    rw [textOf_memory, Option.bind_eq_some_iff] at hx
    obtain ⟨q, hq, hqx⟩ := hx
    refine ⟨x, ?_, rfl⟩
    rw [textOf_memory, Option.bind_eq_some_iff]
    exact ⟨q, hq, (hm q (hother q hq)).trans hqx⟩
  have hlookup : ∀ {f q}, w.path? f = some q → p.same q = true → w.files.lookup? p = some f := by
    intro f q hq hsame
    exact h.distinct.lookup?_eq_some hq (Path.same_iff.2 (Path.same_iff.1 hsame).symm)
  cases hl : w.files.lookup? p with
  | none =>
      rw [invalidatePath_of_unseen (w := { w with source := m }) hl]
      refine hkept fun f t ht => ⟨ht, fun q hq hsame => ?_⟩
      rw [hlookup hq hsame] at hl
      cases hl
  | some g =>
      rw [invalidatePath_of_seen (w := { w with source := m }) hl]
      refine hkept fun f t ht => ?_
      rw [TreeCache.get?_invalidate] at ht
      by_cases hfg : f = g
      · rw [if_pos hfg] at ht
        cases ht
      · rw [if_neg hfg] at ht
        refine ⟨ht, fun q hq hsame => hfg ?_⟩
        rw [hlookup hq hsame] at hl
        exact Option.some.inj hl

theorem Current.handle (h : w.Current) (r : Request) : (w.handle r).Current := by
  cases r with
  | set p text =>
      refine (Current.after_fileId (h.changed fun q hq => ?_) p).1
      rw [MemorySource.get?_insert, if_neg hq]
  | remove p =>
      refine h.changed fun q hq => ?_
      rw [MemorySource.get?_erase, if_neg hq]
  | number p => exact (h.after_fileId p).1
  | announce p => exact h.changed fun _ _ => rfl
  | forget f => exact h.invalidate f
  | forgetAll => exact h.forget fun f t ht => by cases ht
  | query q f => exact (((Current.invariant w).ask q f) w ⟨h, .refl w⟩).1

theorem config_invalidatePath (w : Workspace MemorySource) (p : Path) :
    (w.invalidatePath p).config = w.config := by
  cases hl : w.files.lookup? p with
  | none => rw [invalidatePath_of_unseen hl]
  | some f => rw [invalidatePath_of_seen hl]; rfl

theorem config_handle (h : w.Current) (r : Request) : (w.handle r).config = w.config := by
  cases r with
  | set p text => exact config_invalidatePath { w with source := w.source.insert p text } p
  | remove p => exact config_invalidatePath { w with source := w.source.erase p } p
  | number p => rfl
  | announce p => exact config_invalidatePath w p
  | forget f => rfl
  | forgetAll => rfl
  | query q f => exact (((Current.invariant w).ask q f) w ⟨h, .refl w⟩).2.config

/-- After any requests a workspace is current. -/
theorem Current.handleAll (h : w.Current) (requests : List Request) :
    (w.handleAll requests).Current ∧ (w.handleAll requests).config = w.config := by
  induction requests generalizing w with
  | nil => exact ⟨h, rfl⟩
  | cons r requests ih =>
      obtain ⟨hcurrent, hconfig⟩ := ih (h.handle r)
      exact ⟨hcurrent, hconfig.trans (config_handle h r)⟩

end Workspace

open Workspace

/-- **Answers are independent of history.**  After any requests, a query about a file that has a
number is answered as by a workspace with the same texts that has seen nothing and is asked about
any spelling of the file's path. -/
theorem answers_independent_of_history (source : MemorySource) (config : Config)
    (requests : List Request) (q : Query) (f : FileId) (p p' : Path)
    (hf : ((Workspace.ofSource source config).handleAll requests).path? f = some p)
    (hp : p.same p' = true) :
    answerByPath (ask q f) ((Workspace.ofSource source config).handleAll requests) =
      answerByPath (fileId p' >>= ask q)
        (Workspace.ofSource ((Workspace.ofSource source config).handleAll requests).source
          config) := by
  obtain ⟨hcurrent, hconfig⟩ := (Current.ofSource source.calm config).handleAll requests
  generalize (Workspace.ofSource source config).handleAll requests = w at hf hcurrent hconfig ⊢
  obtain ⟨hfresh, -⟩ := (Current.ofSource w.source.calm config).after_fileId p'
  have halike : Alike w (after (fileId p') (Workspace.ofSource w.source config)) :=
    .ofSources w.source.alike_self hconfig hcurrent hfresh
  have hfile : SameFile w (after (fileId p') (Workspace.ofSource w.source config)) f
      (answer (fileId p') (Workspace.ofSource w.source config)) := by
    obtain ⟨r, hr, hsame⟩ := FileSet.empty.path?_intern p'
    refine ⟨p, r, hf, hr, Path.same_iff.2 ?_⟩
    exact (Path.same_iff.1 hp).trans (Path.same_iff.1 hsame).symm
  exact (agree_ask halike hfile q).answers.byPath

/-- Requests in which a text is replaced under another spelling of its path, after its tree was
kept, and a second file is numbered in between. -/
def respelledRequests : List Request :=
  [.set ⟨"lib/ORD.rtm"⟩ "$ENTRY ORD\n$DATA\nX N5", .query .outline ⟨0⟩, .number ⟨"STOCK.rtm"⟩,
    .set ⟨"lib//ORD.rtm"⟩ "$NAME SHARED\nX A3", .query .folds ⟨0⟩, .remove ⟨"STOCK.rtm"⟩]

theorem respelled_answers :
    ((Workspace.ofSource .empty .standard).handleAll respelledRequests).path? ⟨0⟩
      = some ⟨"lib/ORD.rtm"⟩ ∧
    Path.same ⟨"lib/ORD.rtm"⟩ ⟨"lib/./ORD.rtm/"⟩ = true ∧
    answerByPath (ask (.symbols "x") ⟨0⟩)
        ((Workspace.ofSource .empty .standard).handleAll respelledRequests) =
      answerByPath (fileId ⟨"lib/./ORD.rtm/"⟩ >>= ask (.symbols "x"))
        (Workspace.ofSource
          ((Workspace.ofSource .empty .standard).handleAll respelledRequests).source .standard) := by
  have hf : ((Workspace.ofSource .empty .standard).handleAll respelledRequests).path? ⟨0⟩
      = some ⟨"lib/ORD.rtm"⟩ := by rfl
  have hp : Path.same ⟨"lib/ORD.rtm"⟩ ⟨"lib/./ORD.rtm/"⟩ = true := by decide
  exact ⟨hf, hp, answers_independent_of_history .empty .standard respelledRequests (.symbols "x")
    ⟨0⟩ _ _ hf hp⟩

end OverlayIndex
