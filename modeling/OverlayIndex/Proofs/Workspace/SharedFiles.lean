/-
Paths numbered at the same time.

Asking for the number of a path takes one step or two: the files are looked through and, if the
path is not among them, it is inserted, unless it has got there in the meantime.  Between the two
steps any number of other callers may take steps of theirs.  `SharedFiles` is a set of files with
the calls that have looked in vain, and `Steps` says what may happen to it, in any order.

What is shown is that all answers are read off one list, which only ever grows at its end: the
paths that were new when they were inserted, each with its number.  The numbers count from zero.
No caller's first look matters for this, because the insertion looks again.
-/
import OverlayIndex.Proofs.Workspace.FileSet

namespace OverlayIndex

namespace FileId

/-- How many numbers there are in 32 bits. -/
def count : Nat := 4294967296

/-- A number as it is handed out.  It has 32 bits, and one that does not fit becomes the largest
that does. -/
def narrow (f : FileId) : FileId :=
  ⟨min f.slot (count - 1)⟩

theorem narrow_eq {f : FileId} (h : f.slot < count) : f.narrow = f := by
  unfold narrow
  rw [Nat.min_eq_left (by omega)]

end FileId

namespace FileSet

variable {s : FileSet} {p q : Path} {f : FileId}

theorem paths_intern (s : FileSet) (p : Path) : s.paths <+: (s.intern p).2.paths := by
  unfold intern
  split
  · exact ⟨[], List.append_nil _⟩
  · exact ⟨[p], rfl⟩

theorem slot_lt_of_path? (h : s.path? f = some p) : f.slot < s.size :=
  (List.getElem?_eq_some_iff.1 h).1

/-- What is found is what has the number. -/
theorem Distinct.lookup?_eq_some_iff (h : s.Distinct) :
    s.lookup? p = some f ↔ ∃ q, s.path? f = some q ∧ q.same p = true := by
  constructor
  · intro hf
    exact path?_of_lookup? hf
  · rintro ⟨q, hq, hsame⟩
    exact h.lookup?_eq_some hq hsame

theorem slot_lt_of_lookup? (h : s.lookup? p = some f) : f.slot < s.size := by
  obtain ⟨q, hq, -⟩ := path?_of_lookup? h
  exact slot_lt_of_path? hq

/-- The paths with their numbers as they are handed out. -/
def numbered (s : FileSet) : List (Path × FileId) :=
  s.paths.zipIdx.map fun x => (x.1, FileId.narrow ⟨x.2⟩)

theorem map_fst_numbered (s : FileSet) : s.numbered.map Prod.fst = s.paths := by
  simp [numbered, Function.comp_def]

theorem map_snd_numbered (h : s.size ≤ FileId.count) :
    s.numbered.map Prod.snd = (List.range s.size).map FileId.mk := by
  apply List.ext_getElem
  · simp [numbered, size]
  · intro i hi _
    have hlt : i < s.size := by simpa [numbered, size] using hi
    simp only [numbered, List.getElem_map, List.getElem_zipIdx, List.getElem_range, Nat.zero_add]
    exact FileId.narrow_eq (Nat.lt_of_lt_of_le hlt h)

theorem mem_numbered_iff (h : s.size ≤ FileId.count) :
    (p, f) ∈ s.numbered ↔ s.path? f = some p := by
  constructor
  · intro hmem
    obtain ⟨⟨q, i⟩, hq, heq⟩ := List.mem_map.1 hmem
    cases heq
    have hget := List.mk_mem_zipIdx_iff_getElem?.1 hq
    have hlt : i < s.size := (List.getElem?_eq_some_iff.1 hget).1
    rw [FileId.narrow_eq (Nat.lt_of_lt_of_le hlt h)]
    exact hget
  · intro hp
    have hlt := slot_lt_of_path? hp
    refine List.mem_map.2 ⟨(p, f.slot), List.mk_mem_zipIdx_iff_getElem?.2 hp, ?_⟩
    rw [FileId.narrow_eq (Nat.lt_of_lt_of_le hlt h)]

theorem any_numbered (s : FileSet) (p : Path) :
    (s.numbered.any fun x => x.1.same p) = (s.lookup? p).isSome := by
  unfold lookup?
  rw [Option.isSome_map, List.findIdx?_isSome, ← map_fst_numbered, List.any_map]
  rfl

end FileSet

/-! ### What may happen -/

/-- A set of files that is used by several callers, and the paths that were looked for in vain by
those who are about to insert them. -/
structure SharedFiles where
  files : FileSet
  waiting : List Path

/-- What may happen to a set of files, and what is answered. -/
inductive Visit where
  /-- A call for the number of a path finds it. -/
  | hit (path : Path) (number : FileId)
  /-- A call for the number of a path finds none. -/
  | miss (path : Path)
  /-- A call that found none inserts its path, or finds the number now. -/
  | insert (path : Path) (number : FileId)
  | lookup (path : Path) (answer : Option FileId)
  | path (file : FileId) (answer : Option Path)

namespace SharedFiles

/-- One thing happens.  A call is anywhere among those that wait. -/
inductive Step : SharedFiles → Visit → SharedFiles → Prop
  | hit {s : SharedFiles} {p : Path} {f : FileId} (h : s.files.lookup? p = some f) :
      Step s (.hit p f.narrow) s
  | miss {s : SharedFiles} {p : Path} (h : s.files.lookup? p = none) :
      Step s (.miss p) { s with waiting := p :: s.waiting }
  | insert {files : FileSet} {before later : List Path} {p : Path} :
      Step ⟨files, before ++ p :: later⟩ (.insert p (files.intern p).1.narrow)
        ⟨(files.intern p).2, before ++ later⟩
  | lookup {s : SharedFiles} (p : Path) :
      Step s (.lookup p ((s.files.lookup? p).map FileId.narrow)) s
  | path {s : SharedFiles} (f : FileId) : Step s (.path f (s.files.path? f)) s

/-- One thing happens after the other.  The last one stands first in the list. -/
inductive Steps (s : SharedFiles) : List Visit → SharedFiles → Prop
  | refl : Steps s [] s
  | step {past : List Visit} {v : Visit} {s' s'' : SharedFiles} (h : Steps s past s')
      (hv : Step s' v s'') : Steps s (v :: past) s''

/-- What a set of files can have come to. -/
def Run (past : List Visit) (s : SharedFiles) : Prop :=
  Steps ⟨.empty, []⟩ past s

theorem Steps.split {s s' : SharedFiles} :
    ∀ {recent older : List Visit}, Steps s (recent ++ older) s' →
      ∃ m, Steps s older m ∧ Steps m recent s' := by
  intro recent
  induction recent generalizing s' with
  | nil => intro older h; exact ⟨s', h, .refl⟩
  | cons v recent ih =>
      intro older h
      cases h with
      | step h hv =>
          obtain ⟨m, hm, hrecent⟩ := ih h
          exact ⟨m, hm, .step hrecent hv⟩

/-- Whatever happens, the paths that are there stay where they are. -/
theorem Steps.paths {s s' : SharedFiles} {past : List Visit} (h : Steps s past s') :
    s.files.paths <+: s'.files.paths := by
  induction h with
  | refl => exact List.prefix_refl _
  | step _ hv ih =>
      refine ih.trans ?_
      cases hv with
      | insert => exact FileSet.paths_intern _ _
      | _ => exact List.prefix_refl _

theorem Steps.size_le {s s' : SharedFiles} {past : List Visit} (h : Steps s past s') :
    s.files.size ≤ s'.files.size :=
  h.paths.length_le

end SharedFiles

/-! ### What explains the state -/

namespace Visit

/-- A call for the number of the path ends here with this number. -/
def Gives (p : Path) (f : FileId) : Visit → Prop
  | hit q g => q = p ∧ g = f
  | insert q g => q = p ∧ g = f
  | _ => False

/-- The paths that were new when they were inserted, the first one first, and the numbers that they
got. -/
def introduced : List Visit → List (Path × FileId)
  | [] => []
  | insert p f :: past =>
    if (introduced past).any fun x => x.1.same p then introduced past
    else introduced past ++ [(p, f)]
  | _ :: past => introduced past

theorem introduced_suffix (older : List Visit) :
    ∀ recent, introduced older <+: introduced (recent ++ older) := by
  intro recent
  induction recent with
  | nil => exact List.prefix_refl _
  | cons v recent ih =>
      refine ih.trans ?_
      cases v with
      | insert p f =>
          rw [List.cons_append, introduced]
          split
          · exact List.prefix_refl _
          · exact List.prefix_append _ _
      | _ => exact List.prefix_refl _

end Visit

open Visit (introduced)

namespace SharedFiles

variable {past : List Visit} {s s' : SharedFiles}

/-- What happened explains the files and their order, and the numbers that were given are those of
the files. -/
structure Explained (past : List Visit) (s : SharedFiles) : Prop where
  distinct : s.files.Distinct
  files : introduced past = s.files.numbered
  given : ∀ v ∈ past, ∀ p f, v.Gives p f → ∃ g, s.files.lookup? p = some g ∧ f = g.narrow

theorem explained_start : Explained [] ⟨.empty, []⟩ where
  distinct := FileSet.distinct_empty
  files := rfl
  given v hv := by simp at hv

/-- Nothing is inserted, and what is given is what the files say. -/
theorem Explained.of_same_files (h : s.Explained past) (hfiles : s'.files = s.files) {v : Visit}
    (hintroduced : introduced (v :: past) = introduced past)
    (hgives : ∀ p f, v.Gives p f → ∃ g, s.files.lookup? p = some g ∧ f = g.narrow) :
    s'.Explained (v :: past) where
  distinct := hfiles ▸ h.distinct
  files := by rw [hintroduced, hfiles, h.files]
  given u hu p f hgiven := by
    rw [hfiles]
    rcases List.mem_cons.1 hu with rfl | hu
    · exact hgives p f hgiven
    · exact h.given u hu p f hgiven

/-- An insertion adds to the list exactly if it adds to the files. -/
theorem introduced_insert {files : FileSet} (h : introduced past = files.numbered) (p : Path) :
    introduced (.insert p (files.intern p).1.narrow :: past) = (files.intern p).2.numbered := by
  have hany := files.any_numbered p
  unfold introduced FileSet.intern
  rw [h, hany]
  cases hl : files.lookup? p with
  | some f => rfl
  | none => simp [FileSet.numbered, FileSet.size, List.zipIdx_append]

theorem explained_insert {files : FileSet} {before later : List Path} {p : Path}
    (h : Explained past ⟨files, before ++ p :: later⟩) :
    Explained (.insert p (files.intern p).1.narrow :: past)
      ⟨(files.intern p).2, before ++ later⟩ where
  distinct := h.distinct.intern p
  files := introduced_insert h.files p
  given v hv q f hgiven := by
    have hdistinct : (files.intern p).2.Distinct := h.distinct.intern p
    rcases List.mem_cons.1 hv with rfl | hv
    · obtain ⟨rfl, rfl⟩ := hgiven
      exact ⟨_, hdistinct.lookup?_eq_some_iff.2 (files.path?_intern p), rfl⟩
    · obtain ⟨g, hg, rfl⟩ := h.given v hv q f hgiven
      obtain ⟨r, hr, hsame⟩ := FileSet.path?_of_lookup? hg
      exact ⟨g, hdistinct.lookup?_eq_some (files.extends_intern p g r hr) hsame, rfl⟩

/-- Whatever happens next, what happened still explains the state. -/
theorem Step.explained {v : Visit} (hstep : Step s v s') (h : s.Explained past) :
    s'.Explained (v :: past) := by
  cases hstep with
  | @hit _ p f hf =>
      refine h.of_same_files rfl rfl ?_
      rintro _ _ ⟨rfl, rfl⟩
      exact ⟨f, hf, rfl⟩
  | insert => exact explained_insert h
  | _ =>
      apply h.of_same_files
      · rfl
      · rfl
      · intro _ _ hgives
        exact hgives.elim

theorem Run.explained (h : Run past s) : s.Explained past := by
  induction h with
  | refl => exact explained_start
  | step _ hv ih => exact hv.explained ih

/-! ### What is answered -/

variable {p q : Path} {f g : FileId}

/-- A number that was given is that of the path, as long as the numbers fit. -/
theorem Explained.lookup?_of_gives (h : s.Explained past) (hsize : s.files.size ≤ FileId.count)
    {v : Visit} (hv : v ∈ past) (hgives : v.Gives p f) : s.files.lookup? p = some f := by
  obtain ⟨g, hg, rfl⟩ := h.given v hv p f hgives
  rw [FileId.narrow_eq (Nat.lt_of_lt_of_le (FileSet.slot_lt_of_lookup? hg) hsize)]
  exact hg

/-- Two calls are given the same number exactly if they ask for the same path. -/
theorem Explained.gives_iff (h : s.Explained past) (hsize : s.files.size ≤ FileId.count)
    {v u : Visit} (hv : v ∈ past) (hu : u ∈ past) (hf : v.Gives p f) (hg : u.Gives q g) :
    f = g ↔ p.same q = true := by
  have hp := h.lookup?_of_gives hsize hv hf
  have hq := h.lookup?_of_gives hsize hu hg
  obtain ⟨r, hr, hsame⟩ := FileSet.path?_of_lookup? hp
  constructor
  · intro heq
    subst heq
    obtain ⟨r', hr', hsame'⟩ := FileSet.path?_of_lookup? hq
    rw [hr] at hr'
    cases hr'
    exact Path.same_iff.2 ((Path.same_iff.1 hsame).symm.trans (Path.same_iff.1 hsame'))
  · intro heq
    have hsame' : r.same q = true :=
      Path.same_iff.2 ((Path.same_iff.1 hsame).trans (Path.same_iff.1 heq))
    rw [h.distinct.lookup?_eq_some hr hsame'] at hq
    exact Option.some.inj hq

theorem Explained.mem_introduced_iff (h : s.Explained past) (hsize : s.files.size ≤ FileId.count) :
    (p, f) ∈ introduced past ↔ s.files.path? f = some p := by
  rw [h.files]
  exact FileSet.mem_numbered_iff hsize

/-- The answer to a look-up is the number that a path of these components was introduced with. -/
theorem Explained.lookup_iff (h : s.Explained past) (hsize : s.files.size ≤ FileId.count) :
    (s.files.lookup? p).map FileId.narrow = some f ↔
      ∃ q, (q, f) ∈ introduced past ∧ q.same p = true := by
  have hnarrow : (s.files.lookup? p).map FileId.narrow = s.files.lookup? p := by
    cases hl : s.files.lookup? p with
    | none => rfl
    | some g =>
        have hlt := FileSet.slot_lt_of_lookup? hl
        rw [Option.map_some, FileId.narrow_eq (Nat.lt_of_lt_of_le hlt hsize)]
  rw [hnarrow, h.distinct.lookup?_eq_some_iff]
  simp only [h.mem_introduced_iff hsize]

/-- A number that was given is one that a path of these components was introduced with. -/
theorem Explained.introduced_of_gives (h : s.Explained past) (hsize : s.files.size ≤ FileId.count)
    {v : Visit} (hv : v ∈ past) (hgives : v.Gives p f) :
    ∃ q, (q, f) ∈ introduced past ∧ q.same p = true := by
  obtain ⟨q, hq, hsame⟩ := FileSet.path?_of_lookup? (h.lookup?_of_gives hsize hv hgives)
  exact ⟨q, (h.mem_introduced_iff hsize).2 hq, hsame⟩

/-- **Whoever calls in whatever order, the numbers count the paths in the order in which they were
first inserted, and each answer is read off that list.**  The list as it was after any call is a
front part of what it is now. -/
theorem numbers_are_stable {past : List Visit} {s : SharedFiles} (h : Run past s)
    (hsize : s.files.size ≤ FileId.count) :
    (∀ v ∈ past, ∀ u ∈ past, ∀ p q f g, v.Gives p f → u.Gives q g →
      (f = g ↔ p.same q = true)) ∧
    ((introduced past).map Prod.fst = s.files.paths ∧
      (introduced past).map Prod.snd = (List.range s.files.size).map FileId.mk) ∧
    ∀ recent v older, past = recent ++ v :: older →
      introduced (v :: older) <+: introduced past ∧
      (∀ p f, v.Gives p f → ∃ q, (q, f) ∈ introduced (v :: older) ∧ q.same p = true) ∧
      (∀ f answer, v = .path f answer → ∀ p, answer = some p ↔ (p, f) ∈ introduced older) ∧
      (∀ p answer, v = .lookup p answer →
        ∀ f, answer = some f ↔ ∃ q, (q, f) ∈ introduced older ∧ q.same p = true) := by
  have hs := h.explained
  refine ⟨?_, ⟨?_, ?_⟩, ?_⟩
  · intro v hv u hu p q f g hf hg
    exact hs.gives_iff hsize hv hu hf hg
  · rw [hs.files, FileSet.map_fst_numbered]
  · rw [hs.files, FileSet.map_snd_numbered hsize]
  · intro recent v older hpast
    subst hpast
    obtain ⟨m', hrun, hlater⟩ := Steps.split h
    have hsize' : m'.files.size ≤ FileId.count := Nat.le_trans hlater.size_le hsize
    refine ⟨Visit.introduced_suffix (v :: older) recent, ?_, ?_, ?_⟩
    · intro p f hf
      exact (Run.explained hrun).introduced_of_gives hsize' (List.mem_cons_self ..) hf
    · intro f answer hv p
      subst hv
      cases hrun with
      | step holder hstep =>
          cases hstep
          exact ((Run.explained holder).mem_introduced_iff hsize').symm
    · intro p answer hv f
      subst hv
      cases hrun with
      | step holder hstep =>
          cases hstep
          exact (Run.explained holder).lookup_iff hsize'

/-- Two callers look for a path in two spellings and find neither; the second one inserts first.  A
third path comes between them, and then the number is asked back for its path. -/
theorem raced_numbers_are_stable :
    ∃ past s, Run past s ∧ s.files.size ≤ FileId.count ∧
      past = [.path ⟨0⟩ (some ⟨"a//b"⟩), .lookup ⟨"a/b/"⟩ (some ⟨0⟩), .insert ⟨"a/b"⟩ ⟨0⟩,
        .insert ⟨"c"⟩ ⟨1⟩, .insert ⟨"a//b"⟩ ⟨0⟩, .miss ⟨"c"⟩, .miss ⟨"a//b"⟩, .miss ⟨"a/b"⟩] ∧
      (introduced past).map Prod.snd = [⟨0⟩, ⟨1⟩] ∧ (⟨"a//b"⟩, ⟨0⟩) ∈ introduced past := by
  have h₃ : Run _ ⟨⟨[]⟩, [⟨"c"⟩] ++ ⟨"a//b"⟩ :: [⟨"a/b"⟩]⟩ :=
    .step (.step (.step .refl (.miss rfl)) (.miss rfl)) (.miss rfl)
  have h₄ : Run _ ⟨⟨[⟨"a//b"⟩]⟩, [] ++ ⟨"c"⟩ :: [⟨"a/b"⟩]⟩ := h₃.step .insert
  have h₅ : Run _ ⟨⟨[⟨"a//b"⟩, ⟨"c"⟩]⟩, [] ++ ⟨"a/b"⟩ :: []⟩ := h₄.step .insert
  have h₆ : Run _ ⟨⟨[⟨"a//b"⟩, ⟨"c"⟩]⟩, []⟩ := h₅.step .insert
  have h₈ := (h₆.step (.lookup ⟨"a/b/"⟩)).step (.path ⟨0⟩)
  obtain ⟨-, ⟨-, hnumbers⟩, hanswers⟩ := numbers_are_stable h₈ (by decide)
  refine ⟨_, _, h₈, by decide, rfl, hnumbers, ?_⟩
  exact ((hanswers [] _ _ rfl).2.2.1 ⟨0⟩ _ rfl ⟨"a//b"⟩).1 rfl

/-! ### A call on its own -/

/-- With nobody else around, asking for the number of a path does what interning it does. -/
theorem intern_steps (files : FileSet) (waiting : List Path) (p : Path) :
    ∃ v past, Steps ⟨files, waiting⟩ (v :: past) ⟨(files.intern p).2, waiting⟩ ∧
      v.Gives p (files.intern p).1.narrow := by
  cases hl : files.lookup? p with
  | some f =>
      have hintern : files.intern p = (f, files) := by rw [FileSet.intern, hl]
      rw [hintern]
      exact ⟨_, [], .step .refl (.hit hl), rfl, rfl⟩
  | none =>
      have hmiss : Steps ⟨files, waiting⟩ [.miss p] ⟨files, [] ++ p :: waiting⟩ :=
        .step .refl (.miss hl)
      exact ⟨_, _, hmiss.step .insert, rfl, rfl⟩

end SharedFiles

end OverlayIndex
