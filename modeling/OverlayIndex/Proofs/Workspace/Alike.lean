/-
Two workspaces that give the same answers.

The two have sources that list the same paths, the texts of the paths that they know or come to
know read alike, and both are current.  They need not have seen the same files, nor in the same
order, nor keep the same trees, so a file may have different numbers in the two; what makes two
numbers stand for the same file is that they have the same path.  `Agree` says that two works, done
in the two workspaces, give answers that are the same in this sense and leave workspaces that are
again alike, with the same numbers if they had the same before.  It goes through all ways in which
works are put together, and so up to the queries.
-/
import Mathlib.Data.List.Forall2
import OverlayIndex.Proofs.Numbering
import OverlayIndex.Proofs.Workspace.Current

namespace OverlayIndex

/-! ### What a tree tells does not depend on the number of its file -/

namespace SymbolTree

variable (t : SymbolTree) (g : FileId)

/-- The tree as that of another file. -/
def relabel : SymbolTree :=
  ⟨g, t.forest⟩

theorem ancestors_relabel : (t.relabel g).ancestors = t.ancestors := by
  funext id
  induction id using Nat.strongRecOn with
  | ind id ih =>
      rw [ancestors_eq, ancestors_eq, show (t.relabel g).parent? id = t.parent? id from rfl]
      cases hp : t.parent? id with
      | none => rfl
      | some p => simp [ih p (parent?_lt hp)]

theorem enclosing?_relabel : (t.relabel g).enclosing? = t.enclosing? := by
  funext id kind
  rw [enclosing?, enclosing?, ancestors_relabel]
  rfl

theorem selections_relabel : (t.relabel g).selections = t.selections := by
  funext p
  simp only [selections, ancestors_relabel]
  rfl

theorem search_relabel (query : List Char) :
    (t.relabel g).search query = (t.search query).map fun s => { s with file := g } := by
  rw [search, search, List.map_map]
  rfl

end SymbolTree

/-! ### Alike workspaces -/

/-- The two texts read alike: they have the same symbols and tokens, and the names of variables
occur at the same places of an overlay. -/
structure ReadAlike (x y : String) : Prop where
  forest : parseChars x.toList = parseChars y.toList
  token : ∀ p, textTokenAt? x.toList p = textTokenAt? y.toList p
  uses : ∀ e ∈ (parseChars x.toList).toList, e.kind = .entry →
    ∀ s ∈ (parseChars x.toList).toList, s.kind = .var →
      occurrences x.toList e.extent s.name.toList = occurrences y.toList e.extent s.name.toList

theorem ReadAlike.refl (x : String) : ReadAlike x x :=
  ⟨rfl, fun _ => rfl, fun _ _ _ _ _ _ => rfl⟩

theorem ReadAlike.option_refl (x : Option String) : Option.Rel ReadAlike x x := by
  cases x with
  | none => exact .none
  | some x => exact .some (.refl x)

/-- The source lists the path. -/
def Source.Lists {σ : Type} [Source σ] (s : σ) (p : Path) : Prop :=
  ∃ pattern paths, Source.find s pattern = .ok paths ∧ ∃ q ∈ paths, Source.normalize s q = p

/-- The two sources list the same paths, and their texts read alike, whatever the spelling of their
paths. -/
structure Source.Alike {σ τ : Type} [Source σ] [Source τ] (s : σ) (t : τ) : Prop where
  find : ∀ pattern, Source.find s pattern = Source.find t pattern
  normalize : ∀ p, Source.normalize s p = Source.normalize t p
  texts : ∀ p q, p.same q = true →
    Option.Rel ReadAlike (Source.read s p).text.toOption (Source.read t q).text.toOption

namespace Workspace

variable {σ τ : Type} [Source σ] [Source τ]

/-- The path has a number, or gets one when it is found. -/
def Meets (w : Workspace σ) (p : Path) : Prop :=
  (∃ f, w.files.lookup? p = some f) ∨ Source.Lists w.source p

/-- The text of a path in the spelling that is kept of it. -/
def textAt (w : Workspace σ) (p : Path) : Option String :=
  (Source.read w.source (w.files.spelling p)).text.toOption

/-- The sources list the same paths, the texts of paths that both workspaces meet read alike, and
nothing that is kept is out of date. -/
structure Alike (w : Workspace σ) (v : Workspace τ) : Prop where
  find : ∀ pattern, Source.find w.source pattern = Source.find v.source pattern
  normalize : ∀ p, Source.normalize w.source p = Source.normalize v.source p
  texts : ∀ p, w.Meets p → v.Meets p → Option.Rel ReadAlike (w.textAt p) (v.textAt p)
  config : w.config = v.config
  left : w.Current
  right : v.Current

namespace Alike

variable {w w' : Workspace σ} {v v' : Workspace τ}

/-- Where spellings make no difference, nothing need be known of the files. -/
theorem ofSources (h : Source.Alike w.source v.source) (hconfig : w.config = v.config)
    (hw : w.Current) (hv : v.Current) : Alike w v where
  find := h.find
  normalize := h.normalize
  texts p _ _ := by
    refine h.texts _ _ (Path.same_iff.2 ?_)
    have hleft := Path.same_iff.1 (w.files.same_spelling p)
    exact hleft.trans (Path.same_iff.1 (v.files.same_spelling p)).symm
  config := hconfig
  left := hw
  right := hv

/-- It does not matter which trees are kept. -/
theorem later (h : Alike w v) (hw : Later w w') (hv : Later v v') (hleft : w'.files = w.files)
    (hright : v'.files = v.files) (hw' : w'.Current) (hv' : v'.Current) : Alike w' v' where
  find := by
    rw [hw.source, hv.source]
    exact h.find
  normalize := by
    rw [hw.source, hv.source]
    exact h.normalize
  texts := by
    simp only [Meets, textAt, hw.source, hv.source, hleft, hright]
    exact h.texts
  config := by rw [hw.config, hv.config, h.config]
  left := hw'
  right := hv'

theorem lists (h : Alike w v) {p : Path} (hp : Source.Lists w.source p) :
    Source.Lists v.source p := by
  obtain ⟨pattern, paths, hfind, q, hq, hnormalize⟩ := hp
  exact ⟨pattern, paths, (h.find pattern).symm.trans hfind, q, hq,
    (h.normalize q).symm.trans hnormalize⟩

end Alike

/-- The two numbers have the same path. -/
def SameFile (w : Workspace σ) (v : Workspace τ) (f g : FileId) : Prop :=
  ∃ p q, w.path? f = some p ∧ v.path? g = some q ∧ p.same q = true

/-- The two trees are those of the same file. -/
def SameTree (w : Workspace σ) (v : Workspace τ) (t u : SymbolTree) : Prop :=
  ∃ f g, SameFile w v f g ∧ t = w.treeOf f ∧ u = v.treeOf g

/-- The two declarations are those of the same symbol of the same file. -/
def SameDeclaration (w : Workspace σ) (v : Workspace τ) (d e : Declaration) : Prop :=
  SameTree w v d.tree e.tree ∧ d.id = e.id

/-- The two outcomes are of the same sort, with the same declarations. -/
inductive SameResolution (w : Workspace σ) (v : Workspace τ) : Resolution → Resolution → Prop
  | found {d e : Declaration} (h : SameDeclaration w v d e) :
      SameResolution w v (.found d) (.found e)
  | ambiguous {ds es : List Declaration} (h : List.Forall₂ (SameDeclaration w v) ds es) :
      SameResolution w v (.ambiguous ds) (.ambiguous es)
  | notFound : SameResolution w v .notFound .notFound

/-- What is related stays so as the workspaces go on. -/
def Stable {α β : Type} (R : Workspace σ → Workspace τ → α → β → Prop) : Prop :=
  ∀ ⦃w w' v v' a b⦄, Later w w' → Later v v' → R w v a b → R w' v' a b

omit [Source σ] [Source τ] in
theorem stable_sameFile : Stable (SameFile : Workspace σ → Workspace τ → _) := by
  rintro w w' v v' f g hw hv ⟨p, q, hp, hq, hsame⟩
  exact ⟨p, q, hw.files f p hp, hv.files g q hq, hsame⟩

theorem stable_sameTree : Stable (SameTree : Workspace σ → Workspace τ → _) := by
  rintro w w' v v' t u hw hv ⟨f, g, ⟨p, q, hp, hq, hsame⟩, rfl, rfl⟩
  have hfile := stable_sameFile hw hv ⟨p, q, hp, hq, hsame⟩
  exact ⟨f, g, hfile, (hw.treeOf_eq hp).symm, (hv.treeOf_eq hq).symm⟩

theorem stable_sameDeclaration : Stable (SameDeclaration : Workspace σ → Workspace τ → _) := by
  rintro w w' v v' d e hw hv ⟨htree, hid⟩
  exact ⟨stable_sameTree hw hv htree, hid⟩

omit [Source σ] [Source τ] in
theorem Stable.option {α β : Type} {R : Workspace σ → Workspace τ → α → β → Prop} (h : Stable R) :
    Stable fun w v => Option.Rel (R w v) := by
  intro w w' v v' a b hw hv hab
  cases hab with
  | none => exact .none
  | some hR => exact .some (h hw hv hR)

section

variable {w : Workspace σ} {v : Workspace τ}

theorem SameFile.textOf (h : Alike w v) {f g : FileId} (hfile : SameFile w v f g) :
    Option.Rel ReadAlike (w.textOf f) (v.textOf g) := by
  obtain ⟨p, q, hp, hq, hsame⟩ := hfile
  have hself : p.same p = true := Path.same_iff.2 rfl
  have hsame' : q.same p = true := Path.same_iff.2 (Path.same_iff.1 hsame).symm
  have hread := h.texts p (Or.inl ⟨f, h.left.distinct.lookup?_eq_some hp hself⟩)
    (Or.inl ⟨g, h.right.distinct.lookup?_eq_some hq hsame'⟩)
  rw [textAt, textAt, h.left.distinct.spelling_eq hp hself,
    h.right.distinct.spelling_eq hq hsame'] at hread
  rw [Workspace.textOf, Workspace.textOf, hp, hq]
  exact hread

theorem SameFile.forest (h : Alike w v) {f g : FileId} (hfile : SameFile w v f g) :
    (w.treeOf f).forest = (v.treeOf g).forest := by
  have htext := hfile.textOf h
  rw [treeOf, treeOf]
  generalize w.textOf f = x at htext ⊢
  generalize v.textOf g = y at htext ⊢
  cases htext with
  | none => rfl
  | some hxy => exact hxy.forest

theorem SameTree.file {t u : SymbolTree} (h : SameTree w v t u) : SameFile w v t.file u.file := by
  obtain ⟨f, g, hfile, rfl, rfl⟩ := h
  rwa [file_treeOf, file_treeOf]

/-- The second tree is the first one under another number. -/
theorem SameTree.eq_relabel (h : Alike w v) {t u : SymbolTree} (ht : SameTree w v t u) :
    u = t.relabel u.file := by
  obtain ⟨f, g, hfile, rfl, rfl⟩ := ht
  rw [SymbolTree.relabel, hfile.forest h]

/-- What does not look at the number of the file is the same in both trees. -/
theorem SameTree.look_eq {α : Type} (h : Alike w v) {t u : SymbolTree} (ht : SameTree w v t u)
    (k : SymbolTree → α) (hk : ∀ t g, k (t.relabel g) = k t) : k u = k t := by
  rw [ht.eq_relabel h, hk]

end

/-! ### Works that agree -/

section

variable {α α' β β' : Type} {w : Workspace σ} {v : Workspace τ}

/-- The two works leave alike workspaces and give related answers.  Where the same paths had the same
numbers before, they have them after. -/
structure Agree (R : Workspace σ → Workspace τ → α → β → Prop) (w : Workspace σ) (v : Workspace τ)
    (x : WorkspaceM σ α) (y : WorkspaceM τ β) : Prop where
  alike : Alike (after x w) (after y v)
  later_left : Later w (after x w)
  later_right : Later v (after y v)
  numbering : w.files = v.files → (after x w).files = (after y v).files
  answers : R (after x w) (after y v) (answer x w) (answer y v)

namespace Agree

variable {R : Workspace σ → Workspace τ → α → β → Prop}
  {Q : Workspace σ → Workspace τ → α' → β' → Prop}

theorem pure (h : Alike w v) {a : α} {b : β} (hR : R w v a b) :
    Agree R w v (Pure.pure a) (Pure.pure b) :=
  ⟨h, .refl w, .refl v, id, hR⟩

theorem bind {x : WorkspaceM σ α} {y : WorkspaceM τ β} {k : α → WorkspaceM σ α'}
    {l : β → WorkspaceM τ β'} (h : Agree R w v x y)
    (hk : ∀ w' v' a b, Later w w' → Later v v' → Alike w' v' → R w' v' a b →
      Agree Q w' v' (k a) (l b)) :
    Agree Q w v (x >>= k) (y >>= l) := by
  have hkl := hk _ _ _ _ h.later_left h.later_right h.alike h.answers
  exact ⟨hkl.alike, h.later_left.trans hkl.later_left, h.later_right.trans hkl.later_right,
    hkl.numbering ∘ h.numbering, hkl.answers⟩

theorem get_bind {k : Workspace σ → WorkspaceM σ α'} {l : Workspace τ → WorkspaceM τ β'}
    (h : Agree Q w v (k w) (l v)) : Agree Q w v (get >>= k) (get >>= l) :=
  ⟨h.alike, h.later_left, h.later_right, h.numbering, h.answers⟩

/-- Answers that are related may be looked at in related ways. -/
theorem map {x : WorkspaceM σ α} {y : WorkspaceM τ β} {k : α → α'} {l : β → β'}
    (h : Agree R w v x y) (hk : ∀ w' v' a b, Alike w' v' → R w' v' a b → Q w' v' (k a) (l b)) :
    Agree Q w v (x >>= fun a => Pure.pure (k a)) (y >>= fun b => Pure.pure (l b)) :=
  h.bind fun w' v' a b _ _ halike hR => .pure halike (hk w' v' a b halike hR)

/-- Two rows of works agree if each work agrees with the one across, whenever it is done. -/
theorem mapM {P : Workspace σ → Workspace τ → α' → β' → Prop} {k : α' → WorkspaceM σ α}
    {l : β' → WorkspaceM τ β}
    (hP : Stable P) (hR : Stable R)
    (hk : ∀ w v a b, Alike w v → P w v a b → Agree R w v (k a) (l b)) :
    ∀ (as : List α') (bs : List β') (w : Workspace σ) (v : Workspace τ), Alike w v →
      List.Forall₂ (P w v) as bs →
      Agree (fun w v => List.Forall₂ (R w v)) w v (as.mapM k) (bs.mapM l) := by
  intro as
  induction as with
  | nil =>
      intro bs w v h hrow
      cases hrow
      rw [List.mapM_nil, List.mapM_nil]
      exact .pure h .nil
  | cons a as ih =>
      intro bs w v h hrow
      cases hrow with
      | cons hab hrest =>
          rw [List.mapM_cons, List.mapM_cons]
          refine (hk w v _ _ h hab).bind fun w₁ v₁ c d hw hv halike hcd => ?_
          -- The rest is still related after the first work, and its answer after the others.
          have hrest' := hrest.imp fun _ _ => hP hw hv
          refine (ih _ w₁ v₁ halike hrest').bind fun w₂ v₂ cs ds hw' hv' halike' hcds => ?_
          exact .pure halike' (.cons (hR hw' hv' hcd) hcds)

/-- Two works that are done for each member of one list, while something else stays true. -/
theorem mapM_same {C : Workspace σ → Workspace τ → Prop} {k : α' → WorkspaceM σ α}
    {l : α' → WorkspaceM τ β} (hR : Stable R)
    (hC : ∀ ⦃w w' v v'⦄, Later w w' → Later v v' → C w v → C w' v')
    (hk : ∀ w v a, Alike w v → C w v → Agree R w v (k a) (l a)) (as : List α') (h : Alike w v)
    (hc : C w v) :
    Agree (fun w v => List.Forall₂ (R w v)) w v (as.mapM k) (as.mapM l) := by
  refine mapM (P := fun w v a b => a = b ∧ C w v) ?_ hR ?_ as as w v h
    (List.forall₂_same.2 fun _ _ => ⟨rfl, hc⟩)
  · rintro w w' v v' a b hw hv ⟨hab, hc⟩
    exact ⟨hab, hC hw hv hc⟩
  · rintro w v a _ h ⟨rfl, hc⟩
    exact hk w v a h hc

theorem orElse (h : Alike w v) {r s : Resolution} (hrs : SameResolution w v r s)
    {x : WorkspaceM σ Resolution} {y : WorkspaceM τ Resolution}
    (hnext : Agree SameResolution w v x y) :
    Agree SameResolution w v (r.orElse x) (s.orElse y) := by
  cases hrs with
  | notFound => exact hnext
  | found hd => exact .pure h (.found hd)
  | ambiguous hds => exact .pure h (.ambiguous hds)

end Agree

end

/-! ### Related values -/

theorem rel_findSome? {α β γ δ : Type} {R : α → β → Prop} {S : γ → δ → Prop} {k : α → Option γ}
    {l : β → Option δ} (hk : ∀ a b, R a b → Option.Rel S (k a) (l b)) {as : List α} {bs : List β}
    (h : List.Forall₂ R as bs) : Option.Rel S (as.findSome? k) (bs.findSome? l) := by
  induction h with
  | nil => exact .none
  | @cons a b as bs hab _ ih =>
      have hfirst := hk a b hab
      rw [List.findSome?_cons, List.findSome?_cons]
      generalize k a = c at hfirst ⊢
      generalize l b = d at hfirst ⊢
      cases hfirst with
      | none => exact ih
      | some hcd => exact .some hcd

theorem forall₂_filterMap_id {α β : Type} {R : α → β → Prop} {as : List (Option α)}
    {bs : List (Option β)} (h : List.Forall₂ (Option.Rel R) as bs) :
    List.Forall₂ R (as.filterMap id) (bs.filterMap id) := by
  induction h with
  | nil => exact .nil
  | cons hab _ ih =>
      cases hab with
      | none => exact ih
      | some hcd => exact .cons hcd ih

section

variable {w : Workspace σ} {v : Workspace τ}

theorem sameDeclaration_of? (h : Alike w v) {t u : SymbolTree} (ht : SameTree w v t u)
    (id : SymbolId) :
    Option.Rel (SameDeclaration w v) (Declaration.of? t id) (Declaration.of? u id) := by
  have hget : u.get? id = t.get? id := ht.look_eq h (·.get? id) fun _ _ => rfl
  unfold Declaration.of?
  split
  · rename_i hnone
    split
    · exact .none
    · rename_i hsome
      rw [hget, hnone] at hsome
      cases hsome
  · rename_i s hsome
    split
    · rename_i hnone
      rw [hget, hsome] at hnone
      cases hnone
    · exact .some ⟨ht, rfl⟩

theorem sameDeclaration_bind_of? (h : Alike w v) {t u : SymbolTree} (ht : SameTree w v t u)
    (id : Option SymbolId) :
    Option.Rel (SameDeclaration w v) (id.bind (Declaration.of? t)) (id.bind (Declaration.of? u)) := by
  cases id with
  | none => exact .none
  | some id => exact sameDeclaration_of? h ht id

theorem SameDeclaration.symbol_eq (h : Alike w v) {d e : Declaration}
    (hde : SameDeclaration w v d e) : e.symbol = d.symbol := by
  have hlook : e.tree.get? e.id = d.tree.get? e.id :=
    hde.1.look_eq h (·.get? e.id) fun _ _ => rfl
  rw [e.isAt, ← hde.2, d.isAt] at hlook
  exact Option.some.inj hlook

theorem sameResolution_ofOption {d e : Option Declaration}
    (h : Option.Rel (SameDeclaration w v) d e) :
    SameResolution w v (.ofOption d) (.ofOption e) := by
  cases h with
  | none => exact .notFound
  | some hde => exact .found hde

theorem sameResolution_ofList {ds es : List Declaration}
    (h : List.Forall₂ (SameDeclaration w v) ds es) :
    SameResolution w v (.ofList ds) (.ofList es) := by
  cases h with
  | nil => exact .notFound
  | cons hde hrest =>
      cases hrest with
      | nil => exact .found hde
      | cons hde' hrest => exact .ambiguous (.cons hde (.cons hde' hrest))

theorem SameResolution.declaration? {r s : Resolution} (h : SameResolution w v r s) :
    Option.Rel (SameDeclaration w v) r.declaration? s.declaration? := by
  cases h with
  | found hde => exact .some hde
  | ambiguous _ => exact .none
  | notFound => exact .none

/-! ### Numbers, texts and trees -/

theorem agree_find (h : Alike w v) (pattern : FilePattern) :
    Agree (fun w _ found found' => found = found' ∧ ∀ paths, found = .ok paths →
        ∀ p ∈ paths, Source.Lists w.source (Source.normalize w.source p)) w v
      (find pattern) (find pattern) := by
  have hw := h.left.after_find pattern
  have hv := h.right.after_find pattern
  refine ⟨?_, ?_, ?_, ?_, ?_⟩
  · rw [hw, hv]
    exact h
  · rw [hw]
    exact .refl w
  · rw [hv]
    exact .refl v
  · rw [hw, hv]
    exact id
  · rw [hw]
    exact ⟨h.find pattern, fun paths hpaths p hp => ⟨pattern, paths, hpaths, p, hp, rfl⟩⟩

omit [Source τ] in
/-- A path that was numbered is met in the spelling it had before, and others are as they were. -/
theorem textAt_after_fileId (h : w.Current) (p r : Path) :
    (after (fileId p) w).textAt r =
      w.textAt (if (Source.normalize w.source p).same r = true then Source.normalize w.source p
        else r) := by
  have hfiles : (after (fileId p) w).files = (w.files.intern (Source.normalize w.source p)).2 := rfl
  rw [textAt, textAt, hfiles, h.distinct.spelling_intern]
  by_cases hsame : (Source.normalize w.source p).same r = true
  · rw [if_pos hsame, if_pos hsame]
    rfl
  · rw [if_neg hsame, if_neg hsame]
    rfl

omit [Source τ] in
/-- What is met after a path was numbered is that path or was met before. -/
theorem meets_of_after_fileId {p r : Path} (hr : (after (fileId p) w).Meets r)
    (hother : (Source.normalize w.source p).same r ≠ true) : w.Meets r := by
  rcases hr with ⟨f, hf⟩ | hlists
  · exact Or.inl ⟨f, (FileSet.lookup?_intern_of_other w.files hother).symm.trans hf⟩
  · exact Or.inr hlists

/-- A path may be numbered whose text reads alike in both workspaces. -/
theorem agree_fileId_of_text (h : Alike w v) {p : Path}
    (hp : Option.Rel ReadAlike (w.textAt (Source.normalize w.source p))
      (v.textAt (Source.normalize w.source p))) :
    Agree SameFile w v (fileId p) (fileId p) := by
  obtain ⟨hw, hlater⟩ := h.left.after_fileId p
  obtain ⟨hv, hlater'⟩ := h.right.after_fileId p
  have hnorm := h.normalize p
  obtain ⟨q, hq, hsame⟩ := w.files.path?_intern (Source.normalize w.source p)
  obtain ⟨q', hq', hsame'⟩ := v.files.path?_intern (Source.normalize v.source p)
  refine ⟨⟨h.find, h.normalize, fun r hr hr' => ?_, h.config, hw, hv⟩, hlater, hlater', ?_,
    q, q', hq, hq', ?_⟩
  · rw [textAt_after_fileId h.left, textAt_after_fileId h.right, ← hnorm]
    by_cases hother : (Source.normalize w.source p).same r = true
    · rw [if_pos hother]
      exact hp
    · rw [if_neg hother]
      refine h.texts r (meets_of_after_fileId hr hother) (meets_of_after_fileId hr' ?_)
      rwa [← hnorm]
  · intro hfiles
    show (w.files.intern (Source.normalize w.source p)).2 =
      (v.files.intern (Source.normalize v.source p)).2
    rw [hfiles, hnorm]
  · rw [Path.same_iff] at hsame hsame' ⊢
    rw [hsame, hsame', hnorm]

/-- The texts of paths that the source lists do. -/
theorem agree_fileId (h : Alike w v) {p : Path}
    (hp : Source.Lists w.source (Source.normalize w.source p)) :
    Agree SameFile w v (fileId p) (fileId p) :=
  agree_fileId_of_text h (h.texts _ (Or.inr hp) (Or.inr (h.lists hp)))

theorem agree_text (h : Alike w v) {f g : FileId} :
    Agree (fun w v x y => x.toOption = w.textOf f ∧ y.toOption = v.textOf g) w v
      (text f) (text g) := by
  have hw := h.left.after_text f
  have hv := h.right.after_text g
  refine ⟨?_, ?_, ?_, ?_, ?_⟩
  · rw [hw, hv]
    exact h
  · rw [hw]
    exact .refl w
  · rw [hv]
    exact .refl v
  · rw [hw, hv]
    exact id
  · rw [hw, hv]
    exact ⟨w.toOption_answer_text f, v.toOption_answer_text g⟩

theorem agree_tree (h : Alike w v) {f g : FileId} (hfile : SameFile w v f g) :
    Agree SameTree w v (tree f) (tree g) := by
  obtain ⟨hw, hlater⟩ := h.left.after_tree f
  obtain ⟨hv, hlater'⟩ := h.right.after_tree g
  have hfiles := h.left.files_after_tree f
  have hfiles' := h.right.files_after_tree g
  refine ⟨h.later hlater hlater' hfiles hfiles' hw hv, hlater, hlater', ?_, ?_⟩
  · rw [hfiles, hfiles']
    exact id
  · rw [(h.left.tree_cases f).1, (h.right.tree_cases g).1]
    exact stable_sameTree hlater hlater' ⟨f, g, hfile, rfl, rfl⟩

end

end Workspace

end OverlayIndex
