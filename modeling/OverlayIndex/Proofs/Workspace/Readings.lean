/-
What queries answer, by the source alone.

While a query runs, paths get numbers and trees are kept, so two questions asked one after the
other are asked of different workspaces.  In a workspace that is up to date this makes no
difference: the answer to each is a function of the source and of the numbers that paths have by
then, and numbers stay.  `Reads` says so of a piece of work and such a function, and it follows
the way the work is put together.
-/
import OverlayIndex.Proofs.Workspace.Current

namespace OverlayIndex

namespace Workspace

variable {σ α β : Type} [Source σ] {w v : Workspace σ} {f : FileId}

/-- The file has a number. -/
def Knows (w : Workspace σ) (f : FileId) : Prop :=
  ∃ p, w.path? f = some p

omit [Source σ] in
theorem Later.knows (h : Later w v) (hf : w.Knows f) : v.Knows f := by
  obtain ⟨p, hp⟩ := hf
  exact ⟨p, h.files f p hp⟩

theorem Later.textOf_of_knows (h : Later w v) (hf : w.Knows f) : v.textOf f = w.textOf f := by
  obtain ⟨p, hp⟩ := hf
  exact h.textOf_eq hp

theorem Later.treeOf_of_knows (h : Later w v) (hf : w.Knows f) : v.treeOf f = w.treeOf f := by
  obtain ⟨p, hp⟩ := hf
  exact h.treeOf_eq hp

theorem Later.lookup?_eq (h : Later w v) (hv : v.Current) {p : Path}
    (hp : w.files.lookup? p = some f) : v.files.lookup? p = some f := by
  obtain ⟨q, hq, hsame⟩ := FileSet.path?_of_lookup? hp
  exact hv.distinct.lookup?_eq_some (h.files f q hq) hsame

/-! ### The number of a path -/

theorem answer_fileId_of_seen {p : Path}
    (h : w.files.lookup? (Source.normalize w.source p) = some f) : answer (fileId p) w = f := by
  simp [fileId, FileSet.intern, h]

/-- A path that was numbered is found under its number. -/
theorem Current.lookup?_fileId (h : w.Current) (p : Path) :
    (after (fileId p) w).files.lookup? (Source.normalize w.source p) = some (answer (fileId p) w) := by
  obtain ⟨q, hq, hsame⟩ := FileSet.path?_intern w.files (Source.normalize w.source p)
  exact (h.after_fileId p).1.distinct.lookup?_eq_some hq hsame

/-- A path that was numbered has the same number ever after. -/
theorem Current.fileId_later (h : w.Current) (p : Path) (hv : v.Current)
    (hlater : Later (after (fileId p) w) v) : answer (fileId p) v = answer (fileId p) w := by
  apply answer_fileId_of_seen
  rw [hlater.source]
  exact hlater.lookup?_eq hv (h.lookup?_fileId p)

/-- A path gets the number of an earlier one exactly if the source makes them the same. -/
theorem Current.fileId_eq_iff (h : w.Current) {p : Path} (hv : v.Current)
    (hlater : Later (after (fileId p) w) v) (q : Path) :
    answer (fileId q) v = answer (fileId p) w ↔
      (Source.normalize w.source p).same (Source.normalize w.source q) = true := by
  have hsource : v.source = w.source := hlater.source
  have hp := hlater.lookup?_eq hv (h.lookup?_fileId p)
  obtain ⟨r, hr, hsame⟩ := FileSet.path?_of_lookup? hp
  constructor
  · intro heq
    have hq := hv.lookup?_fileId q
    rw [heq, hsource] at hq
    obtain ⟨r', hr', hsame'⟩ := FileSet.path?_of_lookup? hq
    rw [(hv.after_fileId q).2.files _ _ hr] at hr'
    cases hr'
    exact Path.same_iff.2 ((Path.same_iff.1 hsame).symm.trans (Path.same_iff.1 hsame'))
  · intro heq
    apply answer_fileId_of_seen
    rw [hsource]
    exact hv.distinct.lookup?_eq_some hr
      (Path.same_iff.2 ((Path.same_iff.1 hsame).trans (Path.same_iff.1 heq)))

theorem Current.knows_fileId (h : w.Current) (p : Path) :
    (after (fileId p) w).Knows (answer (fileId p) w) := by
  obtain ⟨q, hq, -⟩ := FileSet.path?_of_lookup? (h.lookup?_fileId p)
  exact ⟨q, hq⟩

/-- The tree of a path by the source as it stands, under the number that the path has or would get
next. -/
def treeAt (w : Workspace σ) (p : Path) : SymbolTree :=
  (after (fileId p) w).treeOf (answer (fileId p) w)

theorem Current.treeAt_eq (h : w.Current) {p : Path} (hf : w.Knows (answer (fileId p) w)) :
    w.treeAt p = w.treeOf (answer (fileId p) w) :=
  (h.after_fileId p).2.treeOf_of_knows hf

/-! ### Work that reads -/

/-- From every current workspace with the property, the work leads to a later one that is current,
and its answer is what `g` says of that one and of all that come after it. -/
def Reads (P : Workspace σ → Prop) (x : WorkspaceM σ α) (g : Workspace σ → α) : Prop :=
  ∀ w : Workspace σ, w.Current → P w → (after x w).Current ∧ Later w (after x w) ∧
    ∀ v : Workspace σ, v.Current → Later (after x w) v → answer x w = g v

/-- The property stays as workspaces go on. -/
def Lasting (P : Workspace σ → Prop) : Prop :=
  ∀ w v : Workspace σ, Later w v → P w → P v

omit [Source σ] in
theorem lasting_knows (f : FileId) : Lasting fun w : Workspace σ => w.Knows f :=
  fun _ _ hlater hf => hlater.knows hf

namespace Reads

variable {P : Workspace σ → Prop} {x : WorkspaceM σ α} {g : Workspace σ → α}

theorem pure (a : α) : Reads P (Pure.pure a : WorkspaceM σ α) fun _ => a :=
  fun w h _ => ⟨h, .refl w, fun _ _ _ => rfl⟩

/-- Work goes on with an answer of which something is known. -/
theorem bind_of (hP : Lasting P) (hx : Reads P x g) {Q : α → Prop} (hQ : ∀ v, Q (g v))
    {k : α → WorkspaceM σ β} {j : α → Workspace σ → β} (hk : ∀ a, Q a → Reads P (k a) (j a)) :
    Reads P (x >>= k) fun v => j (g v) v := by
  intro w h hw
  obtain ⟨hcurrent, hlater, hanswer⟩ := hx w h hw
  have hknown : Q (answer x w) := by
    rw [hanswer _ hcurrent (.refl _)]
    exact hQ _
  obtain ⟨hcurrent', hlater', hanswer'⟩ := hk (answer x w) hknown _ hcurrent (hP _ _ hlater hw)
  refine ⟨hcurrent', hlater.trans hlater', fun v hv hvlater => ?_⟩
  rw [answer_bind, hanswer' v hv hvlater, hanswer v hv (hlater'.trans hvlater)]

theorem bind (hP : Lasting P) (hx : Reads P x g) {k : α → WorkspaceM σ β}
    {j : α → Workspace σ → β} (hk : ∀ a, Reads P (k a) (j a)) :
    Reads P (x >>= k) fun v => j (g v) v :=
  bind_of hP hx (Q := fun _ => True) (fun _ => trivial) fun a _ => hk a

theorem map (hx : Reads P x g) (k : α → β) :
    Reads P (x >>= fun a => Pure.pure (k a)) fun v => k (g v) := by
  intro w h hw
  obtain ⟨hcurrent, hlater, hanswer⟩ := hx w h hw
  exact ⟨hcurrent, hlater, fun v hv hvlater => congrArg k (hanswer v hv hvlater)⟩

theorem mono {Q : Workspace σ → Prop} (hx : Reads P x g) (h : ∀ w, Q w → P w) : Reads Q x g :=
  fun w hw hq => hx w hw (h w hq)

/-- Work that starts by looking at the workspace goes on in a later one. -/
theorem get_bind {k : Workspace σ → WorkspaceM σ α}
    (hk : ∀ u, Reads (fun w => P w ∧ Later u w) (k u) g) : Reads P (get >>= k) g :=
  fun w h hw => hk w w h ⟨hw, .refl w⟩

theorem congr {g' : Workspace σ → α} (hx : Reads P x g)
    (h : ∀ w v, P w → Later w v → g v = g' v) : Reads P x g' := by
  intro w hw hP
  obtain ⟨hcurrent, hlater, hanswer⟩ := hx w hw hP
  refine ⟨hcurrent, hlater, fun v hv hvlater => ?_⟩
  rw [hanswer v hv hvlater, h w v hP (hlater.trans hvlater)]

theorem mapM (hP : Lasting P) {k : α → WorkspaceM σ β} {j : α → Workspace σ → β} :
    ∀ as : List α, (∀ a ∈ as, Reads P (k a) (j a)) →
      Reads P (as.mapM k) fun v => as.map fun a => j a v := by
  intro as
  induction as with
  | nil =>
      intro _
      rw [List.mapM_nil]
      exact pure []
  | cons a as ih =>
      intro hk
      rw [List.mapM_cons]
      exact bind hP (hk a (by simp)) fun b => (ih fun c hc => hk c (by simp [hc])).map (b :: ·)

end Reads

/-! ### Texts and trees -/

theorem reads_text (f : FileId) :
    Reads (·.Knows f) (text f >>= fun r => Pure.pure r.toOption : WorkspaceM σ (Option String))
      fun v => v.textOf f := by
  intro w h hf
  have hafter : after (text f >>= fun r => Pure.pure r.toOption) w = w := h.after_text f
  rw [hafter]
  refine ⟨h, .refl w, fun v _ hlater => ?_⟩
  show (answer (text f) w).toOption = v.textOf f
  rw [hlater.textOf_of_knows hf, toOption_answer_text]

theorem reads_tree (f : FileId) :
    Reads (·.Knows f) (tree f : WorkspaceM σ SymbolTree) fun v => v.treeOf f := by
  intro w h hf
  obtain ⟨hcurrent, hlater⟩ := h.after_tree f
  refine ⟨hcurrent, hlater, fun v _ hvlater => ?_⟩
  show answer (tree f) w = v.treeOf f
  rw [(h.tree_cases f).1, (hlater.trans hvlater).treeOf_of_knows hf]

theorem reads_treeOfPath (p : Path) :
    Reads (fun _ => True) (treeOfPath p : WorkspaceM σ SymbolTree) fun v => v.treeAt p := by
  intro w h _
  obtain ⟨hcurrent, hlater⟩ := h.after_fileId p
  obtain ⟨hcurrent', hlater'⟩ := hcurrent.after_tree (answer (fileId p) w)
  refine ⟨hcurrent', hlater.trans hlater', fun v hv hvlater => ?_⟩
  have hknows := h.knows_fileId p
  have hnumber := h.fileId_later p hv (hlater'.trans hvlater)
  show answer (tree (answer (fileId p) w)) (after (fileId p) w) = v.treeAt p
  rw [hv.treeAt_eq (hnumber ▸ (hlater'.trans hvlater).knows hknows), hnumber,
    (hlater'.trans hvlater).treeOf_of_knows hknows, (hcurrent.tree_cases _).1]

/-- The path that was found, if it is the only one. -/
def onlyPath? : Except SourceError (List Path) → Option Path
  | .ok [p] => some p
  | _ => none

/-- The path of the one file that has this logical name. -/
def logicalPath? (w : Workspace σ) (name : String) : Option Path :=
  (w.config.logicalNamePattern? name).bind fun pattern => onlyPath? (Source.find w.source pattern)

/-- The tree that a logical name stands for when it is used in `origin`, by the source as it
stands. -/
def logicalTree? (w : Workspace σ) (name : String) (origin : FileId) : Option SymbolTree :=
  if name = thisFile then some (w.treeOf origin) else (w.logicalPath? name).map w.treeAt

/-- The paths of all source files; none if they cannot be listed. -/
def sourcePaths (w : Workspace σ) : List Path :=
  ((Source.find w.source w.config.sourcePattern).toOption).getD []

/-- The trees of all source files, by the source as it stands. -/
def sourceTrees (w : Workspace σ) : List SymbolTree :=
  w.sourcePaths.map w.treeAt

theorem reads_find (pattern : FilePattern) :
    Reads (fun _ => True) (find pattern : WorkspaceM σ (Except SourceError (List Path)))
      fun v => Source.find v.source pattern := by
  intro w h _
  rw [h.after_find pattern]
  refine ⟨h, .refl w, fun v _ hlater => ?_⟩
  show Source.find w.source pattern = Source.find v.source pattern
  rw [hlater.source]

omit [Source σ] in
theorem lasting_true : Lasting fun _ : Workspace σ => True :=
  fun _ _ _ _ => trivial

/-- The trees of the only path that was found. -/
theorem reads_treesOfFound (found : Except SourceError (List Path)) :
    Reads (fun _ => True)
      (match found with
        | .ok [p] => treeOfPath p >>= fun t => pure [t]
        | _ => pure [] : WorkspaceM σ (List SymbolTree))
      fun v => ((onlyPath? found).map v.treeAt).toList := by
  rcases found with e | (_ | ⟨p, _ | ⟨q, rest⟩⟩)
  · exact .pure []
  · exact .pure []
  · exact (reads_treeOfPath p).map fun t => [t]
  · exact .pure []

theorem reads_treesOfLogicalName (name : String) (origin : FileId) :
    Reads (·.Knows origin) (treesOfLogicalName name origin : WorkspaceM σ (List SymbolTree))
      fun v => (v.logicalTree? name origin).toList := by
  unfold treesOfLogicalName
  by_cases hname : name = thisFile
  · rw [if_pos hname]
    refine ((reads_tree origin).map fun t => [t]).congr fun w v _ _ => ?_
    rw [logicalTree?, if_pos hname, Option.toList_some]
  · rw [if_neg hname]
    refine .get_bind fun u => ?_
    have hstays : ∀ w v : Workspace σ, w.Knows origin ∧ Later u w → Later w v →
        v.logicalTree? name origin = ((u.config.logicalNamePattern? name).bind fun pattern =>
          onlyPath? (Source.find v.source pattern)).map v.treeAt := by
      intro w v hw hlater
      rw [logicalTree?, if_neg hname, logicalPath?, (hw.2.trans hlater).config]
    cases hpattern : u.config.logicalNamePattern? name with
    | none =>
        refine (Reads.pure []).congr fun w v hw hlater => ?_
        rw [hstays w v hw hlater, hpattern]
        rfl
    | some pattern =>
        refine ((Reads.bind lasting_true (reads_find pattern) reads_treesOfFound).mono
          fun _ _ => trivial).congr fun w v hw hlater => ?_
        rw [hstays w v hw hlater, hpattern]
        rfl

theorem reads_fileId (p : Path) :
    Reads (fun _ => True) (fileId p : WorkspaceM σ FileId) fun v => answer (fileId p) v := by
  intro w h _
  obtain ⟨hcurrent, hlater⟩ := h.after_fileId p
  exact ⟨hcurrent, hlater, fun v hv hvlater => (h.fileId_later p hv hvlater).symm⟩

/-- The numbers that paths are given are known then. -/
theorem knows_mapM_fileId :
    ∀ (paths : List Path) (w : Workspace σ), w.Current →
      ∀ f ∈ answer (paths.mapM fileId) w, (after (paths.mapM fileId) w).Knows f := by
  intro paths
  induction paths with
  | nil =>
      intro w _ f hf
      rw [List.mapM_nil, answer_pure] at hf
      cases hf
  | cons p paths ih =>
      intro w h f hf
      obtain ⟨hcurrent, -⟩ := h.after_fileId p
      rw [List.mapM_cons] at hf ⊢
      rcases List.mem_cons.1 hf with rfl | hf
      · exact (Reads.mapM lasting_true paths (fun q _ => reads_fileId q) _ hcurrent trivial).2.1.knows
          (h.knows_fileId p)
      · exact ih _ hcurrent f hf

theorem reads_trees (files : List FileId) :
    Reads (fun w => ∀ f ∈ files, w.Knows f) (files.mapM tree : WorkspaceM σ (List SymbolTree))
      fun v => files.map v.treeOf := by
  apply Reads.mapM
  · intro w v hlater hfiles f hf
    exact hlater.knows (hfiles f hf)
  · intro f hf
    exact (reads_tree f).mono fun w hfiles => hfiles f hf

/-- Paths are all numbered before the first one is parsed. -/
theorem reads_treesOfPaths (paths : List Path) :
    Reads (fun _ => True)
      (paths.mapM fileId >>= fun files => files.mapM tree : WorkspaceM σ (List SymbolTree))
      fun v => paths.map v.treeAt := by
  intro w h _
  obtain ⟨hcurrent, hlater, hnumbers⟩ :=
    Reads.mapM lasting_true paths (fun p _ => reads_fileId p) w h trivial
  have hknows := knows_mapM_fileId paths w h
  obtain ⟨hcurrent', hlater', htrees⟩ := reads_trees _ _ hcurrent hknows
  refine ⟨hcurrent', hlater.trans hlater', fun v hv hvlater => ?_⟩
  have hanswer : answer (paths.mapM fileId) w = paths.map fun p => answer (fileId p) v :=
    hnumbers v hv (hlater'.trans hvlater)
  calc answer (paths.mapM fileId >>= fun files => files.mapM tree) w
      = (answer (paths.mapM fileId) w).map v.treeOf := htrees v hv hvlater
    _ = paths.map fun p => v.treeOf (answer (fileId p) v) := by
        rw [hanswer, List.map_map]
        rfl
    _ = paths.map v.treeAt := by
        refine List.map_congr_left fun p hp => (hv.treeAt_eq ?_).symm
        refine (hlater'.trans hvlater).knows (hknows _ ?_)
        rw [hanswer]
        exact List.mem_map_of_mem hp

theorem reads_allTrees :
    Reads (fun _ => True) (allTrees : WorkspaceM σ (List SymbolTree)) fun v => v.sourceTrees := by
  unfold allTrees
  refine .get_bind fun u => ?_
  refine ((Reads.bind (j := fun found v => (found.toOption.getD []).map v.treeAt) lasting_true
    (reads_find u.config.sourcePattern) fun found => ?_).mono fun _ _ => trivial).congr
    fun w v hw hlater => ?_
  · cases found with
    | error e => exact .pure []
    | ok paths => exact reads_treesOfPaths paths
  · rw [sourceTrees, sourcePaths, (hw.2.trans hlater).config]

end Workspace

end OverlayIndex
