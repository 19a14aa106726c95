/-
Alike workspaces answer alike.

One lemma for each part of a query, in the order in which they are put together: the files that
a logical name stands for, the blocks that inclusions name, what an overlay declares, what a
token comes to, and then the queries.  The answers of a query are the same under all names for files
that do not tell the two workspaces apart; the paths of files are such names, and where the numbers
are the same, so are these.
-/
import OverlayIndex.Proofs.Workspace.Alike

namespace OverlayIndex

namespace Workspace

variable {σ τ : Type} [Source σ] [Source τ] {w : Workspace σ} {v : Workspace τ}

/-! ### Finding trees -/

theorem agree_oneTree {x : WorkspaceM σ SymbolTree} {y : WorkspaceM τ SymbolTree}
    (h : Agree SameTree w v x y) :
    Agree (fun w v => List.Forall₂ (SameTree w v)) w v (x >>= fun t => pure [t])
      (y >>= fun u => pure [u]) :=
  h.map fun _ _ _ _ _ ht => .cons ht .nil

/-- A logical name other than that of the file at hand does not depend on the file. -/
theorem agree_treesOfOther (h : Alike w v) {name : String} (hname : name ≠ thisFile)
    (f g : FileId) :
    Agree (fun w v => List.Forall₂ (SameTree w v)) w v (treesOfLogicalName name f)
      (treesOfLogicalName name g) := by
  unfold treesOfLogicalName
  rw [if_neg hname, if_neg hname]
  refine .get_bind ?_
  rw [h.config]
  cases v.config.logicalNamePattern? name with
  | none => exact .pure h .nil
  | some pattern =>
      refine (agree_find h pattern).bind fun w' v' found _ hw hv h' hfound => ?_
      obtain ⟨rfl, hlists⟩ := hfound
      match found, hlists with
      | .ok [p], hlists =>
          have hp := hlists [p] rfl p (by simp)
          refine agree_oneTree ((agree_fileId h' hp).bind fun _ _ _ _ _ _ h'' hfile => ?_)
          exact agree_tree h'' hfile
      | .ok [], _ => exact .pure h' .nil
      | .ok (_ :: _ :: _), _ => exact .pure h' .nil
      | .error _, _ => exact .pure h' .nil

theorem agree_treesOfLogicalName (h : Alike w v) (name : String) {f g : FileId}
    (hfile : SameFile w v f g) :
    Agree (fun w v => List.Forall₂ (SameTree w v)) w v (treesOfLogicalName name f)
      (treesOfLogicalName name g) := by
  by_cases hname : name = thisFile
  · unfold treesOfLogicalName
    rw [if_pos hname, if_pos hname]
    exact agree_oneTree (agree_tree h hfile)
  · exact agree_treesOfOther h hname f g

theorem agree_allTrees (h : Alike w v) :
    Agree (fun w v => List.Forall₂ (SameTree w v)) w v allTrees allTrees := by
  unfold allTrees
  refine .get_bind ?_
  rw [h.config]
  refine (agree_find h _).bind fun w₁ v₁ found _ _ _ h₁ hfound => ?_
  obtain ⟨rfl, hlists⟩ := hfound
  cases found with
  | error _ => exact .pure h₁ .nil
  | ok paths =>
      have hnumber : Agree (fun w v => List.Forall₂ (SameFile w v)) w₁ v₁ (paths.mapM fileId)
          (paths.mapM fileId) := by
        refine Agree.mapM (P := fun w _ p q => p = q ∧
          Source.Lists w.source (Source.normalize w.source p)) ?_ stable_sameFile ?_ paths paths w₁ v₁
          h₁ (List.forall₂_same.2 fun p hp => ⟨rfl, hlists paths rfl p hp⟩)
        · rintro w w' v v' p q hw hv ⟨hpq, hp⟩
          rw [hw.source]
          exact ⟨hpq, hp⟩
        · rintro w v p _ h ⟨rfl, hp⟩
          exact agree_fileId h hp
      refine hnumber.bind fun w₂ v₂ fs gs _ _ h₂ hfiles => ?_
      exact Agree.mapM stable_sameFile stable_sameTree (fun _ _ _ _ h hfile => agree_tree h hfile)
        fs gs w₂ v₂ h₂ hfiles

/-- The first of the trees in which a root is found, and the root. -/
theorem sameDeclaration_findRoot (h : Alike w v) (kind : Kind) (name : String)
    {ts us : List SymbolTree} (hts : List.Forall₂ (SameTree w v) ts us) :
    Option.Rel (SameDeclaration w v)
      (ts.findSome? fun t => (t.findRoot? kind name).bind (Declaration.of? t))
      (us.findSome? fun u => (u.findRoot? kind name).bind (Declaration.of? u)) := by
  refine rel_findSome? (fun t u htu => ?_) hts
  have hroot : u.findRoot? kind name = t.findRoot? kind name :=
    htu.look_eq h (·.findRoot? kind name) fun _ _ => rfl
  rw [hroot]
  exact sameDeclaration_bind_of? h htu _

/-! ### Finding declarations -/

theorem agree_nameBlock (h : Alike w v) (target : InclusionTarget) {f g : FileId}
    (hfile : SameFile w v f g) :
    Agree (fun w v => Option.Rel (SameDeclaration w v)) w v (nameBlock target f)
      (nameBlock target g) :=
  (agree_treesOfLogicalName h target.file hfile).map fun _ _ _ _ h' hts =>
    sameDeclaration_findRoot h' .name target.block hts

theorem agree_exposed (h : Alike w v) (target : InclusionTarget) (name : String) {f g : FileId}
    (hfile : SameFile w v f g) :
    Agree (fun w v => Option.Rel (SameDeclaration w v)) w v (exposed target f name)
      (exposed target g name) := by
  refine (agree_nameBlock h target hfile).map fun w' v' a b h' hab => ?_
  cases hab with
  | none => exact .none
  | @some d e hde =>
      have hchild : e.tree.findChild? = d.tree.findChild? :=
        hde.1.look_eq h' SymbolTree.findChild? fun _ _ => rfl
      show Option.Rel _ ((d.tree.findChild? d.id [.proc, .var] name).bind (Declaration.of? d.tree))
        ((e.tree.findChild? e.id [.proc, .var] name).bind (Declaration.of? e.tree))
      rw [hchild, ← hde.2]
      exact sameDeclaration_bind_of? h' hde.1 _

theorem agree_findInEntry (h : Alike w v) {t u : SymbolTree} (ht : SameTree w v t u)
    (entry : SymbolId) (name : String) :
    Agree SameResolution w v (findInEntry t entry name) (findInEntry u entry name) := by
  have hlocal : (u.findVariable? entry name).or (u.findProc? entry name)
      = (t.findVariable? entry name).or (t.findProc? entry name) :=
    ht.look_eq h (fun t => (t.findVariable? entry name).or (t.findProc? entry name))
      fun _ _ => rfl
  have hinclusions : u.inclusions entry = t.inclusions entry :=
    ht.look_eq h (·.inclusions entry) fun _ _ => rfl
  unfold findInEntry
  rw [hlocal]
  cases (t.findVariable? entry name).or (t.findProc? entry name) with
  | some id => exact .pure h (sameResolution_ofOption (sameDeclaration_of? h ht id))
  | none =>
      show Agree SameResolution w v (findIncluded t entry name) (findIncluded u entry name)
      unfold findIncluded
      rw [hinclusions]
      exact (Agree.mapM_same (C := fun w v => SameFile w v t.file u.file)
        stable_sameDeclaration.option (fun _ _ _ _ hw hv => stable_sameFile hw hv)
        (fun w v target h hfile => agree_exposed h target name hfile) _ h ht.file).map
          fun _ _ _ _ _ hhits => sameResolution_ofList (forall₂_filterMap_id hhits)

theorem agree_findBlockAt (h : Alike w v) {t u : SymbolTree} (ht : SameTree w v t u)
    (p : Position) : Agree SameResolution w v (findBlockAt t p) (findBlockAt u p) := by
  have hat : u.inclusionAt? p = t.inclusionAt? p :=
    ht.look_eq h (·.inclusionAt? p) fun _ _ => rfl
  unfold findBlockAt
  rw [hat]
  cases t.inclusionAt? p with
  | none => exact .pure h .notFound
  | some target =>
      exact (agree_nameBlock h target ht.file).map fun _ _ _ _ _ hde => sameResolution_ofOption hde

theorem agree_findOverlay (h : Alike w v) {t u : SymbolTree} (ht : SameTree w v t u)
    (entry : SymbolId) (name : String) :
    Agree SameResolution w v (findOverlay t entry name) (findOverlay u entry name) := by
  have href : u.findOverlayRef? entry name = t.findOverlayRef? entry name :=
    ht.look_eq h (·.findOverlayRef? entry name) fun _ _ => rfl
  unfold findOverlay
  rw [href]
  cases t.findOverlayRef? entry name with
  | none => exact .pure h .notFound
  | some _ =>
      exact (agree_allTrees h).map fun _ _ _ _ h' hts =>
        sameResolution_ofOption (sameDeclaration_findRoot h' .entry name hts)

/-! ### What a token comes to -/

theorem agree_tokenAt (h : Alike w v) {f g : FileId} (hfile : SameFile w v f g) (p : Position) :
    Agree (fun w v a b => a = b ∧ SameFile w v f g) w v (tokenAt f p) (tokenAt g p) := by
  refine (agree_text h).bind fun w' v' x y hw hv h' hxy => .pure h' ⟨?_, ?_⟩
  · have hread := (stable_sameFile hw hv hfile).textOf h'
    rw [hxy.1, hxy.2]
    generalize w'.textOf f = x' at hread ⊢
    generalize v'.textOf g = y' at hread ⊢
    cases hread with
    | none => rfl
    | some hxy => exact hxy.token p
  · exact stable_sameFile hw hv hfile

/-- The places that are asked after the overlay around the position. -/
theorem agree_elsewhere (h : Alike w v) {t u : SymbolTree} (ht : SameTree w v t u)
    (entry : Option SymbolId) (name : String) (p : Position) :
    Agree SameResolution w v
      (findBlockAt t p >>= fun r => r.orElse <| match entry with
        | some e => findOverlay t e name
        | none => pure .notFound)
      (findBlockAt u p >>= fun r => r.orElse <| match entry with
        | some e => findOverlay u e name
        | none => pure .notFound) := by
  refine (agree_findBlockAt h ht p).bind fun w' v' r s hw hv h' hrs => .orElse h' hrs ?_
  cases entry with
  | none => exact .pure h' .notFound
  | some e => exact agree_findOverlay h' (stable_sameTree hw hv ht) e name

theorem agree_resolve (h : Alike w v) {f g : FileId} (hfile : SameFile w v f g) (p : Position) :
    Agree SameResolution w v (resolve f p) (resolve g p) := by
  unfold resolve
  refine (agree_tokenAt h hfile p).bind fun w₁ v₁ a b _ _ h₁ hab => ?_
  obtain ⟨rfl, hfile₁⟩ := hab
  cases a with
  | none => exact .pure h₁ .notFound
  | some name =>
      refine (agree_tree h₁ hfile₁).bind fun w₂ v₂ t u _ _ h₂ ht => ?_
      have hentry : u.entryAt? p = t.entryAt? p :=
        ht.look_eq h₂ (·.entryAt? p) fun _ _ => rfl
      simp only [hentry]
      cases t.entryAt? p with
      | none =>
          refine (Agree.pure h₂ .notFound).bind fun w₃ v₃ r s hw hv h₃ hrs => .orElse h₃ hrs ?_
          exact agree_elsewhere h₃ (stable_sameTree hw hv ht) none name p
      | some e =>
          refine (agree_findInEntry h₂ ht e name).bind fun w₃ v₃ r s hw hv h₃ hrs =>
            .orElse h₃ hrs ?_
          exact agree_elsewhere h₃ (stable_sameTree hw hv ht) (some e) name p

theorem agree_definition (h : Alike w v) {f g : FileId} (hfile : SameFile w v f g) (p : Position) :
    Agree (fun w v => Option.Rel (SameDeclaration w v)) w v (definition f p) (definition g p) :=
  (agree_resolve h hfile p).map fun _ _ _ _ _ hrs => hrs.declaration?

/-! ### Uses and links -/

/-- The two locations are the same stretch of the same file. -/
def SameLocation (w : Workspace σ) (v : Workspace τ) (a b : Location) : Prop :=
  SameFile w v a.file b.file ∧ a.range = b.range

/-- The two links lead from the same stretch to the same block. -/
def SameLink (w : Workspace σ) (v : Workspace τ) (a b : Link) : Prop :=
  SameFile w v a.targetFile b.targetFile ∧
    (a.range, a.targetRange, a.tooltip) = (b.range, b.targetRange, b.tooltip)

theorem mem_of_get? {t : SymbolTree} {id : SymbolId} {s : Symbol} (h : t.get? id = some s) :
    s ∈ t.forest.toList := by
  rw [SymbolTree.get?_eq, SymbolTree.symbols_eq] at h
  exact List.mem_of_getElem? h

theorem SameTree.forest_eq {t u : SymbolTree} (ht : SameTree w v t u) {x : String}
    (hx : w.textOf t.file = some x) : t.forest = parseChars x.toList := by
  obtain ⟨f, g, -, rfl, rfl⟩ := ht
  rw [file_treeOf] at hx
  rw [treeOf, hx]
  rfl

theorem agree_referencesTo (h : Alike w v) {d e : Declaration} (hde : SameDeclaration w v d e) :
    Agree (fun w v => List.Forall₂ (SameLocation w v)) w v (referencesTo d) (referencesTo e) := by
  have hentry : (e.tree.enclosing? e.id .entry).bind e.tree.get?
      = (d.tree.enclosing? d.id .entry).bind d.tree.get? := by
    rw [hde.2, hde.1.look_eq h SymbolTree.enclosing? SymbolTree.enclosing?_relabel,
      hde.1.look_eq h SymbolTree.get? fun _ _ => rfl]
  unfold referencesTo
  rw [hde.symbol_eq h, hentry]
  by_cases hkind : d.symbol.kind = .var
  · rw [if_pos hkind, if_pos hkind]
    cases hget : (d.tree.enclosing? d.id .entry).bind d.tree.get? with
    | none => exact .pure h .nil
    | some entry =>
        refine (agree_text h).bind fun w' v' x y hw hv h' hxy => ?_
        have ht := stable_sameTree hw hv hde.1
        have hread : Option.Rel ReadAlike x.toOption y.toOption := by
          rw [hxy.1, hxy.2]
          exact ht.file.textOf h'
        match x, y, hread with
        | .error _, .error _, _ => exact .pure h' .nil
        | .ok x, .ok y, .some hxy' =>
            -- The tree is that of the text just read, so the name and the scope are its own.
            have hforest := ht.forest_eq hxy.1.symm
            have hmem : ∀ {id s}, d.tree.get? id = some s → s ∈ (parseChars x.toList).toList :=
              fun hs => hforest ▸ mem_of_get? hs
            obtain ⟨id, henclosing, hid⟩ := Option.bind_eq_some_iff.1 hget
            have hentry : entry.kind = .entry := by
              have hsatisfies := List.find?_some henclosing
              rw [SymbolTree.satisfies, hid] at hsatisfies
              exact of_decide_eq_true hsatisfies
            refine .pure h' ?_
            rw [← hxy'.uses entry (hmem hid) hentry d.symbol (hmem d.isAt) hkind,
              List.forall₂_map_left_iff, List.forall₂_map_right_iff]
            exact List.forall₂_same.2 fun _ _ => ⟨ht.file, rfl⟩
  · rw [if_neg hkind, if_neg hkind]
    exact .pure h .nil

theorem agree_references (h : Alike w v) {f g : FileId} (hfile : SameFile w v f g) (p : Position) :
    Agree (fun w v => List.Forall₂ (SameLocation w v)) w v (references f p) (references g p) := by
  refine (agree_definition h hfile p).bind fun w' v' d e _ _ h' hde => ?_
  cases hde with
  | none => exact .pure h' .nil
  | some hde => exact agree_referencesTo h' hde

theorem agree_link (h : Alike w v) {f g : FileId} (hfile : SameFile w v f g) (s : Symbol) :
    Agree (fun w v => Option.Rel (SameLink w v)) w v (link f s) (link g s) := by
  unfold link
  by_cases hkind : s.kind = .inclusion
  · rw [if_pos hkind, if_pos hkind]
    cases InclusionTarget.parse? s.name with
    | none => exact .pure h .none
    | some target =>
        refine (agree_nameBlock h target hfile).map fun w' v' a b h' hab => ?_
        cases hab with
        | none => exact .none
        | some hde => exact .some ⟨hde.1.file, by simp only [hde.symbol_eq h']⟩
  · rw [if_neg hkind, if_neg hkind]
    exact .pure h .none

theorem agree_links (h : Alike w v) {f g : FileId} (hfile : SameFile w v f g) :
    Agree (fun w v => List.Forall₂ (SameLink w v)) w v (links f) (links g) := by
  have hstable : Stable (SameLink : Workspace σ → Workspace τ → _) := by
    rintro w w' v v' a b hw hv ⟨hfile, hrest⟩
    exact ⟨stable_sameFile hw hv hfile, hrest⟩
  unfold links
  refine (agree_tree h hfile).bind fun w' v' t u hw hv h' ht => ?_
  rw [ht.look_eq h' SymbolTree.symbols fun _ _ => rfl]
  exact (Agree.mapM_same (C := fun w v => SameFile w v f g) hstable.option
    (fun _ _ _ _ hw hv => stable_sameFile hw hv) (fun w v s h hfile => agree_link h hfile s) _ h'
    (stable_sameFile hw hv hfile)).map fun _ _ _ _ _ hlinks => forall₂_filterMap_id hlinks

/-! ### All queries -/

omit [Source σ] [Source τ] in
theorem SameFile.components? {f g : FileId} (h : SameFile w v f g) :
    w.components? f = v.components? g := by
  obtain ⟨p, q, hp, hq, hsame⟩ := h
  rw [Workspace.components?, Workspace.components?, hp, hq, Option.map_some, Option.map_some,
    Path.same_iff.1 hsame]

/-- The names give the same file the same name. -/
def SameNames {φ : Type} (w : Workspace σ) (v : Workspace τ) (g g' : FileId → φ) : Prop :=
  ∀ f f', SameFile w v f f' → g f = g' f'

/-- The two answers are the same under all names that give the same file the same name. -/
def SameAnswer (w : Workspace σ) (v : Workspace τ) (a b : Answer FileId) : Prop :=
  ∀ (φ : Type) (g g' : FileId → φ), SameNames w v g g' → a.map g = b.map g'

omit [Source σ] [Source τ] in
theorem SameAnswer.byPath {a b : Answer FileId} (h : SameAnswer w v a b) :
    a.map w.components? = b.map v.components? :=
  h _ _ _ fun _ _ hfile => hfile.components?

omit [Source σ] [Source τ] in
/-- With the same numbers the answers are the same as they are. -/
theorem SameAnswer.eq {a b : Answer FileId} (h : SameAnswer w v a b) (hfiles : w.files = v.files)
    (hdistinct : w.files.Distinct) : a = b := by
  have hid := h FileId id id fun f f' hfile => ?_
  · rwa [Answer.map_id, Answer.map_id] at hid
  · obtain ⟨p, q, hp, hq, hsame⟩ := hfile
    rw [Workspace.path?, ← hfiles] at hq
    have hf := hdistinct.lookup?_eq_some hp (Path.same_iff.2 rfl)
    rw [hdistinct.lookup?_eq_some hq (Path.same_iff.2 (Path.same_iff.1 hsame).symm)] at hf
    exact (Option.some.inj hf).symm

section

variable {φ : Type} {name name' : FileId → φ}

theorem SameDeclaration.site_map (h : Alike w v) (hnames : SameNames w v name name')
    {d e : Declaration} (hde : SameDeclaration w v d e) :
    d.site.map name = e.site.map name' := by
  have hforest : e.tree.forest = d.tree.forest :=
    hde.1.look_eq h SymbolTree.forest fun _ _ => rfl
  simp only [Site.map, Declaration.site, hforest, hde.2]
  exact congrArg (fun n => Site.mk n d.tree.forest e.id) (hnames _ _ hde.1.file)

theorem search_eq (h : Alike w v) (hnames : SameNames w v name name') {t u : SymbolTree}
    (ht : SameTree w v t u) (query : List Char) :
    (t.search query).map (fun s => (name s.file, s.symbol, s.container)) =
      (u.search query).map (fun s => (name' s.file, s.symbol, s.container)) := by
  rw [ht.eq_relabel h, SymbolTree.search_relabel, SymbolTree.search, List.map_map, List.map_map,
    List.map_map]
  refine List.map_congr_left fun n _ => ?_
  simp only [Function.comp_apply]
  rw [hnames _ _ ht.file]

end

theorem map_eq_map_of_forall₂ {α β γ : Type} {R : α → β → Prop} {k : α → γ} {l : β → γ}
    (hkl : ∀ a b, R a b → k a = l b) {as : List α} {bs : List β} (h : List.Forall₂ R as bs) :
    as.map k = bs.map l := by
  induction h with
  | nil => rfl
  | cons hab _ ih => rw [List.map_cons, List.map_cons, hkl _ _ hab, ih]

/-- What is looked up in a tree of the file, and is not about the number of the file. -/
theorem agree_inTree {α : Type} (h : Alike w v) {f g : FileId} (hfile : SameFile w v f g)
    {k : SymbolTree → α} (hk : ∀ t g, k (t.relabel g) = k t) :
    Agree (fun _ _ a b => a = b) w v (tree f >>= fun t => pure (k t))
      (tree g >>= fun t => pure (k t)) := by
  refine (agree_tree h hfile).map fun w v t u h ht => ?_
  exact (ht.look_eq h k hk).symm

theorem agree_askSymbols (h : Alike w v) (query : String) (f g : FileId) :
    Agree SameAnswer w v (ask (.symbols query) f) (ask (.symbols query) g) := by
  refine ((agree_allTrees h).map fun w v ts us h hts => ?_).map fun w v a b _ hab => hab
  intro φ name name' hnames
  have hsearch : ∀ t u, SameTree w v t u → _ := fun t u ht =>
    search_eq h hnames ht (lowerCase query.toList)
  rw [Answer.map, Answer.map, List.map_map, List.map_map, List.map_flatMap, List.map_flatMap,
    List.flatMap_def, List.flatMap_def]
  exact congrArg (fun xs => Answer.symbols xs.flatten) (map_eq_map_of_forall₂ hsearch hts)

theorem agree_askLogicalName {name : String} {f g : FileId}
    (htrees : Agree (fun w v => List.Forall₂ (SameTree w v)) w v (treesOfLogicalName name f)
      (treesOfLogicalName name g)) :
    Agree SameAnswer w v (ask (.logicalName name) f) (ask (.logicalName name) g) := by
  refine htrees.map fun w v ts us h hts φ name name' hnames => ?_
  rw [Answer.map, Answer.map, List.map_map, List.map_map]
  refine congrArg Answer.trees (map_eq_map_of_forall₂ (fun t u ht => ?_) hts)
  have hforest : u.forest = t.forest := ht.look_eq h SymbolTree.forest fun _ _ => rfl
  exact Prod.ext (hnames _ _ ht.file) hforest.symm

/-- **Alike workspaces answer alike.**  Asked about the same file, they give the same answer to
every query, under whatever names files go by. -/
theorem agree_ask (h : Alike w v) {f g : FileId} (hfile : SameFile w v f g) (q : Query) :
    Agree SameAnswer w v (ask q f) (ask q g) := by
  cases q with
  | outline =>
      refine (agree_inTree (k := SymbolTree.outline) h hfile fun t g => ?_).map
        fun w v a b _ hab φ name name' _ => congrArg Answer.outline hab
      rw [SymbolTree.outline_eq, SymbolTree.outline_eq]
      rfl
  | folds =>
      refine (agree_inTree (k := SymbolTree.folds) h hfile fun _ _ => rfl).map
        fun w v a b _ hab φ name name' _ => ?_
      exact congrArg Answer.folds hab
  | selections p =>
      refine (agree_inTree h hfile fun t g => congrFun (t.selections_relabel g) p).map
        fun w v a b _ hab φ name name' _ => ?_
      exact congrArg Answer.selections hab
  | symbols query => exact agree_askSymbols h query f g
  | definition p =>
      refine (agree_definition h hfile p).map fun w v a b h hab φ name name' hnames => ?_
      cases hab with
      | none => rfl
      | some hde => exact congrArg (fun s => Answer.definition (some s)) (hde.site_map h hnames)
  | resolve p =>
      refine (agree_resolve h hfile p).map fun w v a b h hab φ name name' hnames => ?_
      cases hab with
      | notFound => rfl
      | found hde => exact congrArg Answer.found (hde.site_map h hnames)
      | ambiguous hds =>
          rw [Answer.ofResolution, Answer.ofResolution, Answer.map, Answer.map, List.map_map,
            List.map_map]
          refine congrArg Answer.ambiguous (map_eq_map_of_forall₂ (fun d e hde => ?_) hds)
          exact hde.site_map h hnames
  | references p =>
      refine (agree_references h hfile p).map fun w v a b _ hab φ name name' hnames => ?_
      rw [Answer.map, Answer.map, List.map_map, List.map_map]
      refine congrArg Answer.references (map_eq_map_of_forall₂ (fun a b hl => ?_) hab)
      exact Prod.ext (hnames _ _ hl.1) hl.2
  | links =>
      refine (agree_links h hfile).map fun w v a b _ hab φ name name' hnames => ?_
      rw [Answer.map, Answer.map, List.map_map, List.map_map]
      refine congrArg Answer.links (map_eq_map_of_forall₂ (fun a b hl => ?_) hab)
      exact Prod.ext (hnames _ _ hl.1) hl.2
  | logicalName name => exact agree_askLogicalName (agree_treesOfLogicalName h name hfile)

end Workspace

end OverlayIndex
