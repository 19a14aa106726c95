/-
The chain of look-ups for a token.

`ComesTo` says place by place what a token comes to, in terms of where symbols stand and not of how
they are searched for: the variables of the overlay around the position hide its procedures, these
hide what it includes, and so on, and each place is asked only if those before it have nothing.
Several inclusions that declare the token end the chain as much as one does.  In a workspace that
is up to date every token comes to exactly one thing, which is what the chain answers.
-/
import Mathlib.Data.List.Perm.Basic
import OverlayIndex.Proofs.Resolve.Lookup
import OverlayIndex.Proofs.Resolve.Reading
import OverlayIndex.Proofs.Workspace.History

namespace OverlayIndex

namespace SymbolTree

variable {t : SymbolTree} {i e : SymbolId} {kinds : List Kind} {name : String}

theorem Stands.exists_symbol {parent : Option SymbolId} (h : t.Stands parent kinds name i) :
    ∃ s, t.get? i = some s := by
  obtain ⟨-, s, hs, -⟩ := h
  exact ⟨s, hs⟩

theorem StandsWithin.exists_symbol {list : Kind} (h : t.StandsWithin e list kinds name i) :
    ∃ s, t.get? i = some s := by
  obtain ⟨area, -, -, -, -, hi⟩ := h
  exact hi.exists_symbol

end SymbolTree

theorem Declaration.of?_eq_some_iff {t : SymbolTree} {i : SymbolId} {d : Declaration} :
    Declaration.of? t i = some d ↔ d.tree = t ∧ d.id = i := by
  unfold of?
  split
  · rename_i hget
    constructor
    · intro h
      cases h
    · rintro ⟨rfl, rfl⟩
      rw [d.isAt] at hget
      cases hget
  · rename_i s hget
    constructor
    · intro h
      cases h
      exact ⟨rfl, rfl⟩
    · rintro ⟨rfl, rfl⟩
      obtain ⟨tree, id, symbol, isAt⟩ := d
      rw [isAt] at hget
      cases hget
      rfl

/-- The declaration is the first symbol of the tree with the property. -/
def Declaration.IsFirst (d : Declaration) (t : SymbolTree) (P : SymbolId → Prop) : Prop :=
  d.tree = t ∧ t.Earliest P d.id

theorem SymbolTree.Picks.bind_of? {t : SymbolTree} {P : SymbolId → Prop} {answer : Option SymbolId}
    (h : t.Picks P answer) {d : Declaration} :
    answer.bind (Declaration.of? t) = some d ↔ d.IsFirst t P := by
  simp only [Option.bind_eq_some_iff, Declaration.of?_eq_some_iff, h.some_iff]
  constructor
  · rintro ⟨i, hi, rfl, rfl⟩
    exact ⟨rfl, hi⟩
  · rintro ⟨rfl, hi⟩
    exact ⟨d.id, hi, rfl, rfl⟩

theorem SymbolTree.Picks.bind_of?_eq_none {t : SymbolTree} {P : SymbolId → Prop}
    {answer : Option SymbolId} (h : t.Picks P answer) (hP : ∀ i, P i → ∃ s, t.get? i = some s) :
    answer.bind (Declaration.of? t) = none ↔ ∀ i, ¬P i := by
  rw [← h.none_iff]
  cases hanswer : answer with
  | none => simp
  | some i =>
      obtain ⟨s, hs⟩ := hP i ((h.some_iff i).1 hanswer).1
      have hof : Declaration.of? t i = some ⟨t, i, s, hs⟩ := Declaration.of?_eq_some_iff.2 ⟨rfl, rfl⟩
      simp [hof]

theorem SymbolTree.Picks.exists_isFirst {t : SymbolTree} {P : SymbolId → Prop}
    {answer : Option SymbolId} (h : t.Picks P answer) (hP : ∀ i, P i → ∃ s, t.get? i = some s)
    {i : SymbolId} (hi : P i) : ∃ d : Declaration, d.IsFirst t P := by
  cases hbind : answer.bind (Declaration.of? t) with
  | none => exact absurd hi ((h.bind_of?_eq_none hP).1 hbind i)
  | some d => exact ⟨d, h.bind_of?.1 hbind⟩

theorem parseChars_nil : parseChars [] = .nil := by
  decide +kernel

namespace Workspace

variable {σ : Type} [Source σ] {v : Workspace σ} {t : SymbolTree} {e : SymbolId} {f : FileId}
  {p : Position} {name : String} {target : InclusionTarget} {d : Declaration}

theorem isParsed_treeOf (w : Workspace σ) (f : FileId) : (w.treeOf f).IsParsed := by
  rw [treeOf]
  split
  · rename_i x _
    exact ⟨x.toList, rfl⟩
  · exact ⟨[], parseChars_nil.symm⟩

/-! ### The places that are asked -/

/-- The logical name, used in `origin`, stands for one file, which has this tree. -/
def StandsFor (v : Workspace σ) (name : String) (origin : FileId) (t : SymbolTree) : Prop :=
  (name = thisFile ∧ t = v.treeOf origin) ∨
    (name ≠ thisFile ∧ ∃ pattern path, v.config.logicalNamePattern? name = some pattern ∧
      Source.find v.source pattern = .ok [path] ∧ t = v.treeAt path)

/-- The block that an inclusion in `origin` names: the first one of its name in its file. -/
def IsBlock (v : Workspace σ) (target : InclusionTarget) (origin : FileId) (d : Declaration) : Prop :=
  ∃ t, v.StandsFor target.file origin t ∧ d.IsFirst t (t.Stands none [.name] target.block)

/-- The symbol is an inclusion of the overlay, and the block it names declares the name. -/
def Exposes (v : Workspace σ) (t : SymbolTree) (e : SymbolId) (name : String) (i : SymbolId)
    (d : Declaration) : Prop :=
  t.parent? i = some e ∧ ∃ s target b, t.get? i = some s ∧ s.kind = .inclusion ∧
    InclusionTarget.parse? s.name = some target ∧ v.IsBlock target t.file b ∧
    d.IsFirst b.tree (b.tree.Stands (some b.id) [.proc, .var] name)

/-- The first overlay of this name, in the first source file that has one. -/
def IsOverlay (v : Workspace σ) (name : String) (d : Declaration) : Prop :=
  ∃ before t after, v.sourceTrees = before ++ t :: after ∧
    (∀ u ∈ before, ∀ i, ¬u.Stands none [.entry] name i) ∧
    d.IsFirst t (t.Stands none [.entry] name)

theorem isParsed_of_standsFor {origin : FileId} (h : v.StandsFor name origin t) : t.IsParsed := by
  rcases h with ⟨-, rfl⟩ | ⟨-, pattern, path, -, -, rfl⟩
  · exact v.isParsed_treeOf origin
  · exact isParsed_treeOf _ _

theorem onlyPath?_eq_some_iff {found : Except SourceError (List Path)} {path : Path} :
    onlyPath? found = some path ↔ found = .ok [path] := by
  rcases found with err | (_ | ⟨q, _ | ⟨q', rest⟩⟩) <;> simp [onlyPath?]

theorem logicalTree?_eq_some_iff {origin : FileId} :
    v.logicalTree? name origin = some t ↔ v.StandsFor name origin t := by
  unfold logicalTree? StandsFor
  by_cases hname : name = thisFile
  · rw [if_pos hname, Option.some_inj]
    simp [hname, eq_comm]
  · rw [if_neg hname, Option.map_eq_some_iff]
    simp only [logicalPath?, Option.bind_eq_some_iff, onlyPath?_eq_some_iff, hname, false_and,
      ne_eq, not_false_eq_true, true_and, false_or]
    constructor
    · rintro ⟨path, ⟨pattern, hpattern, hfind⟩, rfl⟩
      exact ⟨pattern, path, hpattern, hfind, rfl⟩
    · rintro ⟨pattern, path, hpattern, hfind, rfl⟩
      exact ⟨path, ⟨pattern, hpattern, hfind⟩, rfl⟩

theorem blockOf_eq_some_iff {origin : FileId} :
    v.blockOf target origin = some d ↔ v.IsBlock target origin d := by
  unfold blockOf IsBlock
  rw [Option.bind_eq_some_iff]
  refine exists_congr fun t => ?_
  rw [logicalTree?_eq_some_iff]
  refine and_congr_right fun ht => ?_
  exact ((isParsed_of_standsFor ht).picks_findRoot? .name target.block).bind_of?

/-- What the block that an inclusion names declares under the name. -/
theorem exposedOf_eq_some_iff {origin : FileId} :
    v.exposedOf target origin name = some d ↔ ∃ b, v.IsBlock target origin b ∧
      d.IsFirst b.tree (b.tree.Stands (some b.id) [.proc, .var] name) := by
  unfold exposedOf
  rw [Option.bind_eq_some_iff]
  refine exists_congr fun b => ?_
  rw [blockOf_eq_some_iff]
  refine and_congr_right fun hb => ?_
  obtain ⟨u, hu, rfl, -⟩ := hb
  exact ((isParsed_of_standsFor hu).picks_findChild? b.id [.proc, .var] name).bind_of?

/-- The inclusions of an overlay whose blocks declare the name, with what they declare. -/
def hits (v : Workspace σ) (t : SymbolTree) (e : SymbolId) (name : String) :
    List (SymbolId × Declaration) :=
  (t.childrenOfKind e .inclusion).filterMap fun i =>
    ((t.get? i).bind fun s => (InclusionTarget.parse? s.name).bind fun target =>
      v.exposedOf target t.file name).map (i, ·)

theorem map_snd_hits : (v.hits t e name).map Prod.snd =
    (t.inclusions e).filterMap fun target => v.exposedOf target t.file name := by
  unfold hits SymbolTree.inclusions
  rw [List.map_filterMap, List.filterMap_filterMap]
  refine List.filterMap_congr fun i _ => ?_
  rw [Option.map_map, Option.bind_assoc]
  exact Option.map_id'

theorem mem_hits_iff {i : SymbolId} : (i, d) ∈ v.hits t e name ↔ v.Exposes t e name i d := by
  unfold hits Exposes
  simp only [List.mem_filterMap, Option.map_eq_some_iff, Prod.mk.injEq, Option.bind_eq_some_iff,
    exposedOf_eq_some_iff]
  constructor
  · rintro ⟨_, hi, _, ⟨s, hs, target, htarget, b, hb, hd⟩, rfl, rfl⟩
    obtain ⟨hchild, hkind⟩ := List.mem_filter.1 hi
    obtain ⟨u, hu, huk⟩ := SymbolTree.satisfies_iff.1 hkind
    rw [hs] at hu
    cases hu
    exact ⟨SymbolTree.mem_children_iff.1 hchild, s, target, b, hs, of_decide_eq_true huk, htarget, hb,
      hd⟩
  · rintro ⟨hparent, s, target, b, hs, hkind, htarget, hb, hd⟩
    refine ⟨i, List.mem_filter.2 ⟨SymbolTree.mem_children_iff.2 hparent, ?_⟩, d,
      ⟨s, hs, target, htarget, b, hb, hd⟩, rfl, rfl⟩
    exact SymbolTree.satisfies_iff.2 ⟨s, hs, decide_eq_true hkind⟩

theorem hits_ordered (ht : t.IsParsed) :
    ((v.hits t e name).map Prod.fst).Pairwise t.StartsBefore := by
  unfold hits
  rw [List.pairwise_map, List.pairwise_filterMap]
  refine ((ht.children_ordered e).filter _).imp fun hij x hx y hy => ?_
  obtain ⟨_, -, rfl⟩ := Option.map_eq_some_iff.1 hx
  obtain ⟨_, -, rfl⟩ := Option.map_eq_some_iff.1 hy
  exact hij

/-- There is one list of these inclusions in the order of the text. -/
theorem eq_hits (ht : t.IsParsed) {found : List (SymbolId × Declaration)}
    (horder : (found.map Prod.fst).Pairwise t.StartsBefore)
    (hmem : ∀ i d, (i, d) ∈ found ↔ v.Exposes t e name i d) : found = v.hits t e name := by
  have hnodup : ∀ {l : List (SymbolId × Declaration)},
      (l.map Prod.fst).Pairwise t.StartsBefore → l.Nodup := by
    intro l hl
    refine (List.pairwise_map.1 hl).imp fun hab heq => ?_
    rw [heq] at hab
    exact hab.not_symm hab
  have hperm : found.Perm (v.hits t e name) := by
    refine (List.perm_ext_iff_of_nodup (hnodup horder) (hnodup (hits_ordered ht))).2 fun x => ?_
    rw [hmem, mem_hits_iff]
  refine hperm.eq_of_pairwise (fun a b _ _ hab hba => ?_) (List.pairwise_map.1 horder)
    (List.pairwise_map.1 (hits_ordered ht))
  exact absurd hba hab.not_symm

/-! ### The chain -/

/-- Neither the overlay nor a block that it includes declares the name. -/
structure Undeclared (v : Workspace σ) (t : SymbolTree) (e : SymbolId) (name : String) : Prop where
  noVariable : ∀ i, ¬t.StandsWithin e .dataArea [.var] name i
  noProcedure : ∀ i, ¬t.Stands (some e) [.proc] name i
  noInclusion : ∀ i d, ¬v.Exposes t e name i d

/-- What the token of this name comes to, at a position in the file of a tree. -/
inductive ComesTo (v : Workspace σ) (t : SymbolTree) (p : Position) (name : String) :
    Resolution → Prop
  /-- The first variable of the name in the data areas of the overlay around the position. -/
  | ofVariable {e : SymbolId} {d : Declaration} (around : t.Around p e)
      (first : d.IsFirst t (t.StandsWithin e .dataArea [.var] name)) : ComesTo v t p name (.found d)
  /-- Without one, the first procedure of that overlay. -/
  | ofProcedure {e : SymbolId} {d : Declaration} (around : t.Around p e)
      (noVariable : ∀ i, ¬t.StandsWithin e .dataArea [.var] name i)
      (first : d.IsFirst t (t.Stands (some e) [.proc] name)) : ComesTo v t p name (.found d)
  /-- Without either, what its inclusions declare, one declaration for each that declares one. -/
  | ofInclusions {e : SymbolId} {found : List (SymbolId × Declaration)} (around : t.Around p e)
      (noVariable : ∀ i, ¬t.StandsWithin e .dataArea [.var] name i)
      (noProcedure : ∀ i, ¬t.Stands (some e) [.proc] name i)
      (ordered : (found.map Prod.fst).Pairwise t.StartsBefore)
      (complete : ∀ i d, (i, d) ∈ found ↔ v.Exposes t e name i d) (nonempty : found ≠ []) :
      ComesTo v t p name (.ofList (found.map Prod.snd))
  /-- Without any of these, the block on whose name in an inclusion the position is. -/
  | ofBlock {target : InclusionTarget} {d : Declaration}
      (undeclared : ∀ e, t.Around p e → v.Undeclared t e name) (on : t.OnBlockName p target)
      (block : v.IsBlock target t.file d) : ComesTo v t p name (.found d)
  /-- Otherwise the overlay of the name, if the overlay around the position lists it. -/
  | ofOverlay {e i : SymbolId} {d : Declaration} (around : t.Around p e)
      (undeclared : v.Undeclared t e name)
      (noBlock : ∀ target d, t.OnBlockName p target → ¬v.IsBlock target t.file d)
      (listed : t.StandsWithin e .ext [.overlayRef] name i) (overlay : v.IsOverlay name d) :
      ComesTo v t p name (.found d)
  /-- If no place has it, it is not found. -/
  | nowhere (undeclared : ∀ e, t.Around p e → v.Undeclared t e name)
      (noBlock : ∀ target d, t.OnBlockName p target → ¬v.IsBlock target t.file d)
      (noOverlay : ∀ e i d, t.Around p e → t.StandsWithin e .ext [.overlayRef] name i →
        ¬v.IsOverlay name d) : ComesTo v t p name .notFound

/-- What the position of a file comes to. -/
inductive Resolves (v : Workspace σ) (f : FileId) (p : Position) : Resolution → Prop
  | noToken (token : v.tokenOf f p = none) : Resolves v f p .notFound
  | token {name : String} {r : Resolution} (token : v.tokenOf f p = some name)
      (comesTo : v.ComesTo (v.treeOf f) p name r) : Resolves v f p r

/-! ### Each place by its answer -/

theorem declaredOf_of_variable (ht : t.IsParsed)
    (h : d.IsFirst t (t.StandsWithin e .dataArea [.var] name)) :
    v.declaredOf t e name = .found d := by
  have hpicks : t.findVariable? e name = some d.id :=
    ((ht.picks_findWithin? e .dataArea [.var] name).some_iff d.id).2 h.2
  rw [declaredOf, hpicks, Option.some_or]
  show Resolution.ofOption (Declaration.of? t d.id) = .found d
  rw [Declaration.of?_eq_some_iff.2 ⟨h.1, rfl⟩]
  rfl

theorem findVariable?_of_none (ht : t.IsParsed)
    (h : ∀ i, ¬t.StandsWithin e .dataArea [.var] name i) : t.findVariable? e name = none :=
  (ht.picks_findWithin? e .dataArea [.var] name).none_iff.2 h

theorem declaredOf_of_procedure (ht : t.IsParsed)
    (hvar : ∀ i, ¬t.StandsWithin e .dataArea [.var] name i)
    (h : d.IsFirst t (t.Stands (some e) [.proc] name)) : v.declaredOf t e name = .found d := by
  have hpicks : t.findProc? e name = some d.id :=
    ((ht.picks_findChild? e [.proc] name).some_iff d.id).2 h.2
  rw [declaredOf, findVariable?_of_none ht hvar, hpicks, Option.none_or]
  show Resolution.ofOption (Declaration.of? t d.id) = .found d
  rw [Declaration.of?_eq_some_iff.2 ⟨h.1, rfl⟩]
  rfl

theorem declaredOf_of_inclusions (ht : t.IsParsed)
    (hvar : ∀ i, ¬t.StandsWithin e .dataArea [.var] name i)
    (hproc : ∀ i, ¬t.Stands (some e) [.proc] name i) :
    v.declaredOf t e name = .ofList ((v.hits t e name).map Prod.snd) := by
  have hpicks : t.findProc? e name = none := (ht.picks_findChild? e [.proc] name).none_iff.2 hproc
  rw [declaredOf, findVariable?_of_none ht hvar, hpicks, Option.none_or, map_snd_hits]

theorem declaredOf_of_undeclared (ht : t.IsParsed) (h : v.Undeclared t e name) :
    v.declaredOf t e name = .notFound := by
  have hnil : v.hits t e name = [] :=
    List.eq_nil_iff_forall_not_mem.2 fun x hx => h.noInclusion x.1 x.2 (mem_hits_iff.1 hx)
  rw [declaredOf_of_inclusions ht h.noVariable h.noProcedure, hnil]
  rfl

theorem blockAtOf_of_block (ht : t.IsParsed) (hon : t.OnBlockName p target)
    (h : v.IsBlock target t.file d) : v.blockAtOf t p = .found d := by
  rw [blockAtOf, ht.inclusionAt?_eq_some_iff.2 hon, Option.bind_some, blockOf_eq_some_iff.2 h]
  rfl

theorem blockAtOf_of_none (ht : t.IsParsed)
    (h : ∀ target d, t.OnBlockName p target → ¬v.IsBlock target t.file d) :
    v.blockAtOf t p = .notFound := by
  have hnone : ((t.inclusionAt? p).bind fun target => v.blockOf target t.file) = none := by
    rw [Option.eq_none_iff_forall_ne_some]
    intro d hd
    obtain ⟨target, hon, hblock⟩ := Option.bind_eq_some_iff.1 hd
    exact h target d (ht.inclusionAt?_eq_some_iff.1 hon) (blockOf_eq_some_iff.1 hblock)
  rw [blockAtOf, hnone]
  rfl

theorem isParsed_of_mem_sourceTrees {u : SymbolTree} (h : u ∈ v.sourceTrees) : u.IsParsed := by
  obtain ⟨path, -, rfl⟩ := List.mem_map.1 h
  exact isParsed_treeOf _ _

theorem findOverlay_eq_some_iff :
    (v.sourceTrees.findSome? fun u => (u.findRoot? .entry name).bind (Declaration.of? u)) = some d ↔
      v.IsOverlay name d := by
  have hroot : ∀ u ∈ v.sourceTrees, u.Picks (u.Stands none [.entry] name) (u.findRoot? .entry name) :=
    fun u hu => (isParsed_of_mem_sourceTrees hu).picks_findRoot? .entry name
  rw [List.findSome?_eq_some_iff]
  refine exists_congr fun before => exists_congr fun u => exists_congr fun after => ?_
  constructor
  · rintro ⟨htrees, hd, hbefore⟩
    refine ⟨htrees, fun x hx => ?_, ((hroot u (by simp [htrees])).bind_of?).1 hd⟩
    exact ((hroot x (by simp [htrees, hx])).bind_of?_eq_none fun _ hi => hi.exists_symbol).1
      (hbefore x hx)
  · rintro ⟨htrees, hbefore, hd⟩
    refine ⟨htrees, ((hroot u (by simp [htrees])).bind_of?).2 hd, fun x hx => ?_⟩
    exact ((hroot x (by simp [htrees, hx])).bind_of?_eq_none fun _ hi => hi.exists_symbol).2
      (hbefore x hx)

theorem overlayOf_eq (ht : t.IsParsed) {i : SymbolId}
    (h : t.StandsWithin e .ext [.overlayRef] name i) :
    v.overlayOf t e name = .ofOption (v.sourceTrees.findSome? fun u =>
      (u.findRoot? .entry name).bind (Declaration.of? u)) := by
  have hpicks := ht.picks_findWithin? e .ext [.overlayRef] name
  cases hfind : t.findOverlayRef? e name with
  | none => exact absurd h (hpicks.none_iff.1 hfind i)
  | some k => rw [overlayOf, hfind, Option.bind_some]

theorem overlayOf_of_none (ht : t.IsParsed)
    (h : ∀ i d, t.StandsWithin e .ext [.overlayRef] name i → ¬v.IsOverlay name d) :
    v.overlayOf t e name = .notFound := by
  have hpicks := ht.picks_findWithin? e .ext [.overlayRef] name
  cases hfind : t.findOverlayRef? e name with
  | none => rw [overlayOf, hfind]; rfl
  | some k =>
      have hk := (hpicks.some_iff k).1 hfind
      have hnone : (v.sourceTrees.findSome? fun u =>
          (u.findRoot? .entry name).bind (Declaration.of? u)) = none := by
        rw [Option.eq_none_iff_forall_ne_some]
        intro d hd
        exact h k d hk.1 (findOverlay_eq_some_iff.1 hd)
      rw [overlayOf_eq ht hk.1, hnone]
      rfl

/-! ### All places in turn -/

theorem elim_entryAt? (ht : t.IsParsed) (h : t.Around p e) {α : Type} (none : α)
    (some : SymbolId → α) : (t.entryAt? p).elim none some = some e := by
  rw [ht.entryAt?_eq_some_iff.2 h]
  rfl

theorem declared_of_undeclared (ht : t.IsParsed)
    (h : ∀ e, t.Around p e → v.Undeclared t e name) :
    (t.entryAt? p).elim .notFound (v.declaredOf t · name) = .notFound := by
  cases hentry : t.entryAt? p with
  | none => rfl
  | some e => exact declaredOf_of_undeclared ht (h e (ht.entryAt?_eq_some_iff.1 hentry))

/-- What a token comes to is what the chain ends in. -/
theorem ComesTo.eq_chainOf (ht : t.IsParsed) {r : Resolution} (h : v.ComesTo t p name r) :
    r = v.chainOf t p name := by
  unfold chainOf
  cases h with
  | ofVariable around first =>
      rw [elim_entryAt? ht around, declaredOf_of_variable ht first]
      rfl
  | ofProcedure around noVariable first =>
      rw [elim_entryAt? ht around, declaredOf_of_procedure ht noVariable first]
      rfl
  | @ofInclusions e found around noVariable noProcedure ordered complete nonempty =>
      rw [elim_entryAt? ht around, declaredOf_of_inclusions ht noVariable noProcedure,
        ← eq_hits ht ordered complete]
      rcases found with _ | ⟨x, _ | ⟨y, rest⟩⟩
      · exact absurd rfl nonempty
      · rfl
      · rfl
  | ofBlock undeclared on block =>
      rw [declared_of_undeclared ht undeclared, blockAtOf_of_block ht on block]
      rfl
  | ofOverlay around undeclared noBlock listed overlay =>
      rw [elim_entryAt? ht around, declaredOf_of_undeclared ht undeclared,
        blockAtOf_of_none ht noBlock, elim_entryAt? ht around, overlayOf_eq ht listed,
        findOverlay_eq_some_iff.2 overlay]
      rfl
  | nowhere undeclared noBlock noOverlay =>
      rw [declared_of_undeclared ht undeclared, blockAtOf_of_none ht noBlock]
      cases hentry : t.entryAt? p with
      | none => rfl
      | some e =>
          have around := ht.entryAt?_eq_some_iff.1 hentry
          exact (overlayOf_of_none ht fun i d => noOverlay e i d around).symm

/-- An overlay that declares the name, or includes a block that does, decides. -/
theorem exists_comesTo_of_around (ht : t.IsParsed) (v : Workspace σ) (haround : t.Around p e)
    (h : ¬v.Undeclared t e name) : ∃ r, v.ComesTo t p name r := by
  by_cases hvar : ∃ i, t.StandsWithin e .dataArea [.var] name i
  · obtain ⟨i, hi⟩ := hvar
    obtain ⟨d, hd⟩ := (ht.picks_findWithin? e .dataArea [.var] name).exists_isFirst
      (fun _ hi => hi.exists_symbol) hi
    exact ⟨_, .ofVariable haround hd⟩
  · by_cases hproc : ∃ i, t.Stands (some e) [.proc] name i
    · obtain ⟨i, hi⟩ := hproc
      obtain ⟨d, hd⟩ := (ht.picks_findChild? e [.proc] name).exists_isFirst
        (fun _ hi => hi.exists_symbol) hi
      exact ⟨_, .ofProcedure haround (not_exists.1 hvar) hd⟩
    · refine ⟨_, .ofInclusions haround (not_exists.1 hvar) (not_exists.1 hproc) (hits_ordered ht)
        (fun _ _ => mem_hits_iff) fun hnil => h ⟨not_exists.1 hvar, not_exists.1 hproc, ?_⟩⟩
      intro i d hexposes
      rw [← mem_hits_iff, hnil] at hexposes
      cases hexposes

/-- Every token comes to something. -/
theorem exists_comesTo (ht : t.IsParsed) (v : Workspace σ) (p : Position) (name : String) :
    ∃ r, v.ComesTo t p name r := by
  by_cases hundeclared : ∀ e, t.Around p e → v.Undeclared t e name
  · by_cases hblock : ∃ target d, t.OnBlockName p target ∧ v.IsBlock target t.file d
    · obtain ⟨target, d, hon, hd⟩ := hblock
      exact ⟨_, .ofBlock hundeclared hon hd⟩
    · have hnoBlock : ∀ target d, t.OnBlockName p target → ¬v.IsBlock target t.file d :=
        fun target d hon hd => hblock ⟨target, d, hon, hd⟩
      by_cases hoverlay : ∃ e i d, t.Around p e ∧ t.StandsWithin e .ext [.overlayRef] name i ∧
          v.IsOverlay name d
      · obtain ⟨e, i, d, haround, hlisted, hd⟩ := hoverlay
        exact ⟨_, .ofOverlay haround (hundeclared e haround) hnoBlock hlisted hd⟩
      · exact ⟨_, .nowhere hundeclared hnoBlock fun e i d haround hlisted hd =>
          hoverlay ⟨e, i, d, haround, hlisted, hd⟩⟩
  · simp only [not_forall] at hundeclared
    obtain ⟨e, haround, hdeclared⟩ := hundeclared
    exact exists_comesTo_of_around ht v haround hdeclared

theorem comesTo_iff (ht : t.IsParsed) {r : Resolution} :
    v.ComesTo t p name r ↔ r = v.chainOf t p name := by
  constructor
  · exact fun h => h.eq_chainOf ht
  · intro hr
    obtain ⟨r', h⟩ := exists_comesTo ht v p name
    rw [hr, ← h.eq_chainOf ht]
    exact h

theorem resolves_iff {r : Resolution} : v.Resolves f p r ↔ r = v.resolveOf f p := by
  unfold resolveOf
  constructor
  · intro h
    cases h with
    | noToken token => rw [token]; rfl
    | token token comesTo => rw [token]; exact comesTo.eq_chainOf (v.isParsed_treeOf f)
  · intro hr
    cases htoken : v.tokenOf f p with
    | none => rw [hr, htoken]; exact .noToken htoken
    | some name =>
        rw [htoken] at hr
        exact .token htoken ((comesTo_iff (v.isParsed_treeOf f)).2 hr)

/-- **Looking a token up answers what the source and the files' numbers make of it**, and leaves a
current workspace. -/
theorem Current.resolve_eq {w : Workspace σ} (h : w.Current) (f : FileId) (p : Position) :
    (after (resolve f p) w).Current ∧ Later w (after (resolve f p) w) ∧
      answer (resolve f p) w = (after (resolve f p) w).resolveOf f p := by
  cases hf : w.path? f with
  | some q =>
      obtain ⟨hcurrent, hlater, hanswer⟩ := reads_resolve f p w h ⟨q, hf⟩
      exact ⟨hcurrent, hlater, hanswer _ hcurrent (.refl _)⟩
  | none =>
      obtain ⟨hanswer, hafter⟩ := resolve_of_unknown hf p
      have htext : w.textOf f = none := by rw [textOf, hf]; rfl
      rw [hanswer, hafter]
      refine ⟨h, .refl w, ?_⟩
      rw [resolveOf, tokenOf, htext]
      rfl

end Workspace

open Workspace

/-- **A token comes to what the chain of places makes of it.**  In a workspace whose kept trees are
those of the texts, looking up the token at any position of any file leads to a later workspace with
the same source, at most one overlay is around the position there, and the answer is the one thing
that the token comes to. -/
theorem resolve_follows_chain {σ : Type} [Source σ] {w : Workspace σ} (h : w.Current) (f : FileId)
    (p : Position) :
    (after (resolve f p) w).Current ∧ Later w (after (resolve f p) w) ∧
      (∀ i j, ((after (resolve f p) w).treeOf f).Around p i →
        ((after (resolve f p) w).treeOf f).Around p j → i = j) ∧
      ∀ r, (after (resolve f p) w).Resolves f p r ↔ r = answer (resolve f p) w := by
  obtain ⟨hcurrent, hlater, hanswer⟩ := h.resolve_eq f p
  refine ⟨hcurrent, hlater, fun i j hi hj => ?_, fun r => ?_⟩
  · exact (isParsed_treeOf _ f).around_unique hi hj
  · rw [hanswer]
    exact resolves_iff

/-- An overlay that includes two blocks, of which the one stands in another file and the other in
its own; both declare `TOTAL`. -/
def twoBlocks : MemorySource :=
  (MemorySource.empty.insert ⟨"lib/STOCK.rtm"⟩ "$NAME COUNT\nTOTAL N5\n").insert ⟨"ORD.rtm"⟩
    "$ENTRY ORD\n$INCLUDE STOCK(COUNT)\n$INCLUDE *(SUM)\n$PROG\nX = TOTAL\n$NAME SUM\nTOTAL A3\n"

/-- The workspace over these blocks in which the overlay's file has a number. -/
def twoBlocksWorkspace : Workspace MemorySource :=
  after (fileId ⟨"ORD.rtm"⟩) (Workspace.ofSource twoBlocks .standard)

/-- All that an answer names. -/
def Resolution.declarations : Resolution → List Declaration
  | .found d => [d]
  | .ambiguous ds => ds
  | .notFound => []

theorem two_blocks_are_ambiguous :
    twoBlocksWorkspace.Current ∧
      ((answer (resolve ⟨0⟩ ⟨4, 6⟩) twoBlocksWorkspace).declarations.map fun d => (d.file, d.id)) =
        [(⟨1⟩, 1), (⟨0⟩, 5)] ∧
      ∀ r, (after (resolve ⟨0⟩ ⟨4, 6⟩) twoBlocksWorkspace).Resolves ⟨0⟩ ⟨4, 6⟩ r ↔
        r = answer (resolve ⟨0⟩ ⟨4, 6⟩) twoBlocksWorkspace := by
  have hcurrent : twoBlocksWorkspace.Current :=
    ((Current.ofSource twoBlocks.calm .standard).after_fileId _).1
  exact ⟨hcurrent, by decide +kernel, (resolve_follows_chain hcurrent ⟨0⟩ ⟨4, 6⟩).2.2.2⟩

end OverlayIndex
