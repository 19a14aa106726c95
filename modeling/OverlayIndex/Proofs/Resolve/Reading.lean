/-
What a token comes to, by the source alone.

`resolveOf` says of the source and the numbers of paths what the chain of look-ups for a token
ends in, with all files as they stand, and `reads_resolve` that this is what looking it up answers.
-/
import OverlayIndex.Proofs.Workspace.Readings

namespace OverlayIndex

/-- This answer, or the other one if nothing was found. -/
def Resolution.or : Resolution → Resolution → Resolution
  | .notFound, r => r
  | r, _ => r

namespace Workspace

variable {σ : Type} [Source σ] {P : Workspace σ → Prop}

/-- The token at a position of a file. -/
def tokenOf (w : Workspace σ) (f : FileId) (p : Position) : Option String :=
  (w.textOf f).bind fun s => textTokenAt? s.toList p

/-- The block that an inclusion in `origin` names. -/
def blockOf (w : Workspace σ) (target : InclusionTarget) (origin : FileId) : Option Declaration :=
  (w.logicalTree? target.file origin).bind fun t =>
    (t.findRoot? .name target.block).bind (Declaration.of? t)

/-- What an included block declares under this name. -/
def exposedOf (w : Workspace σ) (target : InclusionTarget) (origin : FileId) (name : String) :
    Option Declaration :=
  (w.blockOf target origin).bind fun b =>
    (b.tree.findChild? b.id [.proc, .var] name).bind (Declaration.of? b.tree)

/-- What an overlay declares under this name, by itself or by inclusion. -/
def declaredOf (w : Workspace σ) (t : SymbolTree) (entry : SymbolId) (name : String) : Resolution :=
  match (t.findVariable? entry name).or (t.findProc? entry name) with
  | some id => .ofOption (Declaration.of? t id)
  | none => .ofList ((t.inclusions entry).filterMap fun target => w.exposedOf target t.file name)

/-- The block on whose name in an inclusion the position is. -/
def blockAtOf (w : Workspace σ) (t : SymbolTree) (p : Position) : Resolution :=
  .ofOption ((t.inclusionAt? p).bind fun target => w.blockOf target t.file)

/-- The overlay of this name, if the overlay at hand lists it. -/
def overlayOf (w : Workspace σ) (t : SymbolTree) (entry : SymbolId) (name : String) : Resolution :=
  .ofOption ((t.findOverlayRef? entry name).bind fun _ =>
    w.sourceTrees.findSome? fun u => (u.findRoot? .entry name).bind (Declaration.of? u))

/-- What a token at a position of a tree's file comes to. -/
def chainOf (w : Workspace σ) (t : SymbolTree) (p : Position) (name : String) : Resolution :=
  ((t.entryAt? p).elim .notFound (w.declaredOf t · name)).or
    ((w.blockAtOf t p).or ((t.entryAt? p).elim .notFound (w.overlayOf t · name)))

/-- What the token at a position comes to. -/
def resolveOf (w : Workspace σ) (f : FileId) (p : Position) : Resolution :=
  (w.tokenOf f p).elim .notFound (w.chainOf (w.treeOf f) p)

theorem reads_tokenAt (f : FileId) (p : Position) :
    Reads (·.Knows f) (tokenAt f p : WorkspaceM σ (Option String)) fun v => v.tokenOf f p :=
  (reads_text f).map fun text => text.bind fun s => textTokenAt? s.toList p

theorem reads_nameBlock (target : InclusionTarget) (origin : FileId) :
    Reads (·.Knows origin) (nameBlock target origin : WorkspaceM σ (Option Declaration))
      fun v => v.blockOf target origin := by
  refine ((reads_treesOfLogicalName (σ := σ) target.file origin).map fun trees =>
    trees.findSome? fun t => (t.findRoot? .name target.block).bind (Declaration.of? t)).congr ?_
  intro w v _ _
  rw [blockOf]
  cases v.logicalTree? target.file origin with
  | none => rfl
  | some t => simp

theorem reads_exposed (target : InclusionTarget) (origin : FileId) (name : String) :
    Reads (·.Knows origin) (exposed target origin name : WorkspaceM σ (Option Declaration))
      fun v => v.exposedOf target origin name :=
  (reads_nameBlock target origin).map fun block => block.bind fun b =>
    (b.tree.findChild? b.id [.proc, .var] name).bind (Declaration.of? b.tree)

theorem reads_findInEntry (t : SymbolTree) (entry : SymbolId) (name : String) :
    Reads (·.Knows t.file) (findInEntry t entry name : WorkspaceM σ Resolution)
      fun v => v.declaredOf t entry name := by
  unfold findInEntry declaredOf
  cases (t.findVariable? entry name).or (t.findProc? entry name) with
  | some id => exact .pure _
  | none =>
      refine ((Reads.mapM (lasting_knows t.file) (t.inclusions entry) fun target _ =>
        reads_exposed target t.file name).map fun hits =>
          Resolution.ofList (hits.filterMap id)).congr ?_
      intro w v _ _
      rw [List.filterMap_map]
      rfl

theorem reads_findBlockAt (t : SymbolTree) (p : Position) :
    Reads (·.Knows t.file) (findBlockAt t p : WorkspaceM σ Resolution) fun v => v.blockAtOf t p := by
  unfold findBlockAt blockAtOf
  cases t.inclusionAt? p with
  | none => exact .pure _
  | some target => exact (reads_nameBlock target t.file).map Resolution.ofOption

theorem reads_findOverlay (t : SymbolTree) (entry : SymbolId) (name : String) :
    Reads (fun _ => True) (findOverlay t entry name : WorkspaceM σ Resolution)
      fun v => v.overlayOf t entry name := by
  unfold findOverlay overlayOf
  cases t.findOverlayRef? entry name with
  | none => exact .pure _
  | some i =>
      exact (reads_allTrees (σ := σ)).map fun trees => Resolution.ofOption <|
        trees.findSome? fun u => (u.findRoot? .entry name).bind (Declaration.of? u)

theorem Reads.orElse {next : WorkspaceM σ Resolution} {j : Workspace σ → Resolution}
    (r : Resolution) (h : Reads P next j) : Reads P (r.orElse next) fun v => r.or (j v) := by
  cases r with
  | notFound => exact h
  | found d => exact pure _
  | ambiguous ds => exact pure _

/-- The places that are asked after the overlay around the position. -/
theorem reads_elsewhere (t : SymbolTree) (entry : Option SymbolId) (name : String) (p : Position) :
    Reads (·.Knows t.file)
      (findBlockAt t p >>= fun r => r.orElse <| match entry with
        | some e => findOverlay t e name
        | none => pure .notFound : WorkspaceM σ Resolution)
      fun v => (v.blockAtOf t p).or (entry.elim .notFound (v.overlayOf t · name)) := by
  refine .bind (lasting_knows t.file) (reads_findBlockAt t p)
    (j := fun r (v : Workspace σ) => r.or (entry.elim .notFound (v.overlayOf t · name)))
    fun r => .orElse r ?_
  cases entry with
  | none => exact .pure _
  | some e => exact (reads_findOverlay t e name).mono fun _ _ => trivial

/-- **What a token comes to is read off the source.** -/
theorem reads_resolve (f : FileId) (p : Position) :
    Reads (·.Knows f) (resolve f p : WorkspaceM σ Resolution) fun v => v.resolveOf f p := by
  unfold resolve
  have hlasts := lasting_knows (σ := σ) f
  refine .bind hlasts (reads_tokenAt f p)
    (j := fun token (v : Workspace σ) => token.elim .notFound (v.chainOf (v.treeOf f) p))
    fun token => ?_
  cases token with
  | none => exact .pure _
  | some name =>
      refine .bind_of hlasts (reads_tree f) (Q := fun t => t.file = f) (file_treeOf · f)
        (j := fun t (v : Workspace σ) => v.chainOf t p name) fun t ht => ?_
      subst ht
      unfold chainOf
      cases t.entryAt? p with
      | none => exact .orElse .notFound (reads_elsewhere t none name p)
      | some e =>
          exact .bind hlasts (reads_findInEntry t e name) fun r =>
            .orElse r (reads_elsewhere t (some e) name p)

end Workspace

end OverlayIndex
