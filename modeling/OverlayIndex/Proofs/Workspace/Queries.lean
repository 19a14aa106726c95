/-
The queries of a workspace, taken together.

A query is put together from four works: to search for paths, to number a path that was found, to
read the text of a file and to get its tree.  Whatever these four keep of a workspace, every query
keeps.  To speak of all answers at once they are made one type, with the names that files go by as
a parameter.
-/
import OverlayIndex.Editor.Navigation
import OverlayIndex.Editor.Outline
import OverlayIndex.Editor.Ranges
import OverlayIndex.Proofs.Workspace.Runs

namespace OverlayIndex

/-- What can be asked about a file. -/
inductive Query where
  | outline
  | folds
  | selections (p : Position)
  | symbols (query : String)
  | definition (p : Position)
  | resolve (p : Position)
  | references (p : Position)
  | links
  | logicalName (name : String)
  deriving DecidableEq, Repr

/-- A declaration: the number of a symbol in the forest of a file. -/
structure Site (φ : Type) where
  file : φ
  forest : Forest Symbol
  id : SymbolId
  deriving DecidableEq, Repr

/-- An answer in which files go by names from `φ`. -/
inductive Answer (φ : Type) where
  | outline (symbols : Forest Symbol)
  | folds (folds : List Fold)
  | selections (extents : List Extent)
  | symbols (found : List (φ × Symbol × Option String))
  | definition (site : Option (Site φ))
  | found (site : Site φ)
  | ambiguous (sites : List (Site φ))
  | notFound
  | references (uses : List (φ × Extent))
  | links (links : List (φ × Extent × Extent × String))
  | trees (trees : List (φ × Forest Symbol))
  deriving DecidableEq, Repr

/-- The site with its file under another name. -/
def Site.map {φ ψ : Type} (g : φ → ψ) (s : Site φ) : Site ψ :=
  ⟨g s.file, s.forest, s.id⟩

def Declaration.site (d : Declaration) : Site FileId :=
  ⟨d.file, d.tree.forest, d.id⟩

namespace Answer

/-- The answer with files under other names. -/
def map {φ ψ : Type} (g : φ → ψ) : Answer φ → Answer ψ
  | .outline f => .outline f
  | .folds xs => .folds xs
  | .selections xs => .selections xs
  | .symbols xs => .symbols (xs.map fun x => (g x.1, x.2))
  | .definition site => .definition (site.map (Site.map g))
  | .found site => .found (site.map g)
  | .ambiguous sites => .ambiguous (sites.map (Site.map g))
  | .notFound => .notFound
  | .references xs => .references (xs.map fun x => (g x.1, x.2))
  | .links xs => .links (xs.map fun x => (g x.1, x.2))
  | .trees xs => .trees (xs.map fun x => (g x.1, x.2))

theorem map_id {φ : Type} (a : Answer φ) : a.map id = a := by
  have hsite : (Site.map id : Site φ → Site φ) = id := rfl
  cases a <;> simp [map, hsite]

def ofResolution : Resolution → Answer FileId
  | .found d => found d.site
  | .ambiguous ds => ambiguous (ds.map Declaration.site)
  | .notFound => notFound

end Answer

namespace Workspace

variable {σ α β : Type}

/-- The components of a file's path. -/
def components? (w : Workspace σ) (f : FileId) : Option (List Component) :=
  (w.path? f).map Path.components

/-- What the work answers, with every file under the components of its path. -/
def answerByPath (x : WorkspaceM σ (Answer FileId)) (w : Workspace σ) :
    Answer (Option (List Component)) :=
  (answer x w).map (after x w).components?

/-- The work leads from workspaces of this sort to workspaces of this sort. -/
def Keeps (I : Workspace σ → Prop) (x : WorkspaceM σ α) : Prop :=
  ∀ w, I w → I (after x w)

namespace Keeps

variable {I : Workspace σ → Prop} {x : WorkspaceM σ α}

theorem pure (a : α) : Keeps I (Pure.pure a : WorkspaceM σ α) :=
  fun _ hw => hw

theorem bind {k : α → WorkspaceM σ β} (hx : Keeps I x) (hk : ∀ a, Keeps I (k a)) :
    Keeps I (x >>= k) :=
  fun w hw => hk _ _ (hx w hw)

theorem get_bind {k : Workspace σ → WorkspaceM σ β} (hk : ∀ w, Keeps I (k w)) :
    Keeps I (get >>= k) :=
  fun w hw => hk w w hw

theorem mapM {k : α → WorkspaceM σ β} :
    ∀ as : List α, (∀ a ∈ as, Keeps I (k a)) → Keeps I (as.mapM k) := by
  intro as
  induction as with
  | nil =>
      intro _
      rw [List.mapM_nil]
      exact .pure _
  | cons a as ih =>
      intro hk
      rw [List.mapM_cons]
      refine (hk a (by simp)).bind fun _ => ?_
      exact (ih fun b hb => hk b (by simp [hb])).bind fun _ => .pure _

theorem orElse {r : Resolution} {next : WorkspaceM σ Resolution} (h : Keeps I next) :
    Keeps I (r.orElse next) := by
  cases r with
  | notFound => exact h
  | found d => exact .pure _
  | ambiguous ds => exact .pure _

end Keeps

/-! ### Queries -/

variable [Source σ]

/-- Asks about a file. -/
def ask : Query → FileId → WorkspaceM σ (Answer FileId)
  | .outline, f => return .outline (← outline f)
  | .folds, f => return .folds (← folds f)
  | .selections p, f => return .selections (← selections f p)
  | .symbols query, _ => return .symbols ((← searchSymbols query).map fun s =>
      (s.file, s.symbol, s.container))
  | .definition p, f => return .definition ((← definition f p).map Declaration.site)
  | .resolve p, f => return .ofResolution (← resolve f p)
  | .references p, f => return .references ((← references f p).map fun l => (l.file, l.range))
  | .links, f => return .links ((← links f).map fun l =>
      (l.targetFile, l.range, l.targetRange, l.tooltip))
  | .logicalName name, f => return .trees ((← treesOfLogicalName name f).map fun t =>
      (t.file, t.forest))

/-- A file that has no number has no token, and nothing is done about it. -/
theorem resolve_of_unknown {w : Workspace σ} {f : FileId} (hf : w.path? f = none) (p : Position) :
    answer (resolve f p) w = .notFound ∧ after (resolve f p) w = w := by
  have htoken : answer (tokenAt f p) w = none := by
    rw [tokenAt, answer_bind, answer_text_of_unknown hf]
    rfl
  have hafter : after (tokenAt f p) w = w := after_text_of_unknown hf
  unfold resolve
  rw [answer_bind, after_bind, htoken, hafter]
  exact ⟨rfl, rfl⟩

/-- What is asked of a workspace: the number of a path, or a query about a file. -/
inductive Question where
  | number (p : Path)
  | about (q : Query) (f : FileId)

/-- What a question leaves. -/
def pose (w : Workspace σ) : Question → Workspace σ
  | .number p => after (fileId p) w
  | .about q f => after (ask q f) w

/-- What questions leave, one after the other. -/
def poseAll (w : Workspace σ) (asked : List Question) : Workspace σ :=
  asked.foldl pose w

/-- The four works that queries are made of keep the workspace of this sort.  Paths are numbered
that the source lists, and `L` is what is known of these. -/
structure Invariant (I : Workspace σ → Prop) (L : Path → Prop) : Prop where
  find : ∀ pattern, Keeps I (find pattern)
  listed : ∀ w, I w → ∀ pattern paths, Source.find w.source pattern = .ok paths → ∀ p ∈ paths, L p
  fileId : ∀ p, L p → Keeps I (fileId p)
  text : ∀ f, Keeps I (text f)
  tree : ∀ f, Keeps I (tree f)

namespace Invariant

variable {I : Workspace σ → Prop} {L : Path → Prop} (h : Invariant I L)
include h

theorem find_bind (pattern : FilePattern) {k : Except SourceError (List Path) → WorkspaceM σ β}
    (hk : ∀ found, (∀ paths, found = .ok paths → ∀ p ∈ paths, L p) → Keeps I (k found)) :
    Keeps I (Workspace.find pattern >>= k) :=
  fun w hw => hk _ (h.listed w hw pattern) _ (h.find pattern w hw)

theorem treesOfLogicalName (name : String) (origin : FileId) :
    Keeps I (treesOfLogicalName name origin) := by
  unfold Workspace.treesOfLogicalName
  split
  · exact (h.tree origin).bind fun _ => .pure _
  · refine .get_bind fun w => ?_
    split
    · exact .pure _
    · refine h.find_bind _ fun found hfound => ?_
      split
      · exact ((h.fileId _ (hfound _ rfl _ (by simp))).bind h.tree).bind fun _ => .pure _
      · exact .pure _

theorem allTrees : Keeps I allTrees := by
  unfold Workspace.allTrees
  refine .get_bind fun w => h.find_bind _ fun found hfound => ?_
  split
  · exact .pure _
  · rename_i paths
    refine (Keeps.mapM paths fun p hp => h.fileId p (hfound paths rfl p hp)).bind fun files => ?_
    exact Keeps.mapM files fun f _ => h.tree f

theorem nameBlock (target : InclusionTarget) (origin : FileId) :
    Keeps I (nameBlock target origin) :=
  (h.treesOfLogicalName target.file origin).bind fun _ => .pure _

theorem findInEntry (t : SymbolTree) (entry : SymbolId) (name : String) :
    Keeps I (findInEntry t entry name) := by
  unfold Workspace.findInEntry
  split
  · exact .pure _
  · exact (Keeps.mapM _ fun target _ => (h.nameBlock target t.file).bind fun _ => .pure _).bind
      fun _ => .pure _

theorem findBlockAt (t : SymbolTree) (p : Position) : Keeps I (findBlockAt t p) := by
  unfold Workspace.findBlockAt
  split
  · exact (h.nameBlock _ _).bind fun _ => .pure _
  · exact .pure _

theorem findOverlay (t : SymbolTree) (entry : SymbolId) (name : String) :
    Keeps I (findOverlay t entry name) := by
  unfold Workspace.findOverlay
  split
  · exact .pure _
  · exact h.allTrees.bind fun _ => .pure _

theorem tokenAt (f : FileId) (p : Position) : Keeps I (tokenAt f p) :=
  (h.text f).bind fun _ => .pure _

theorem resolve (f : FileId) (p : Position) : Keeps I (resolve f p) := by
  unfold Workspace.resolve
  refine (h.tokenAt f p).bind fun token => ?_
  cases token with
  | none => exact .pure _
  | some name =>
      refine (h.tree f).bind fun t => ?_
      cases t.entryAt? p with
      | none =>
          exact (Keeps.pure _).bind fun _ => .orElse ((h.findBlockAt t p).bind fun _ =>
            .orElse (.pure _))
      | some e =>
          exact (h.findInEntry t e name).bind fun _ => .orElse ((h.findBlockAt t p).bind fun _ =>
            .orElse (h.findOverlay t e name))

theorem references (f : FileId) (p : Position) : Keeps I (references f p) := by
  refine ((h.resolve f p).bind fun _ => .pure _).bind fun d => ?_
  cases d with
  | none => exact .pure _
  | some d =>
      show Keeps I (referencesTo d)
      unfold referencesTo
      split
      · split
        · exact .pure _
        · refine (h.text d.file).bind fun text => ?_
          cases text with
          | error e => exact .pure _
          | ok s => exact .pure _
      · exact .pure _

theorem link (f : FileId) (s : Symbol) : Keeps I (link f s) := by
  unfold Workspace.link
  split
  · split
    · exact .pure _
    · exact (h.nameBlock _ f).bind fun _ => .pure _
  · exact .pure _

/-- What searching, numbering, reading and parsing keep, every query keeps. -/
theorem ask (q : Query) (f : FileId) : Keeps I (ask q f) := by
  cases q with
  | outline | folds | selections p =>
      exact ((h.tree f).bind fun _ => .pure _).bind fun _ => .pure _
  | symbols query => exact (h.allTrees.bind fun _ => .pure _).bind fun _ => .pure _
  | definition p => exact ((h.resolve f p).bind fun _ => .pure _).bind fun _ => .pure _
  | resolve p => exact (h.resolve f p).bind fun _ => .pure _
  | references p => exact (h.references f p).bind fun _ => .pure _
  | links =>
      exact ((h.tree f).bind fun t => (Keeps.mapM _ fun s _ => h.link f s).bind fun _ => .pure _).bind
        fun _ => .pure _
  | logicalName name => exact (h.treesOfLogicalName name f).bind fun _ => .pure _

end Invariant

end Workspace

end OverlayIndex
