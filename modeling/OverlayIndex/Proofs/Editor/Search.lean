/-
The search for symbols by name.

A search goes through the trees of all source files in the order in which the source lists them, and
through each tree by number, and lists the symbols whose names hold the query when both are in lower
case.  Name and query are brought to lower case each by itself.  A symbol whose name holds the query
as it stands is therefore listed unless a capital sigma of the query takes another form in the name:
a query of which no text changes the form of a sigma finds every such symbol, and any other one
misses some text that holds it.
-/
import OverlayIndex.Editor.Outline
import OverlayIndex.Proofs.Text.LowerCase
import OverlayIndex.Proofs.Workspace.Readings
import OverlayIndex.Proofs.Parse.Preorder
import OverlayIndex.Proofs.Source.Listing
import Mathlib.Data.List.Forall2

namespace OverlayIndex

/-! ### One tree -/

theorem hasInfix_iff {part text : List Char} : hasInfix part text = true ↔ part <:+: text := by
  induction text with
  | nil => simp [hasInfix]
  | cons c cs ih => rw [hasInfix, Bool.or_eq_true, ih, List.infix_cons_iff, List.isPrefixOf_iff_prefix]

/-- A name matches a query if it holds the query. -/
theorem matchesQuery_iff {query name : List Char} :
    matchesQuery query name = true ↔ query <:+: name := by
  rw [matchesQuery, Bool.or_eq_true, hasInfix_iff, List.isEmpty_iff]
  constructor
  · rintro (rfl | h)
    · exact List.nil_infix
    · exact h
  · exact Or.inr

/-- A list that is filtered and mapped, by the places in it. -/
theorem map_filter_eq {α β : Type} (l : List α) (p : α → Bool) (g : α → β) :
    (l.filter p).map g =
      ((List.range l.length).filter fun i => l[i]?.any p).filterMap fun i => l[i]?.map g := by
  have hplaces : (List.range l.length).map (l[·]?) = l.map some :=
    List.ext_getElem (by simp) (by simp)
  calc (l.filter p).map g
      = ((l.map some).filter (·.any p)).filterMap (·.map g) := by
        rw [List.filter_map, List.filterMap_map, ← List.filterMap_eq_map]
        rfl
    _ = (((List.range l.length).map (l[·]?)).filter (·.any p)).filterMap (·.map g) := by
        rw [hplaces]
    _ = ((List.range l.length).filter fun i => l[i]?.any p).filterMap fun i => l[i]?.map g := by
        rw [List.filter_map, List.filterMap_map]
        rfl

namespace SymbolTree

/-- What is listed of the symbol of a number. -/
def found? (t : SymbolTree) (i : SymbolId) : Option FoundSymbol :=
  (t.get? i).map fun s => ⟨t.file, s, ((t.parent? i).bind t.get?).map (·.name)⟩

/-- The numbers of the symbols whose names, in lower case, hold the query in lower case. -/
def hits (t : SymbolTree) (query : String) : List SymbolId :=
  (List.range t.size).filter
    (t.satisfies fun s => lowerCase query.toList <:+: lowerCase s.name.toList)

/-- A search lists the hits by number. -/
theorem search_eq_hits (t : SymbolTree) (query : String) :
    t.search (lowerCase query.toList) = (t.hits query).filterMap t.found? := by
  have hsize : t.nodes.length = t.size := t.forest.length_nodesFrom 0 none
  have hhit : ∀ i, (t.nodes[i]?.any fun n => matchesQuery (lowerCase query.toList)
        (lowerCase n.value.name.toList)) =
      t.satisfies (fun s => lowerCase query.toList <:+: lowerCase s.name.toList) i := by
    intro i
    rw [satisfies, get?, node?_eq, Option.any_map]
    congr 1
    funext n
    rw [Bool.eq_iff_iff, matchesQuery_iff, decide_eq_true_eq]
  have hfound : ∀ i, (t.nodes[i]?.map fun n =>
      (⟨t.file, n.value, (n.parent.bind t.get?).map (·.name)⟩ : FoundSymbol)) = t.found? i := by
    intro i
    rw [found?, parent?, get?, node?_eq]
    cases t.nodes[i]? <;> rfl
  rw [search, map_filter_eq, hits, hsize]
  simp only [hhit, hfound]

/-- The empty query hits every symbol. -/
theorem hits_empty (t : SymbolTree) : t.hits "" = List.range t.size := by
  refine List.filter_eq_self.2 fun i hi => ?_
  obtain ⟨s, hs⟩ := lt_size_iff.1 (List.mem_range.1 hi)
  rw [satisfies, hs, Option.any_some, decide_eq_true_eq]
  exact List.nil_infix

/-- A symbol whose name matches is listed. -/
theorem exists_found {t : SymbolTree} {query : String} {i : SymbolId} {s : Symbol}
    (hs : t.get? i = some s) (hmatch : lowerCase query.toList <:+: lowerCase s.name.toList) :
    ∃ x, t.found? i = some x ∧ x ∈ (t.hits query).filterMap t.found? := by
  refine ⟨_, by rw [found?, hs]; rfl, List.mem_filterMap.2 ⟨i, ?_, by rw [found?, hs]; rfl⟩⟩
  refine List.mem_filter.2 ⟨List.mem_range.2 (lt_size_iff.2 ⟨s, hs⟩), ?_⟩
  rw [satisfies, hs, Option.any_some, decide_eq_true_eq]
  exact hmatch

end SymbolTree

/-! ### All trees -/

namespace Workspace

variable {σ : Type} [Source σ]

theorem files_hear (w : Workspace σ) (n : Notice) : (w.hear n).files = w.files := by
  cases n with
  | everything => rfl
  | changed p =>
      rw [hear, invalidatePath]
      split <;> rfl

theorem files_hears (notices : List Notice) (w : Workspace σ) :
    (notices.foldl hear w).files = w.files := by
  induction notices generalizing w with
  | nil => rfl
  | cons n notices ih => rw [List.foldl_cons, ih, files_hear]

/-- The tree of a file is that file's, and getting it leaves all numbers as they are. -/
theorem file_tree (f : FileId) (w : Workspace σ) :
    (answer (tree f) w).file = f ∧ (after (tree f) w).files = w.files := by
  have htext : (after (text f) w).files = w.files := by
    cases hp : w.path? f with
    | none => rw [after_text_of_unknown hp]
    | some p => rw [after_text_of_path hp, files_hears]
  cases hget : w.cache.get? f with
  | some t =>
      obtain ⟨hanswer, hafter⟩ := tree_of_hit hget
      rw [hanswer, hafter]
      have hfile := List.find?_some hget
      exact ⟨by simpa using hfile, rfl⟩
  | none =>
      cases hx : answer (text f) w with
      | error e =>
          obtain ⟨hanswer, hafter⟩ := tree_of_error hget hx
          rw [hanswer, hafter]
          exact ⟨rfl, htext⟩
      | ok x =>
          obtain ⟨hanswer, hafter⟩ := tree_of_ok hget hx
          rw [hanswer, hafter]
          exact ⟨rfl, htext⟩

theorem files_trees (files : List FileId) (w : Workspace σ) :
    (answer (files.mapM tree) w).map (·.file) = files ∧
      (after (files.mapM tree) w).files = w.files := by
  induction files generalizing w with
  | nil => exact ⟨rfl, rfl⟩
  | cons f files ih =>
      obtain ⟨hfile, hfiles⟩ := file_tree f w
      obtain ⟨hrest, hrest'⟩ := ih (after (tree f) w)
      rw [List.mapM_cons]
      exact ⟨congr (congrArg _ hfile) hrest, hrest'.trans hfiles⟩

/-- The number is that of the path, by whichever of its spellings. -/
def Numbers (w : Workspace σ) (p : Path) (f : FileId) : Prop :=
  ∃ q, w.path? f = some q ∧ q.same p = true

theorem numbers_fileIds (paths : List Path) (w : Workspace σ) :
    (List.Forall₂ (fun p f => (after (paths.mapM fileId) w).Numbers (Source.normalize w.source p) f)
      paths (answer (paths.mapM fileId) w)) ∧
      w.files.Extends (after (paths.mapM fileId) w).files := by
  induction paths generalizing w with
  | nil => exact ⟨.nil, .refl _⟩
  | cons p paths ih =>
      obtain ⟨hrest, hextends⟩ := ih (after (fileId p) w)
      rw [List.mapM_cons]
      refine ⟨.cons ?_ hrest, (w.files.extends_intern _).trans hextends⟩
      obtain ⟨q, hq, hsame⟩ := w.files.path?_intern (Source.normalize w.source p)
      exact ⟨q, hextends _ _ hq, hsame⟩

omit [Source σ] in
/-- Paths that differ have different numbers. -/
theorem nodup_of_numbers {w : Workspace σ} {g : Path → Path} {paths : List Path}
    {files : List FileId} (h : List.Forall₂ (fun p f => w.Numbers (g p) f) paths files)
    (hdiffer : paths.Pairwise fun p q => (g p).same (g q) = false) : files.Nodup := by
  have hlength := h.length_eq
  refine List.pairwise_iff_getElem.2 fun i j hi hj hij heq => ?_
  obtain ⟨q, hq, hsame⟩ := h.get (by omega) hi
  obtain ⟨q', hq', hsame'⟩ := h.get (by omega) hj
  rw [List.get_eq_getElem] at hq hq'
  rw [heq, hq'] at hq
  cases hq
  have hne := List.pairwise_iff_getElem.1 hdiffer i j (by omega) (by omega) hij
  rw [Path.same_iff] at hsame hsame'
  rw [← Bool.not_eq_true, Path.same_iff] at hne
  exact hne (hsame.symm.trans hsame')

theorem allTrees_of_error {w : Workspace σ} {e : SourceError}
    (h : Source.find w.source w.config.sourcePattern = .error e) : answer allTrees w = [] := by
  simp [allTrees, h]

/-- A path that the source lists, as it is numbered. -/
def listedAs (w : Workspace σ) (p : Path) : Path :=
  Source.normalize (Source.searched w.source w.config.sourcePattern) p

/-- There is a tree for each path that the source lists, in the same order. -/
theorem allTrees_of_ok {w : Workspace σ} {paths : List Path}
    (h : Source.find w.source w.config.sourcePattern = .ok paths) :
    List.Forall₂ (fun p t => (after allTrees w).Numbers (w.listedAs p) t.file) paths
      (answer allTrees w) := by
  have hanswer : ∀ v, v = after (find w.config.sourcePattern) w → answer allTrees w =
        answer ((answer (paths.mapM fileId) v).mapM tree) (after (paths.mapM fileId) v) ∧
      after allTrees w =
        after ((answer (paths.mapM fileId) v).mapM tree) (after (paths.mapM fileId) v) := by
    rintro v rfl
    simp [allTrees, h]
  obtain ⟨htrees, hafter⟩ := hanswer _ rfl
  obtain ⟨hfiles, hkeeps⟩ := files_trees
    (answer (paths.mapM fileId) (after (find w.config.sourcePattern) w))
    (after (paths.mapM fileId) (after (find w.config.sourcePattern) w))
  have hnumbers := (numbers_fileIds paths (after (find w.config.sourcePattern) w)).1
  rw [← hfiles, List.forall₂_map_right_iff, ← htrees] at hnumbers
  refine hnumbers.imp fun p t hnumber => ?_
  rw [Numbers, path?, hafter, hkeeps]
  exact hnumber

/-! ### The search -/

/-- What a search for the query lists in the workspace. -/
structure SearchLists (w : Workspace σ) (query : String) (found : List FoundSymbol) : Prop where
  /-- The hits are listed by file and, in a file, by number, each once. -/
  listed : found = (answer allTrees w).flatMap fun t => (t.hits query).filterMap t.found?
  /-- The files come in the order in which the source lists them. -/
  enumerated : ∀ paths, Source.find w.source w.config.sourcePattern = .ok paths →
    List.Forall₂ (fun p t => (after allTrees w).Numbers (w.listedAs p) t.file) paths
      (answer allTrees w)
  /-- No symbol of a file is hit twice if the source finds no path twice. -/
  once : Source.FindsOnce w.source →
    ((answer allTrees w).flatMap fun t => (t.hits query).map fun i => (t.file, i)).Nodup
  /-- Nothing is listed if the source cannot list its files. -/
  unlisted : ∀ e, Source.find w.source w.config.sourcePattern = .error e → found = []
  /-- The empty query lists every symbol. -/
  everything : query = "" →
    found = (answer allTrees w).flatMap fun t => (List.range t.size).filterMap t.found?
  /-- A symbol is listed whose name holds the query as it stands, if every capital sigma of the query
  has the same form there as by itself. -/
  literal : ∀ t ∈ answer allTrees w, ∀ i s, t.get? i = some s → ∀ before after,
    s.name.toList = before ++ (query.toList ++ after) → KeepsSigmas before query.toList after →
    ∃ x ∈ found, t.found? i = some x
  /-- A steady query lists every symbol whose name holds it as it stands. -/
  literal_of_steady : Steady query.toList → ∀ t ∈ answer allTrees w, ∀ i s, t.get? i = some s →
    query.toList <:+: s.name.toList → ∃ x ∈ found, t.found? i = some x
  /-- Of any other query there is a text that holds it and does not match it. -/
  missed : ¬ Steady query.toList → ∃ before after,
    ¬ lowerCase query.toList <:+: lowerCase (before ++ (query.toList ++ after))

/-- No file has two trees if the source finds no path twice. -/
theorem nodup_allTrees {w : Workspace σ} (h : Source.FindsOnce w.source) :
    ((answer allTrees w).map (·.file)).Nodup := by
  cases hfind : Source.find w.source w.config.sourcePattern with
  | error e =>
      rw [allTrees_of_error hfind]
      exact List.nodup_nil
  | ok paths =>
      exact nodup_of_numbers (List.forall₂_map_right_iff.2 (allTrees_of_ok hfind))
        (h _ _ hfind)

theorem nodup_hits {trees : List SymbolTree} (h : (trees.map (·.file)).Nodup) (query : String) :
    (trees.flatMap fun t => (t.hits query).map fun i => (t.file, i)).Nodup := by
  refine List.pairwise_flatMap.2 ⟨fun t _ => ?_, (List.pairwise_map.1 h).imp fun {t u} hne => ?_⟩
  · refine List.pairwise_map.2 ((List.nodup_range.filter _).imp fun hne heq => hne ?_)
    exact (Prod.mk.inj heq).2
  · rintro x hx y hy rfl
    obtain ⟨i, -, rfl⟩ := List.mem_map.1 hx
    obtain ⟨j, -, heq⟩ := List.mem_map.1 hy
    exact hne (Prod.mk.inj heq).1.symm

theorem searchLists (w : Workspace σ) (query : String) :
    w.SearchLists query (answer (searchSymbols query) w) := by
  have hlisted : answer (searchSymbols query) w =
      (answer allTrees w).flatMap fun t => (t.hits query).filterMap t.found? := by
    simp only [← SymbolTree.search_eq_hits]
    rfl
  have hfound : ∀ t ∈ answer allTrees w, ∀ i s, t.get? i = some s →
      lowerCase query.toList <:+: lowerCase s.name.toList →
      ∃ x ∈ answer (searchSymbols query) w, t.found? i = some x := by
    intro t ht i s hs hmatch
    obtain ⟨x, hx, hmem⟩ := SymbolTree.exists_found hs hmatch
    rw [hlisted]
    exact ⟨x, List.mem_flatMap.2 ⟨t, ht, hmem⟩, hx⟩
  refine ⟨hlisted, fun paths h => allTrees_of_ok h, fun h => nodup_hits (nodup_allTrees h) query,
    fun e h => ?_, fun hquery => ?_, fun t ht i s hs before after hname hkeeps => ?_,
    fun hsteady t ht i s hs hholds => ?_, fun hsteady => ?_⟩
  · rw [hlisted, allTrees_of_error h]
    rfl
  · rw [hlisted]
    refine List.flatMap_congr fun t _ => ?_
    rw [hquery, SymbolTree.hits_empty]
  · refine hfound t ht i s hs ?_
    rw [hname]
    exact hkeeps.infix_lowerCase
  · obtain ⟨before, after, hname⟩ := hholds
    refine hfound t ht i s hs ?_
    rw [← hname, List.append_assoc]
    exact (hsteady.keepsSigmas before after).infix_lowerCase
  · rw [steady_iff] at hsteady
    simpa using hsteady

end Workspace

open Workspace in
/-- **A search lists every symbol whose name holds the query as it stands, but for the forms of
sigma, and none twice, since neither texts in memory nor files on disk are found twice.** -/
theorem search_lists_literal_hits {σ : Type} [Source σ] (w : Workspace σ) (query : String) :
    w.SearchLists query (answer (searchSymbols query) w) ∧
      (∀ m : MemorySource, m.IsBuilt → Source.FindsOnce m) ∧
      ∀ fs root d, DiskSource.ofDirectory fs root = .ok d → Source.FindsOnce d := by
  refine ⟨w.searchLists query, fun m h => h.findsOnce, fun fs root d h => ?_⟩
  obtain ⟨hdir, rfl⟩ := DiskSource.ofDirectory_eq_ok_iff.1 h
  exact DiskSource.findsOnce hdir

/-- Two overlays, one whose name ends in a capital sigma and one whose name goes on behind it. -/
def sigmaText : String :=
  "$ENTRY AΣ\n$ENTRY AΣB\n"

/-- A workspace with this text in memory. -/
def sigmaWorkspace : Workspace MemorySource :=
  .ofSource (MemorySource.empty.insert ⟨"E.rtm"⟩ sigmaText) .standard

open Workspace in
theorem trees_sigmaWorkspace : answer allTrees sigmaWorkspace = [parse ⟨0⟩ sigmaText] := by
  decide +kernel

open Workspace in
/-- A query of a capital sigma alone misses the name that ends in one. -/
theorem final_sigma_is_missed :
    ¬ ∀ t ∈ answer allTrees sigmaWorkspace, ∀ i s, t.get? i = some s →
      "Σ".toList <:+: s.name.toList →
      ∃ x ∈ answer (searchSymbols "Σ") sigmaWorkspace, t.found? i = some x := by
  intro h
  rw [trees_sigmaWorkspace] at h
  have hs : (parse ⟨0⟩ sigmaText).get? 0 = some
      ⟨.entry, "AΣ", "$ENTRY AΣ", ⟨⟨0, 0⟩, ⟨0, 10⟩⟩, .onLine 0 7 10⟩ := by
    decide +kernel
  obtain ⟨x, hx, hfound⟩ := h _ List.mem_cons_self 0 _ hs (by decide)
  have hlist : answer (searchSymbols "Σ") sigmaWorkspace =
      ((parse ⟨0⟩ sigmaText).found? 1).toList := by
    decide +kernel
  have hdiffer : (parse ⟨0⟩ sigmaText).found? 0 ≠ (parse ⟨0⟩ sigmaText).found? 1 := by
    decide +kernel
  rw [hlist, Option.mem_toList] at hx
  exact hdiffer (hfound.trans hx.symm)

open Workspace in
/-- A capital sigma with a letter behind it is steady and finds the name that goes on, and no symbol
is hit twice. -/
theorem steady_sigma_is_found :
    Steady "ΣB".toList ∧
      (∃ x ∈ answer (searchSymbols "ΣB") sigmaWorkspace,
        (parse ⟨0⟩ sigmaText).found? 1 = some x) ∧
      ((answer allTrees sigmaWorkspace).flatMap fun t =>
        (t.hits "ΣB").map fun i => (t.file, i)).Nodup := by
  obtain ⟨hsearch, hmemory, -⟩ := search_lists_literal_hits sigmaWorkspace "ΣB"
  have hsteady : Steady "ΣB".toList := by decide +kernel
  have hs : (parse ⟨0⟩ sigmaText).get? 1 = some
      ⟨.entry, "AΣB", "$ENTRY AΣB", ⟨⟨1, 0⟩, ⟨2, 0⟩⟩, .onLine 1 7 11⟩ := by
    decide +kernel
  refine ⟨hsteady, hsearch.literal_of_steady hsteady _ ?_ 1 _ hs (by decide),
    hsearch.once (hmemory _ (.insert .empty _ _))⟩
  rw [trees_sigmaWorkspace]
  exact List.mem_cons_self

end OverlayIndex
