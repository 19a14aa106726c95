/-
Links from inclusions.

A file has one link for each inclusion whose block exists, in the order of the text.  It leads where
going to the definition leads from the name of the block in the inclusion: there the token is the
name of the block, since parentheses stand on both sides of it, and if nothing that the overlay
declares or includes has this name, the next place to be asked is the inclusion itself.

Both answers name files by their numbers, so they are compared in a workspace that comes after both
questions, in whatever order they were asked.
-/
import OverlayIndex.Proofs.Resolve.Inclusions

namespace OverlayIndex

/-- Where the name of the block stands in an inclusion of this target. -/
def Symbol.blockRange (s : Symbol) (target : InclusionTarget) : Extent :=
  .onLine s.selection.start.line (s.selection.start.col + target.blockOffset)
    (s.selection.start.col + target.blockOffset + byteLength target.block.toList)

/-- The symbol is an inclusion of this target. -/
structure SymbolTree.Includes (t : SymbolTree) (i : SymbolId) (s : Symbol)
    (target : InclusionTarget) : Prop where
  get? : t.get? i = some s
  kind : s.kind = .inclusion
  target : InclusionTarget.parse? s.name = some target

namespace Workspace

variable {σ : Type} [Source σ] {w v : Workspace σ} {t : SymbolTree} {f : FileId} {i : SymbolId}
  {target : InclusionTarget} {p : Position}

/-- The link from an inclusion of the tree to the block it names. -/
def IsLink (v : Workspace σ) (t : SymbolTree) (i : SymbolId) (l : Link) : Prop :=
  ∃ s target block, t.Includes i s target ∧ v.IsBlock target t.file block ∧
    l = ⟨s.selection, block.file, block.symbol.selection, "Go to $NAME " ++ target.block⟩

/-- The link of a symbol by the source as it stands. -/
def linkOf (v : Workspace σ) (f : FileId) (s : Symbol) : Option Link :=
  if s.kind = .inclusion then
    (InclusionTarget.parse? s.name).bind fun target =>
      (v.blockOf target f).map fun block =>
        ⟨s.selection, block.file, block.symbol.selection, "Go to $NAME " ++ target.block⟩
  else none

theorem reads_link (f : FileId) (s : Symbol) :
    Reads (·.Knows f) (link f s : WorkspaceM σ (Option Link)) fun v => v.linkOf f s := by
  unfold link linkOf
  by_cases hkind : s.kind = .inclusion
  · simp only [if_pos hkind]
    cases InclusionTarget.parse? s.name with
    | none => exact .pure none
    | some target => exact (reads_nameBlock target f).map _
  · simp only [if_neg hkind]
    exact .pure none

/-- **The links of a file are read off the source.** -/
theorem reads_links (f : FileId) :
    Reads (·.Knows f) (links f : WorkspaceM σ (List Link))
      fun v => (v.treeOf f).symbols.filterMap (v.linkOf f) := by
  refine (Reads.bind (lasting_knows f) (reads_tree f)
    (j := fun t (v : Workspace σ) => t.symbols.filterMap (v.linkOf f)) fun t => ?_)
  refine ((Reads.mapM (lasting_knows f) t.symbols fun s _ => reads_link f s).map
    (List.filterMap id)).congr fun w v _ _ => ?_
  rw [List.filterMap_map]
  rfl

theorem linkOf_eq_some_iff {s : Symbol} {l : Link} :
    v.linkOf f s = some l ↔ s.kind = .inclusion ∧ ∃ target block,
      InclusionTarget.parse? s.name = some target ∧ v.IsBlock target f block ∧
        l = ⟨s.selection, block.file, block.symbol.selection, "Go to $NAME " ++ target.block⟩ := by
  unfold linkOf
  by_cases hkind : s.kind = .inclusion
  · rw [if_pos hkind, Option.bind_eq_some_iff]
    simp only [hkind, true_and, Option.map_eq_some_iff, blockOf_eq_some_iff]
    constructor
    · rintro ⟨target, htarget, block, hblock, rfl⟩
      exact ⟨target, block, htarget, hblock, rfl⟩
    · rintro ⟨target, block, htarget, hblock, rfl⟩
      exact ⟨target, htarget, block, hblock, rfl⟩
  · simp [hkind]

/-! ### The links of a tree -/

/-- The links of a tree, each with the inclusion that it stands on. -/
def linksOf (v : Workspace σ) (t : SymbolTree) : List (SymbolId × Link) :=
  t.symbols.zipIdx.filterMap fun x => (v.linkOf t.file x.1).map (x.2, ·)

theorem map_snd_linksOf (v : Workspace σ) (t : SymbolTree) :
    (v.linksOf t).map Prod.snd = t.symbols.filterMap (v.linkOf t.file) := by
  have hsymbols : t.symbols.filterMap (v.linkOf t.file) =
      t.symbols.zipIdx.filterMap fun x => v.linkOf t.file x.1 := by
    conv_lhs => rw [← List.zipIdx_map_fst 0 t.symbols, List.filterMap_map]
    rfl
  rw [linksOf, List.map_filterMap, hsymbols]
  refine List.filterMap_congr fun x _ => ?_
  rw [Option.map_map]
  exact Option.map_id'

theorem mem_linksOf_iff {l : Link} : (i, l) ∈ v.linksOf t ↔ v.IsLink t i l := by
  unfold linksOf IsLink
  simp only [List.mem_filterMap, Option.map_eq_some_iff, Prod.mk.injEq, linkOf_eq_some_iff,
    List.mem_zipIdx_iff_getElem?, ← SymbolTree.get?_eq]
  constructor
  · rintro ⟨x, hx, _, ⟨hkind, target, block, htarget, hblock, hl⟩, rfl, rfl⟩
    exact ⟨x.1, target, block, ⟨hx, hkind, htarget⟩, hblock, hl⟩
  · rintro ⟨s, target, block, hs, hblock, hl⟩
    exact ⟨(s, i), hs.get?, l, ⟨hs.kind, target, block, hs.target, hblock, hl⟩, rfl, rfl⟩

/-- Symbols are numbered in the order in which they start. -/
theorem linksOf_ordered (ht : t.IsParsed) (v : Workspace σ) :
    ((v.linksOf t).map Prod.fst).Pairwise t.StartsBefore := by
  obtain ⟨real, hn⟩ := ht.nested
  have hnumbered : t.symbols.zipIdx.Pairwise fun x y => t.StartsBefore x.2 y.2 := by
    rw [List.pairwise_iff_getElem]
    intro i j hi hj hij
    rw [List.length_zipIdx] at hi hj
    simp only [List.getElem_zipIdx, Nat.zero_add]
    have hstart := List.pairwise_iff_getElem.1 hn.ordered i j hi hj hij
    refine ⟨t.symbols[i], t.symbols[j], ?_, ?_, hstart⟩
    · rw [SymbolTree.get?_eq, List.getElem?_eq_getElem hi]
    · rw [SymbolTree.get?_eq, List.getElem?_eq_getElem hj]
  unfold linksOf
  rw [List.pairwise_map, List.pairwise_filterMap]
  refine hnumbered.imp fun hxy a ha b hb => ?_
  obtain ⟨_, -, rfl⟩ := Option.map_eq_some_iff.1 ha
  obtain ⟨_, -, rfl⟩ := Option.map_eq_some_iff.1 hb
  exact hxy

/-- What asking for links answers.  A file without a number has no text, and so no links. -/
theorem Current.links_eq (h : w.Current) (f : FileId) :
    Later w (after (links f) w) ∧ ∀ v : Workspace σ, v.Current → Later (after (links f) w) v →
      answer (links f) w = (v.linksOf (w.treeOf f)).map Prod.snd := by
  cases hf : w.path? f with
  | some q =>
      have hknows : w.Knows f := ⟨q, hf⟩
      obtain ⟨-, hlater, hanswer⟩ := reads_links f w h hknows
      refine ⟨hlater, fun v hv hvlater => ?_⟩
      calc answer (links f) w
          = (v.treeOf f).symbols.filterMap (v.linkOf f) := hanswer v hv hvlater
        _ = (w.treeOf f).symbols.filterMap (v.linkOf (w.treeOf f).file) := by
            rw [(hlater.trans hvlater).treeOf_of_knows hknows, file_treeOf]
        _ = (v.linksOf (w.treeOf f)).map Prod.snd := (v.map_snd_linksOf _).symm
  | none =>
      have htext : w.textOf f = none := by rw [textOf, hf]; rfl
      have htree : w.treeOf f = .empty f := by rw [treeOf, htext]
      simp only [links, answer_bind, after_bind, (h.tree_cases f).1, htree]
      exact ⟨(h.after_tree f).2, fun v _ _ => rfl⟩

end Workspace

/-! ### The token on the name of a block -/

/-- The name of a block could be a token if its characters belong to tokens. -/
theorem isToken_of_block {text : List Char} {s : Symbol} (hs : s ∈ (parseChars text).toList)
    (hkind : s.kind = .name) (hchars : ∀ c ∈ s.name.toList, isTokenChar c = true) :
    IsToken s.name.toList := by
  obtain ⟨line, c, m, -, -, hread, -, hname, -⟩ := parseChars_marked text s hs
  have hrule : s.rule = .name := by rw [Symbol.rule, hkind]
  rw [hrule] at hread
  simp only [Opening.readAt, Option.bind_eq_some_iff, Option.map_eq_some_iff] at hread
  obtain ⟨head, -, name, hident, tail, -, rfl⟩ := hread
  rw [hname, String.toList_ofList] at hchars ⊢
  exact Shape.isToken_of_ident hident hchars

/-- **At any place on the name of the block, its ends included, the token is that name**: the
parentheses around it are no part of tokens. -/
theorem textTokenAt?_of_blockRange {text : List Char} {s : Symbol} {target : InclusionTarget}
    (hs : s ∈ (parseChars text).toList) (htarget : InclusionTarget.parse? s.name = some target)
    (htoken : IsToken target.block.toList) {q : Position} (hq : IsBetween text q)
    (hin : (s.blockRange target).contains q = true) :
    textTokenAt? text q = some target.block := by
  obtain ⟨left, right, hline, hstart⟩ := exists_line_around_block hs htarget
  obtain ⟨a, b, hcut, hcol⟩ := hq
  rw [Extent.contains_iff, Symbol.blockRange, Position.le_def, Position.le_def] at hin
  simp only [Extent.onLine, hstart] at hin
  have hqline : q.line = s.selection.start.line := by omega
  have hjoin : left ++ ['('] ++ (target.block.toList ++ ')' :: right) = a ++ b := by
    rw [hqline, hline] at hcut
    exact Option.some_inj.1 hcut
  obtain ⟨front, back, hblock, ha⟩ := exists_inside hjoin (by omega) (by omega)
  have hopen : isTokenChar '(' = false := by decide +kernel
  have hclose : isTokenChar ')' = false := by decide +kernel
  have hleft : (left ++ ['(']).getLast?.any isTokenChar = false := by
    rw [List.getLast?_concat, Option.any_some, hopen]
  obtain ⟨span, hspan, -, htext⟩ := htoken.exists_tokenAt? (')' :: right) hleft hblock
  unfold textTokenAt?
  rw [hcut, Option.bind_some, ← hjoin, hcol, ha, hspan, Option.map_some,
    htext.2 (goesOn_of_stops hclose right), String.ofList_toList]

namespace Workspace

variable {σ : Type} [Source σ] {w v u : Workspace σ} {f : FileId} {i : SymbolId} {s : Symbol}
  {target : InclusionTarget} {block : Declaration} {p : Position} {x : String}

/-- A name is undeclared if the three look-ups that come first find nothing. -/
theorem undeclared_iff {t : SymbolTree} (ht : t.IsParsed) {e : SymbolId} {name : String} :
    v.Undeclared t e name ↔ t.findVariable? e name = none ∧ t.findProc? e name = none ∧
      v.hits t e name = [] := by
  have hvar := (ht.picks_findWithin? e .dataArea [.var] name).none_iff
  have hproc := (ht.picks_findChild? e [.proc] name).none_iff
  have hhits : v.hits t e name = [] ↔ ∀ i d, ¬v.Exposes t e name i d := by
    simp only [List.eq_nil_iff_forall_not_mem, Prod.forall, mem_hits_iff]
  constructor
  · intro h
    exact ⟨hvar.2 h.noVariable, hproc.2 h.noProcedure, hhits.2 h.noInclusion⟩
  · rintro ⟨hnoVar, hnoProc, hnoHits⟩
    exact ⟨hvar.1 hnoVar, hproc.1 hnoProc, hhits.1 hnoHits⟩

/-- The block that an inclusion names is a block of that name. -/
theorem IsBlock.symbol_eq {origin : FileId} (h : v.IsBlock target origin block) :
    block.tree.IsParsed ∧ block.symbol.kind = .name ∧ block.symbol.name = target.block := by
  obtain ⟨t, ht, hfirst⟩ := h
  obtain ⟨hkind, hname⟩ := hfirst.2.1.symbol_eq hfirst.get?
  rw [hfirst.1]
  exact ⟨isParsed_of_standsFor ht, List.mem_singleton.1 hkind, hname⟩

theorem IsBlock.isToken {origin : FileId} (h : v.IsBlock target origin block)
    (hchars : ∀ c ∈ target.block.toList, isTokenChar c = true) : IsToken target.block.toList := by
  obtain ⟨⟨text, htext⟩, hkind, hname⟩ := h.symbol_eq
  rw [← hname] at hchars ⊢
  exact isToken_of_block (SymbolTree.mem_parseChars block.isAt htext) hkind hchars

/-- On the name of a block that exists, and that the overlay does not hide, the token comes to that
block. -/
theorem resolves_of_block (hx : v.textOf f = some x) (hs : (v.treeOf f).Includes i s target)
    (hblock : v.IsBlock target f block) (hp : IsBetween x.toList p)
    (hin : (s.blockRange target).contains p = true)
    (hchars : ∀ c ∈ target.block.toList, isTokenChar c = true)
    (hundeclared : ∀ e, (v.treeOf f).Around p e → v.Undeclared (v.treeOf f) e target.block) :
    v.Resolves f p (.found block) := by
  have htree : v.treeOf f = parse f x := by rw [treeOf, hx]
  have hmem : s ∈ (parseChars x.toList).toList := by
    have hget := hs.get?
    rw [htree] at hget
    exact SymbolTree.mem_parseChars hget rfl
  have htoken : v.tokenOf f p = some target.block := by
    rw [tokenOf, hx]
    exact textTokenAt?_of_blockRange hmem hs.target (hblock.isToken hchars) hp hin
  refine .token htoken (.ofBlock hundeclared ⟨i, s, hs.get?, hs.kind, hs.target, ?_⟩ ?_)
  · rw [Extent.contains_iff, Symbol.blockRange, Position.le_def, Position.le_def] at hin
    simp only [Extent.onLine] at hin
    omega
  · rw [file_treeOf]
    exact hblock

end Workspace

open Workspace

/-- **Links and definitions agree.**  The links of a file are one for each inclusion that names a
block, in the order of the text.  And from any place on the name of the block in such an inclusion,
going to the definition leads to the block that the link leads to, if the overlay neither declares
this name nor includes a block that does. -/
theorem links_lead_to_definitions {σ : Type} [Source σ] {w v : Workspace σ} (h : w.Current)
    (f : FileId) (hv : v.Current) (hlater : Later (after (links f) w) v) :
    (∃ found : List (SymbolId × Link), answer (links f) w = found.map Prod.snd ∧
      (found.map Prod.fst).Pairwise (w.treeOf f).StartsBefore ∧
      ∀ i l, (i, l) ∈ found ↔ v.IsLink (w.treeOf f) i l) ∧
    ∀ i l s target x p, v.IsLink (w.treeOf f) i l → (w.treeOf f).Includes i s target →
      w.textOf f = some x → IsBetween x.toList p → (s.blockRange target).contains p = true →
      (∀ c ∈ target.block.toList, isTokenChar c = true) →
      (∀ e, (w.treeOf f).Around p e → v.Undeclared (w.treeOf f) e target.block) →
      ∀ u : Workspace σ, u.Current → u.Knows f → Later (after (goto f p) u) v →
        ∃ block, v.IsBlock target f block ∧ answer (goto f p) u = some block.target ∧
          block.target.file = l.targetFile ∧ block.target.focusRange = l.targetRange := by
  obtain ⟨hlinks, hanswer⟩ := h.links_eq f
  refine ⟨⟨v.linksOf (w.treeOf f), hanswer v hv hlater, linksOf_ordered (isParsed_treeOf w f) v,
    fun i l => mem_linksOf_iff⟩, ?_⟩
  intro i l s target x p hlink hs hx hp hin hchars hundeclared u hu hknows hulater
  obtain ⟨s', target', block, hs', hblock, rfl⟩ := hlink
  have hsame : s' = s := Option.some_inj.1 (hs'.get?.symm.trans hs.get?)
  subst hsame
  have hsame' : target' = target := Option.some_inj.1 (hs'.target.symm.trans hs.target)
  subst hsame'
  rw [file_treeOf] at hblock
  -- The file has the same text and tree in both workspaces.
  have htext : v.textOf f = some x :=
    ((hlinks.trans hlater).textOf_of_knows (knows_of_textOf hx)).trans hx
  rw [← (hlinks.trans hlater).treeOf_of_knows (knows_of_textOf hx)] at hs hundeclared
  have hfound := resolves_iff.1 (resolves_of_block htext hs hblock hp hin hchars hundeclared)
  have hresolve : answer (resolve f p) u = .found block :=
    ((reads_resolve f p u hu hknows).2.2 v hv hulater).trans hfound.symm
  refine ⟨block, hblock, ?_, rfl, rfl⟩
  rw [answer_goto, hresolve]
  rfl

/-- The workspace after asking for the links of the overlay that includes two blocks. -/
def linkedWorkspace : Workspace MemorySource :=
  after (links ⟨0⟩) twoBlocksWorkspace

/-- The workspace after going to the definition from behind the name of the first block. -/
def arrivedWorkspace : Workspace MemorySource :=
  after (goto ⟨0⟩ ⟨1, 20⟩) linkedWorkspace

/-- What the overlay holds, and what the look-ups of the first block's name in it come to. -/
theorem lookups_linkedWorkspace :
    answer (links ⟨0⟩) twoBlocksWorkspace =
      [⟨.onLine 1 9 21, ⟨1⟩, .onLine 0 6 11, "Go to $NAME COUNT"⟩,
        ⟨.onLine 2 9 15, ⟨0⟩, .onLine 5 6 9, "Go to $NAME SUM"⟩] ∧
    (twoBlocksWorkspace.textOf ⟨0⟩).map (fun x => (contentLines x.toList)[1]?) =
      some (some ("$INCLUDE STOCK(COUNT".toList ++ [')'])) ∧
    (twoBlocksWorkspace.treeOf ⟨0⟩).get? 1 = some
      ⟨.inclusion, "STOCK(COUNT)", "$INCLUDE STOCK(COUNT)", .onLine 1 0 21, .onLine 1 9 21⟩ ∧
    InclusionTarget.parse? "STOCK(COUNT)" = some ⟨"STOCK", "COUNT", 6⟩ ∧
    (1, ⟨.onLine 1 9 21, ⟨1⟩, .onLine 0 6 11, "Go to $NAME COUNT"⟩) ∈
      arrivedWorkspace.linksOf (twoBlocksWorkspace.treeOf ⟨0⟩) ∧
    (twoBlocksWorkspace.treeOf ⟨0⟩).entryAt? ⟨1, 20⟩ = some 0 ∧
    (twoBlocksWorkspace.treeOf ⟨0⟩).findVariable? 0 "COUNT" = none ∧
    (twoBlocksWorkspace.treeOf ⟨0⟩).findProc? 0 "COUNT" = none ∧
    (arrivedWorkspace.hits (twoBlocksWorkspace.treeOf ⟨0⟩) 0 "COUNT").isEmpty = true := by
  decide +kernel

/-- From behind the name of the first block in its inclusion, the definition is where the first link
leads, in another file. -/
theorem definition_of_first_link :
    answer (links ⟨0⟩) twoBlocksWorkspace =
      [⟨.onLine 1 9 21, ⟨1⟩, .onLine 0 6 11, "Go to $NAME COUNT"⟩,
        ⟨.onLine 2 9 15, ⟨0⟩, .onLine 5 6 9, "Go to $NAME SUM"⟩] ∧
    ∃ block, arrivedWorkspace.IsBlock ⟨"STOCK", "COUNT", 6⟩ ⟨0⟩ block ∧
      answer (goto ⟨0⟩ ⟨1, 20⟩) linkedWorkspace = some block.target ∧
      block.target.file = ⟨1⟩ ∧ block.target.focusRange = .onLine 0 6 11 := by
  obtain ⟨hlinks, hline, hget, htarget, hlink, hentry, hvar, hproc, hhits⟩ :=
    lookups_linkedWorkspace
  have hcurrent : twoBlocksWorkspace.Current :=
    ((Current.ofSource twoBlocks.calm .standard).after_fileId _).1
  obtain ⟨x, hx, hline⟩ := Option.map_eq_some_iff.1 hline
  have hknows := knows_of_textOf hx
  obtain ⟨hlinked, hlater, -⟩ := reads_links ⟨0⟩ _ hcurrent hknows
  have hknows' : linkedWorkspace.Knows ⟨0⟩ := hlater.knows hknows
  obtain ⟨harrived, hlater', -⟩ := reads_resolve ⟨0⟩ ⟨1, 20⟩ linkedWorkspace hlinked hknows'
  rw [← after_goto] at harrived hlater'
  have hparsed := isParsed_treeOf twoBlocksWorkspace ⟨0⟩
  refine ⟨hlinks, (links_lead_to_definitions hcurrent ⟨0⟩ harrived hlater').2 1 _ _ _ x _
    (mem_linksOf_iff.1 hlink) ⟨hget, rfl, htarget⟩ hx ⟨_, _, hline, by decide +kernel⟩
    (by decide +kernel) ?_ ?_ linkedWorkspace hlinked hknows' (.refl _)⟩
  · have hchars : "COUNT".toList.all isTokenChar = true := by decide +kernel
    exact List.all_eq_true.1 hchars
  · intro e haround
    rw [hparsed.entryAt?_eq_some_iff.2 haround] at hentry
    cases hentry
    exact (undeclared_iff hparsed).2 ⟨hvar, hproc, List.isEmpty_iff.1 hhits⟩

end OverlayIndex
