/-
From a variable to its uses and back.

Two rules say what a whole identifier is.  The locator takes the run of token characters at a
position, without the points at its ends.  The search for uses looks at one character before a match
and at two behind it.  They differ over points.  Behind a use there may be two points or more and
then an identifier, which the search takes for the end and the locator for the middle of a token;
such a use does not lead back.  And a point may stand before a token, where the locator passes over
it and the search gives up, or the position may be on the points behind the token; such a position
is in none of its variable's uses.  These are the only differences: each result says exactly when
the two agree.
-/
import OverlayIndex.Proofs.Resolve.Definition
import OverlayIndex.Proofs.Resolve.Tokens

namespace OverlayIndex

/-! ### A word in its line -/

/-- The position is between two characters of its line, or at an end of the line. -/
def IsBetween (text : List Char) (p : Position) : Prop :=
  ∃ left right, (contentLines text)[p.line]? = some (left ++ right) ∧ p.col = byteLength left

/-- What stands on the line behind a position. -/
def behind (text : List Char) (p : Position) : List Char :=
  ((contentLines text)[p.line]?.bind (cutAtByte p.col)).elim [] Prod.snd

theorem behind_eq {text left right : List Char} {p : Position}
    (hline : (contentLines text)[p.line]? = some (left ++ right)) (hcol : p.col = byteLength left) :
    behind text p = right := by
  rw [behind, hline, hcol, Option.bind_some, cutAtByte_append]
  rfl

/-- A cut of a line at a column of a word cuts the word. -/
theorem exists_inside {left word right a b : List Char} (h : left ++ (word ++ right) = a ++ b)
    (hstart : byteLength left ≤ byteLength a)
    (hstop : byteLength a ≤ byteLength left + byteLength word) :
    ∃ x y, word = x ++ y ∧ a = left ++ x := by
  obtain ⟨x, rfl, hrest⟩ := exists_between_of_byteLength_le h hstart
  rw [byteLength_append] at hstop
  obtain ⟨y, hword, -⟩ := exists_between_of_byteLength_le hrest.symm (by omega)
  exact ⟨x, y, hword, rfl⟩

/-- A column with a token is between two characters. -/
theorem isBetween_of_tokenAt? {text line : List Char} {p : Position} {s : Span}
    (hline : (contentLines text)[p.line]? = some line) (hcol : p.col ≤ byteLength line)
    (hs : tokenAt? line p.col = some s) : IsBetween text p := by
  obtain ⟨left, lead, word, trail, right, hrun, -⟩ := exists_runAt hs
  obtain ⟨a, b, hjoin, hpcol⟩ := hrun.within
  rw [Nat.min_eq_left hcol] at hpcol
  refine ⟨left ++ a, b ++ right, ?_, hpcol⟩
  rw [hline, hrun.join, hjoin]
  simp

/-- Before a word, the text and its line stop alike. -/
theorem any_getLast?_of_earlier {above : List (List Char)} {left : List Char} :
    (closedLines above ++ left).getLast?.any isTokenChar = left.getLast?.any isTokenChar := by
  by_cases hnil : left = []
  · rw [hnil, List.append_nil]
    cases hlast : (closedLines above).getLast? with
    | none => rfl
    | some c =>
        rw [eq_newline_of_getLast? hlast, Option.any_some, isTokenChar_lineEnd.1]
        rfl
  · rw [List.getLast?_append_of_ne_nil _ hnil]

namespace Workspace

variable {σ : Type} [Source σ] {w : Workspace σ} {f : FileId} {p q : Position} {d : Declaration}
  {x : String} {e : SymbolId} {u : Location}

/-- A use in its line. -/
theorem IsVariableOf.exists_line (h : w.IsVariableOf d x e) (hu : u ∈ answer (referencesTo d) w) :
    ∃ left right, (contentLines x.toList)[u.range.start.line]? =
        some (left ++ (d.symbol.name.toList ++ right)) ∧
      u.range = .onLine u.range.start.line (byteLength left)
        (byteLength left + byteLength d.symbol.name.toList) ∧
      left.getLast?.any isTokenChar = false := by
  obtain ⟨entry, hentry, hkind⟩ := h.exists_entry
  obtain ⟨before, searched, after, hscope⟩ := SymbolTree.exists_scoped h.forest hentry hkind
  obtain ⟨-, between, rest, hsearched, hrange, hstarts, -⟩ := h.exists_of_mem hentry hscope hu
  have hword := h.isName.isWordOfLine
  have htext : (before ++ between) ++ (d.symbol.name.toList ++ (rest ++ after)) = x.toList := by
    rw [← hscope.join, hsearched]
    simp
  obtain ⟨left, right, hcut⟩ := CutAt.exists_of_text (before ++ between) (rest ++ after)
    hword.nonempty hword.noNewline hword.noReturn
  have hstart : u.range.start = placeAfter (before ++ between) := by rw [hrange]; rfl
  refine ⟨left, right, ?_, ?_, ?_⟩
  · rw [hstart, ← htext]
    exact hcut.line
  · rw [hstart, hrange, hword.stretch_eq, hcut.col]
  · obtain ⟨above, habove⟩ := hcut.earlier
    rw [startsIdentifier_reverse, habove, any_getLast?_of_earlier] at hstarts
    exact hstarts

/-- The token of a file at a position is that of its line. -/
theorem tokenOf_eq_some_iff {line : List Char} {s : Span} {name : String}
    (hx : w.textOf f = some x) (hline : (contentLines x.toList)[p.line]? = some line)
    (hs : tokenAt? line p.col = some s) : w.tokenOf f p = some name ↔ s.text = name.toList := by
  rw [tokenOf, hx, Option.bind_some, textTokenAt?, hline, Option.bind_some, hs, Option.map_some,
    Option.some_inj]
  constructor
  · intro hname
    rw [← hname, String.toList_ofList]
  · intro hname
    rw [hname, String.ofList_toList]

namespace VariableAt

theorem exists_span (h : w.VariableAt f p x e d) :
    ∃ line s, (contentLines x.toList)[p.line]? = some line ∧ tokenAt? line p.col = some s ∧
      s.text = d.symbol.name.toList := by
  have htoken := h.token
  rw [tokenOf, h.text, Option.bind_some, textTokenAt?] at htoken
  obtain ⟨s, hspan, hname⟩ := Option.map_eq_some_iff.1 htoken
  obtain ⟨line, hline, hs⟩ := Option.bind_eq_some_iff.1 hspan
  exact ⟨line, s, hline, hs, by rw [← hname, String.toList_ofList]⟩

/-- The name is what the locator takes for a token. -/
theorem isToken (h : w.VariableAt f p x e d) : IsToken d.symbol.name.toList := by
  obtain ⟨line, s, -, hs, hname⟩ := h.exists_span
  rw [← hname]
  exact isToken_of_tokenAt? hs

/-- The token in a use starts where the use starts, and it is the name unless an identifier goes on
behind the use. -/
theorem exists_token (h : w.VariableAt f p x e d) (hu : u ∈ answer (referencesTo d) w)
    (hq : IsBetween x.toList q) (hline : q.line = u.range.start.line)
    (hstart : u.range.start.col ≤ q.col) (hstop : q.col ≤ u.range.stop.col) :
    ∃ line s, (contentLines x.toList)[q.line]? = some line ∧ tokenAt? line q.col = some s ∧
      startsIdentifier s.left = true ∧
      u.range = .onLine q.line s.start (s.start + byteLength d.symbol.name.toList) ∧
      (s.text = d.symbol.name.toList ↔ goesOn (behind x.toList u.range.stop) = false) := by
  obtain ⟨left, right, hleft, hrange, hbefore⟩ := h.isVariableOf.exists_line hu
  obtain ⟨a, b, hcut, hcol⟩ := hq
  have hjoin : left ++ (d.symbol.name.toList ++ right) = a ++ b := by
    rw [hline, hleft] at hcut
    exact Option.some_inj.1 hcut
  have hstartCol : u.range.start.col = byteLength left := by rw [hrange]; rfl
  have hstopCol : u.range.stop.col = byteLength (left ++ d.symbol.name.toList) := by
    rw [hrange, byteLength_append]
    rfl
  have hstopLine : u.range.stop.line = u.range.start.line := by rw [hrange]; rfl
  have hbehind : behind x.toList u.range.stop = right := by
    refine behind_eq ?_ hstopCol
    rw [hstopLine, hleft, List.append_assoc]
  rw [byteLength_append] at hstopCol
  obtain ⟨front, back, hname, rfl⟩ := exists_inside hjoin (by omega) (by omega)
  obtain ⟨s, hs, hsleft, htext⟩ := h.isToken.exists_tokenAt? right hbefore hname
  refine ⟨_, s, hcut, ?_, ?_, ?_, ?_⟩
  · rw [← hjoin, hcol]
    exact hs
  · rw [hsleft, startsIdentifier_reverse]
    exact hbefore
  · rw [hline, Span.start, hsleft, byteLength_reverse]
    exact hrange
  · rw [hbehind]
    exact htext

/-- A use lies in the overlay of the variable. -/
theorem around_of_mem (h : w.VariableAt f p x e d) (hu : u ∈ answer (referencesTo d) w)
    (hq : u.range.contains q = true) : (w.treeOf f).Around q e := by
  obtain ⟨entry, hentry, hkind⟩ := h.isVariableOf.exists_entry
  have hscope := (h.isVariableOf.areUses hentry).inScope u hu
  rw [Extent.encloses_iff] at hscope
  rw [Extent.contains_iff] at hq
  rw [h.first.1] at hentry
  exact ⟨entry, hentry, hkind,
    Extent.contains_iff.2 ⟨le_trans hscope.1 hq.1, le_trans hq.2 hscope.2⟩⟩

/-- A use at which no identifier goes on stands for the same variable. -/
theorem at_use (h : w.VariableAt f p x e d) (hu : u ∈ answer (referencesTo d) w)
    (hq : u.range.contains q = true) (htoken : w.tokenOf f q = some d.symbol.name) :
    w.VariableAt f q x e d :=
  ⟨h.text, htoken, h.around_of_mem hu hq, h.first⟩

/-- An overlay has the whole of the lines it has. -/
theorem scope_of_line (h : w.VariableAt f p x e d) {entry : Symbol}
    (hentry : d.tree.get? e = some entry) {line : List Char} (a b : Nat)
    (hline : (contentLines x.toList)[p.line]? = some line) (hb : b ≤ byteLength line) :
    entry.extent.start ≤ ⟨p.line, a⟩ ∧ (⟨p.line, b⟩ : Position) ≤ entry.extent.stop := by
  obtain ⟨entry', hentry', hkind, hcontains⟩ := h.around
  rw [← h.first.1, hentry] at hentry'
  cases hentry'
  obtain ⟨hcol, last, hlast, hstop⟩ := SymbolTree.lines_of_entry h.isVariableOf.forest hentry hkind
  obtain ⟨hle, hge⟩ := Extent.contains_iff.1 hcontains
  have hlines : entry.extent.stop.line = p.line → b ≤ entry.extent.stop.col := by
    intro heq
    rw [heq, hline] at hlast
    cases hlast
    rw [hstop]
    exact hb
  rw [Position.le_def] at hle hge
  rw [Position.le_def, Position.le_def]
  dsimp only
  omega

/-- The token at the position is found as a use if no point stands before it. -/
theorem exists_use (h : w.VariableAt f p x e d) {line : List Char} {s : Span}
    (hline : (contentLines x.toList)[p.line]? = some line) (hcol : p.col ≤ byteLength line)
    (hs : tokenAt? line p.col = some s) (hname : s.text = d.symbol.name.toList)
    (hstarts : startsIdentifier s.left = true) :
    ∃ u ∈ answer (referencesTo d) w, u.range = .onLine p.line s.start s.stop := by
  obtain ⟨left, hleft, hjoin, -, hends⟩ := exists_whole hcol hs hstarts
  obtain ⟨entry, hentry, hkind⟩ := h.isVariableOf.exists_entry
  obtain ⟨before, searched, after, hscope⟩ :=
    SymbolTree.exists_scoped h.isVariableOf.forest hentry hkind
  have hword := h.isVariableOf.isName.isWordOfLine
  rw [hname] at hjoin
  rw [hjoin] at hline
  obtain ⟨front, tail, hcut⟩ := CutAt.exists_of_line left (d.symbol.name.toList ++ s.right)
    (p := ⟨p.line, byteLength left⟩) hline rfl
  obtain ⟨tail, rfl, hmoved⟩ := hcut.move
  have hstretch : stretch front d.symbol.name.toList = .onLine p.line s.start s.stop := by
    rw [hword.stretch_eq, hcut.place, Span.start, Span.stop, hleft, hname, byteLength_reverse]
  -- The token lies in the overlay, since its line does.
  obtain ⟨hstart, hstop⟩ := h.scope_of_line hentry (byteLength left)
    (byteLength left + byteLength d.symbol.name.toList) hline
    (by rw [byteLength_append, byteLength_append]; omega)
  rw [← hcut.place] at hstart
  rw [← hmoved.place] at hstop
  obtain ⟨between, rest', rfl, hsearched, rfl⟩ := hscope.exists_between hcut.join hstart hstop
  -- Neither before it nor behind it does an identifier go on.
  obtain ⟨above, habove⟩ := hcut.earlier
  obtain ⟨more, hmore, hmoreEnds⟩ := hmoved.later
  have hbefore : (before ++ between).getLast?.any isTokenChar = false := by
    rw [habove, any_getLast?_of_earlier, ← startsIdentifier_reverse, ← hleft]
    exact hstarts
  have hmem : stretch (before ++ between) d.symbol.name.toList ∈
      occurrences x.toList entry.extent d.symbol.name.toList := by
    refine hscope.stretch_mem_occurrences hword hsearched ?_ ?_ fun c hc hcname => ?_
    · exact startsIdentifier_reverse.2 hbefore
    · rw [hmore]
      exact hends more hmoreEnds
    · rw [hc, Option.any_some, h.isToken.chars c hcname] at hbefore
      cases hbefore
  rw [hstretch] at hmem
  refine ⟨⟨d.file, .onLine p.line s.start s.stop⟩, ?_, rfl⟩
  rw [h.isVariableOf.answer_referencesTo hentry]
  exact List.mem_map_of_mem hmem

end VariableAt

end Workspace

open Workspace

/-- **A use leads back to its variable exactly if no identifier goes on behind it.**  At every
column of a use, the definition is the one that the use was found from, and the uses are the same,
unless points and then an identifier follow on the line. -/
theorem use_leads_back_iff {σ : Type} [Source σ] {w : Workspace σ} (h : w.Current) {f : FileId}
    {p : Position} {u : Location} (hu : u ∈ answer (references f p) w) :
    u.file = f ∧ ∃ x d, w.textOf f = some x ∧ answer (definition f p) w = some d ∧
      ∀ c, IsBetween x.toList ⟨u.range.start.line, c⟩ → u.range.start.col ≤ c →
        c ≤ u.range.stop.col →
        (answer (definition f ⟨u.range.start.line, c⟩) w = some d ↔
          goesOn (behind x.toList u.range.stop) = false) ∧
        (answer (references f ⟨u.range.start.line, c⟩) w = answer (references f p) w ↔
          goesOn (behind x.toList u.range.stop) = false) := by
  obtain ⟨x, e, d, hv⟩ := h.exists_variableAt hu
  obtain ⟨entry, hentry, -⟩ := hv.isVariableOf.exists_entry
  have huses := hv.isVariableOf.areUses hentry
  rw [hv.references_eq h] at hu ⊢
  refine ⟨(huses.inFile u hu).trans hv.file_eq, x, d, hv.text, hv.definition_eq h,
    fun c hbetween hstart hstop => ?_⟩
  have hcontains : u.range.contains ⟨u.range.start.line, c⟩ = true := by
    have hline := (huses.onLine u hu).1
    rw [Extent.contains_iff, Position.le_def, Position.le_def]
    exact ⟨Or.inr ⟨rfl, hstart⟩, Or.inr ⟨hline, hstop⟩⟩
  -- At the column there is a token, and it is the name or goes on behind it.
  obtain ⟨line, s, hline, hs, -, -, htext⟩ := hv.exists_token hu hbetween rfl hstart hstop
  have htoken : w.tokenOf f ⟨u.range.start.line, c⟩ = some d.symbol.name ↔
      goesOn (behind x.toList u.range.stop) = false :=
    (tokenOf_eq_some_iff hv.text hline hs).trans htext
  have hback : goesOn (behind x.toList u.range.stop) = false →
      w.VariableAt f ⟨u.range.start.line, c⟩ x e d :=
    fun hgoes => hv.at_use hu hcontains (htoken.2 hgoes)
  constructor
  · constructor
    · intro hd
      exact htoken.1 (h.token_of_definition hd hv.isVariableOf.kind)
    · intro hgoes
      exact (hback hgoes).definition_eq h
  · constructor
    · intro heq
      rw [← heq] at hu
      -- What is used at the column reads as its token, and so does the use.
      obtain ⟨x', e', d', hv'⟩ := h.exists_variableAt hu
      obtain ⟨entry', hentry', -⟩ := hv'.isVariableOf.exists_entry
      rw [hv'.references_eq h] at hu
      have hx : x' = x := Option.some_inj.1 (hv'.text.symm.trans hv.text)
      have hnamed' := (hv'.isVariableOf.areUses hentry').named u hu
      rw [← hv'.references_eq h, heq] at hu
      rw [hx, huses.named u hu] at hnamed'
      have hname : d.symbol.name = d'.symbol.name :=
        String.toList_injective (Option.some_inj.1 hnamed')
      apply htoken.1
      rw [hname]
      exact hv'.token
    · intro hgoes
      exact (hback hgoes).references_eq h

/-- An overlay in which a variable is used behind a point and before two. -/
def pointedUses : String :=
  "$ENTRY E\n$DATA\nA N5\n$PROG\nX = .A + A..B"

/-- The workspace over this overlay in which its file has a number. -/
def pointedWorkspace : Workspace MemorySource :=
  after (fileId ⟨"E.rtm"⟩)
    (Workspace.ofSource (MemorySource.empty.insert ⟨"E.rtm"⟩ pointedUses) .standard)

theorem current_pointedWorkspace : pointedWorkspace.Current :=
  ((Current.ofSource (MemorySource.calm _) .standard).after_fileId _).1

/-- What the searches in this overlay come to. -/
theorem searches_pointedWorkspace :
    (answer (references ⟨0⟩ ⟨2, 0⟩) pointedWorkspace =
        [⟨⟨0⟩, .onLine 2 0 1⟩, ⟨⟨0⟩, .onLine 4 9 10⟩] ∧
      (answer (definition ⟨0⟩ ⟨2, 0⟩) pointedWorkspace).isSome = true ∧
      (answer (definition ⟨0⟩ ⟨4, 9⟩) pointedWorkspace).isNone = true ∧
      answer (references ⟨0⟩ ⟨4, 9⟩) pointedWorkspace = []) ∧
    (pointedWorkspace.treeOf ⟨0⟩).findVariable? 0 "A" = some 2 ∧
    (pointedWorkspace.treeOf ⟨0⟩).entryAt? ⟨2, 0⟩ = some 0 ∧
    (pointedWorkspace.treeOf ⟨0⟩).entryAt? ⟨4, 5⟩ = some 0 := by
  decide +kernel

theorem use_before_points_is_lost :
    answer (references ⟨0⟩ ⟨2, 0⟩) pointedWorkspace =
        [⟨⟨0⟩, .onLine 2 0 1⟩, ⟨⟨0⟩, .onLine 4 9 10⟩] ∧
      (answer (definition ⟨0⟩ ⟨2, 0⟩) pointedWorkspace).isSome = true ∧
      (answer (definition ⟨0⟩ ⟨4, 9⟩) pointedWorkspace).isNone = true ∧
      answer (references ⟨0⟩ ⟨4, 9⟩) pointedWorkspace = [] :=
  searches_pointedWorkspace.1

theorem declaration_leads_back :
    ⟨⟨0⟩, .onLine 2 0 1⟩ ∈ answer (references ⟨0⟩ ⟨2, 0⟩) pointedWorkspace ∧
      answer (references ⟨0⟩ ⟨2, 1⟩) pointedWorkspace =
        answer (references ⟨0⟩ ⟨2, 0⟩) pointedWorkspace := by
  have hmem : ⟨⟨0⟩, .onLine 2 0 1⟩ ∈ answer (references ⟨0⟩ ⟨2, 0⟩) pointedWorkspace := by
    rw [searches_pointedWorkspace.1.1]
    exact List.mem_cons_self
  obtain ⟨-, x, d, hx, -, hback⟩ := use_leads_back_iff current_pointedWorkspace hmem
  have hpointed : x = pointedUses := (Option.some_inj.1 hx).symm
  subst hpointed
  refine ⟨hmem, (hback 1 ⟨['A'], " N5".toList, ?_, ?_⟩ ?_ ?_).2.2 ?_⟩
  all_goals decide +kernel

/-- **A token is one of its variable's uses exactly if no point stands before it** and the position
is not past it, on the points behind it. -/
theorem token_among_uses_iff {σ : Type} [Source σ] {w : Workspace σ} (h : w.Current) {f : FileId}
    {p : Position} {d : Declaration} {e : SymbolId} {x : String} {line : List Char}
    (hd : answer (definition f p) w = some d) (haround : (w.treeOf f).Around p e)
    (htree : d.tree = w.treeOf f)
    (hwithin : (w.treeOf f).StandsWithin e .dataArea [.var] d.symbol.name d.id)
    (hx : w.textOf f = some x) (hline : (contentLines x.toList)[p.line]? = some line)
    (hcol : p.col ≤ byteLength line) :
    (∃ u ∈ answer (references f p) w, u.range.start.line = p.line ∧ u.range.stop.line = p.line ∧
      u.range.start.col ≤ p.col ∧ p.col ≤ u.range.stop.col) ↔
    ∃ s, tokenAt? line p.col = some s ∧ startsIdentifier s.left = true ∧ p.col ≤ s.stop := by
  obtain ⟨x', hv⟩ := h.variableAt_of_definition hd haround htree hwithin
  have hxx : x' = x := Option.some_inj.1 (hv.text.symm.trans hx)
  subst hxx
  rw [hv.references_eq h]
  obtain ⟨line', s, hline', hs, hname⟩ := hv.exists_span
  rw [hline] at hline'
  cases hline'
  constructor
  · intro hlisted
    obtain ⟨u, hu, hstartLine, -, hstart, hstop⟩ := hlisted
    have hbetween := isBetween_of_tokenAt? hline hcol hs
    obtain ⟨line', s', hline', hs', hstarts, hrange, -⟩ :=
      hv.exists_token hu hbetween hstartLine.symm hstart hstop
    rw [hline] at hline'
    cases hline'
    rw [hs] at hs'
    cases hs'
    rw [hrange, ← hname] at hstop
    exact ⟨s, hs, hstarts, hstop⟩
  · intro hwhole
    obtain ⟨s', hs', hstarts, hstop⟩ := hwhole
    rw [hs] at hs'
    cases hs'
    obtain ⟨u, hu, hrange⟩ := hv.exists_use hline hcol hs hname hstarts
    obtain ⟨left, hleft, -, hle, -⟩ := exists_whole hcol hs hstarts
    refine ⟨u, hu, ?_⟩
    rw [hrange]
    refine ⟨rfl, rfl, ?_, hstop⟩
    show byteLength s.left ≤ p.col
    rw [hleft, byteLength_reverse]
    exact hle

/-- The variable of this overlay. -/
def pointedVariable : Declaration :=
  ⟨parse ⟨0⟩ pointedUses, 2, ⟨.var, "A", "A", .onLine 2 0 4, .onLine 2 0 1⟩, by decide +kernel⟩

theorem variableAt_pointedWorkspace {p : Position}
    (htoken : pointedWorkspace.tokenOf ⟨0⟩ p = some "A")
    (haround : (pointedWorkspace.treeOf ⟨0⟩).entryAt? p = some 0) :
    pointedWorkspace.VariableAt ⟨0⟩ p pointedUses 0 pointedVariable := by
  have hparsed := pointedWorkspace.isParsed_treeOf ⟨0⟩
  refine ⟨rfl, htoken, hparsed.entryAt?_eq_some_iff.1 haround, rfl, ?_⟩
  exact ((hparsed.picks_findWithin? 0 .dataArea [.var] "A").some_iff 2).1
    searches_pointedWorkspace.2.1

theorem variableAt_declaration :
    pointedWorkspace.VariableAt ⟨0⟩ ⟨2, 0⟩ pointedUses 0 pointedVariable :=
  variableAt_pointedWorkspace (by decide +kernel) searches_pointedWorkspace.2.2.1

theorem token_behind_point_is_not_listed :
    pointedWorkspace.VariableAt ⟨0⟩ ⟨4, 5⟩ pointedUses 0 pointedVariable ∧
      answer (references ⟨0⟩ ⟨4, 5⟩) pointedWorkspace =
        [⟨⟨0⟩, .onLine 2 0 1⟩, ⟨⟨0⟩, .onLine 4 9 10⟩] := by
  have hv : pointedWorkspace.VariableAt ⟨0⟩ ⟨4, 5⟩ pointedUses 0 pointedVariable :=
    variableAt_pointedWorkspace (by decide +kernel) searches_pointedWorkspace.2.2.2
  refine ⟨hv, ?_⟩
  rw [hv.references_eq current_pointedWorkspace,
    ← variableAt_declaration.references_eq current_pointedWorkspace]
  exact searches_pointedWorkspace.1.1

theorem declaration_is_listed :
    answer (definition ⟨0⟩ ⟨2, 0⟩) pointedWorkspace = some pointedVariable ∧
      ∃ u ∈ answer (references ⟨0⟩ ⟨2, 0⟩) pointedWorkspace, u.range.start.line = 2 ∧
        u.range.stop.line = 2 ∧ u.range.start.col ≤ 0 ∧ 0 ≤ u.range.stop.col := by
  have hv := variableAt_declaration
  have hd := hv.definition_eq current_pointedWorkspace
  have hline : (contentLines pointedUses.toList)[2]? = some "A N5".toList := by decide +kernel
  refine ⟨hd, (token_among_uses_iff current_pointedWorkspace hd hv.around hv.first.1 hv.first.2.1
    hv.text hline ?_).2 ⟨⟨[], ['A'], " N5".toList⟩, ?_⟩⟩
  all_goals decide +kernel

end OverlayIndex
