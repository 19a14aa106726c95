/-
The uses of a variable.

They are looked for in the overlay that declares the variable, and an overlay is made of whole
lines.  What is found lies in the overlay, reads as the name and is the name as a whole identifier;
the declaration is among it, since what stands before it is a line feed or the start of the text and
no match reaches over that.
-/
import OverlayIndex.Editor.Navigation
import OverlayIndex.Proofs.Resolve.Lookup
import OverlayIndex.Proofs.Resolve.Occurrences
import OverlayIndex.Proofs.Workspace.Runs
import OverlayIndex.Source.Memory

namespace OverlayIndex

/-! ### Names -/

namespace IsName

variable {name : List Char}

theorem isIdentifier_head (h : IsName name) : name.head?.any isIdentifier = true := by
  obtain ⟨c, hc, hupper⟩ := (Option.any_eq_true _ _).1 h.capital
  exact (Option.any_eq_true _ _).2 ⟨c, hc, isIdentifier_of_isUpper hupper⟩

/-- White space is no part of a name. -/
theorem not_mem_of_isBlank (h : IsName name) {c : Char} (hc : isBlank c = true) : c ∉ name := by
  intro hmem
  rcases h.chars c hmem with hword | hpoint
  · rw [isWord_of_isBlank hc] at hword
    cases hword
  · rw [hpoint] at hc
    revert hc
    decide +kernel

theorem isWordOfLine (h : IsName name) : IsWordOfLine name := by
  refine ⟨?_, h.not_mem_of_isBlank (by decide +kernel), fun hlast => ?_⟩
  · intro hnil
    have hcapital := h.capital
    rw [hnil] at hcapital
    cases hcapital
  · exact h.not_mem_of_isBlank (c := '\r') (by decide +kernel) (List.mem_of_getLast? hlast)

end IsName

/-- A name may begin behind a line feed. -/
theorem startsIdentifier_of_getLast? {before : List Char}
    (h : ∀ c, before.getLast? = some c → c = '\n') : startsIdentifier before.reverse = true := by
  unfold startsIdentifier
  rw [List.head?_reverse]
  cases hlast : before.getLast? with
  | none => rfl
  | some c =>
      rw [h c hlast]
      decide +kernel

/-- A name ends before a gap. -/
theorem endsIdentifier_of_isGap {c : Char} (h : isGap c = true) (rest : List Char) :
    endsIdentifier (c :: rest) = true := by
  simp only [isGap, Bool.or_eq_true, decide_eq_true_eq] at h
  have hspace : isIdentifier ' ' = false ∧ isIdentifier '\t' = false := by decide +kernel
  rcases h with rfl | rfl
  · simp [endsIdentifier, hspace.1]
  · simp [endsIdentifier, hspace.2]

/-! ### Overlays as scopes -/

/-- What lies between the ends of the scope was searched. -/
theorem Scoped.exists_between {text before searched after front word rest : List Char}
    {scope : Extent} (h : Scoped text scope before searched after)
    (htext : front ++ (word ++ rest) = text) (hstart : scope.start ≤ placeAfter front)
    (hstop : placeAfter (front ++ word) ≤ scope.stop) :
    ∃ between rest', front = before ++ between ∧ searched = between ++ (word ++ rest') ∧
      rest = rest' ++ after := by
  rw [← h.start] at hstart
  rw [← h.stop] at hstop
  obtain ⟨between, hfront, hsearched⟩ := OverlayIndex.exists_between (h.join.trans htext.symm) hstart
  have hjoin : (front ++ word) ++ rest = (before ++ searched) ++ after := by
    rw [List.append_assoc, htext, List.append_assoc, h.join]
  obtain ⟨rest', hrest', hafter⟩ := OverlayIndex.exists_between hjoin hstop
  refine ⟨between, rest', hfront, ?_, hafter⟩
  rw [hfront, List.append_assoc, List.append_assoc] at hrest'
  simpa using List.append_cancel_left hrest'

namespace SymbolTree

variable {t : SymbolTree} {text : List Char} {e i : SymbolId} {entry s : Symbol}

/-- The text is cut at the ends of an overlay. -/
theorem exists_scoped (htext : t.forest = parseChars text) (he : t.get? e = some entry)
    (hkind : entry.kind = .entry) :
    ∃ before searched after, Scoped text entry.extent before searched after := by
  obtain ⟨hcol, last, hlast, hstop⟩ := lines_of_entry htext he hkind
  obtain ⟨hi, hlam⟩ := parseChars_laminar text
  have hplaced := (hlam.mem entry (mem_parseChars he htext)).2.2
  obtain ⟨first, hfirst, -⟩ := hplaced.start_real
  obtain ⟨before, after, hcut⟩ := CutAt.exists_of_line [] first hfirst hcol
  obtain ⟨before', after', hcut'⟩ := CutAt.exists_of_line last []
    (by rw [List.append_nil]; exact hlast) hstop
  obtain ⟨searched, rfl, rfl⟩ := OverlayIndex.exists_between (hcut.join.trans hcut'.join.symm)
    (by rw [hcut.place, hcut'.place]; exact le_of_lt hplaced.start_lt_stop)
  exact ⟨before, searched, after', hcut.join, hcut.place, hcut'.place, hplaced.start_real,
    hplaced.stop_real⟩

/-- A symbol lies in all that hold it. -/
theorem Nested.encloses_of_mem_ancestors {real : Position → Prop} (h : t.Nested real) :
    ∀ (i : SymbolId) (s : Symbol), t.get? i = some s → ∀ a ∈ t.ancestors i,
      ∃ u, t.get? a = some u ∧ u.extent.encloses s.extent = true := by
  intro i
  induction i using Nat.strongRecOn with
  | ind i ih =>
      intro s hs a ha
      rw [ancestors_eq] at ha
      cases hparent : t.parent? i with
      | none => simp [hparent] at ha
      | some p =>
          rw [hparent, Option.map_some, Option.getD_some] at ha
          have hlt := parent?_lt hparent
          obtain ⟨u, hu⟩ := lt_size_iff.1 (Nat.lt_trans hlt (lt_size_of_parent? hparent))
          obtain ⟨s', hs', hinside⟩ := h.inside p u hu i (mem_children_iff.2 hparent)
          rw [hs] at hs'
          cases hs'
          rcases List.mem_cons.1 ha with rfl | ha
          · exact ⟨u, hu, hinside⟩
          · obtain ⟨v, hv, houter⟩ := ih p hlt u hu a ha
            rw [Extent.encloses_iff] at hinside houter
            exact ⟨v, hv, Extent.encloses_iff.2
              ⟨le_trans houter.1 hinside.1, le_trans hinside.2 houter.2⟩⟩

theorem mem_ancestors_of_enclosing? {kind : Kind} (h : t.enclosing? i kind = some e) :
    e ∈ t.ancestors i ∧ ∃ s, t.get? e = some s ∧ s.kind = kind := by
  refine ⟨List.mem_of_find?_eq_some h, ?_⟩
  obtain ⟨s, hs, hkind⟩ := satisfies_iff.1 (List.find?_some h)
  exact ⟨s, hs, of_decide_eq_true hkind⟩

end SymbolTree

/-! ### Uses -/

namespace Workspace

variable {σ : Type} [Source σ]

/-- The declaration is a variable of the overlay `e`, in the tree of its file's text as it stands. -/
structure IsVariableOf (w : Workspace σ) (d : Declaration) (x : String) (e : SymbolId) : Prop where
  text : answer (text d.file) w = .ok x
  tree : d.tree = parse d.file x
  kind : d.symbol.kind = .var
  enclosing : d.tree.enclosing? d.id .entry = some e

namespace IsVariableOf

variable {w : Workspace σ} {d : Declaration} {x : String} {e : SymbolId} {entry : Symbol}

theorem forest (h : w.IsVariableOf d x e) : d.tree.forest = parseChars x.toList := by
  rw [h.tree]
  rfl

theorem nested (h : w.IsVariableOf d x e) : d.tree.Nested (IsPlace x.toList) := by
  obtain ⟨hi, hlam⟩ := parseChars_laminar x.toList
  rw [← h.forest] at hlam
  refine SymbolTree.nested_of_laminar hlam ?_
  rw [h.forest]
  exact parseChars_grammatical x.toList

theorem exists_entry (h : w.IsVariableOf d x e) :
    ∃ entry, d.tree.get? e = some entry ∧ entry.kind = .entry :=
  (SymbolTree.mem_ancestors_of_enclosing? h.enclosing).2

theorem isName (h : w.IsVariableOf d x e) : IsName d.symbol.name.toList := by
  obtain ⟨gap, rest, -, -, -, hname⟩ :=
    line_of_var (SymbolTree.mem_parseChars d.isAt h.forest) h.kind
  exact hname

theorem answer_referencesTo (h : w.IsVariableOf d x e) (hentry : d.tree.get? e = some entry) :
    answer (referencesTo d) w =
      (occurrences x.toList entry.extent d.symbol.name.toList).map fun r => ⟨d.file, r⟩ := by
  unfold referencesTo
  rw [if_pos h.kind, h.enclosing, Option.bind_some, hentry]
  simp only [answer_bind, h.text]
  rfl

/-- The name of a variable stands in its overlay. -/
theorem encloses_selection (h : w.IsVariableOf d x e) (hentry : d.tree.get? e = some entry) :
    entry.extent.start ≤ d.symbol.selection.start ∧
      d.symbol.selection.stop ≤ entry.extent.stop := by
  obtain ⟨u, hu, houter⟩ := h.nested.encloses_of_mem_ancestors d.id d.symbol d.isAt e
    (SymbolTree.mem_ancestors_of_enclosing? h.enclosing).1
  rw [hentry] at hu
  cases hu
  have hmem : d.symbol ∈ d.tree.symbols := by
    rw [SymbolTree.symbols_eq, h.forest]
    exact SymbolTree.mem_parseChars d.isAt h.forest
  have hinner := (h.nested.placed d.symbol hmem).selection
  rw [Extent.encloses_iff] at houter hinner
  exact ⟨le_trans houter.1 hinner.1, le_trans hinner.2 houter.2⟩

/-- The declaration is one of the occurrences of its name. -/
theorem selection_mem (h : w.IsVariableOf d x e) (hentry : d.tree.get? e = some entry)
    {before searched after : List Char}
    (hscope : Scoped x.toList entry.extent before searched after) :
    d.symbol.selection ∈ occurrences x.toList entry.extent d.symbol.name.toList := by
  have hmem := SymbolTree.mem_parseChars d.isAt h.forest
  obtain ⟨gap, rest, hgap, hline, hselection, hname⟩ := line_of_var hmem h.kind
  have hword := hname.isWordOfLine
  obtain ⟨front, tail, hcut⟩ := CutAt.exists_of_line []
    (d.symbol.name.toList ++ gap :: rest) (p := d.symbol.selection.start) hline
    (by rw [hselection]; rfl)
  obtain ⟨tail, rfl, hmoved⟩ := hcut.move
  have hstretch : stretch front d.symbol.name.toList = d.symbol.selection := by
    rw [hword.stretch_eq, hcut.place, hselection]
    simp [Extent.onLine]
  -- The declaration lies in the overlay.
  obtain ⟨hstart, hstop⟩ := h.encloses_selection hentry
  rw [← hstretch] at hstart hstop ⊢
  obtain ⟨between, rest', rfl, hsearched, rfl⟩ := hscope.exists_between hcut.join hstart hstop
  -- What stands before it is a line feed or nothing, and what follows is a gap.
  obtain ⟨above, habove⟩ := hcut.earlier
  obtain ⟨more, hmore, -⟩ := hmoved.later
  have hbefore : ∀ c, (before ++ between).getLast? = some c → c = '\n' := by
    intro c hc
    rw [habove, List.append_nil] at hc
    exact eq_newline_of_getLast? hc
  refine hscope.stretch_mem_occurrences hword hsearched ?_ ?_ fun c hc => ?_
  · exact startsIdentifier_of_getLast? hbefore
  · rw [hmore]
    exact endsIdentifier_of_isGap hgap _
  · rw [hbefore c hc]
    exact hword.noNewline

/-- Every use is a stretch in which the name stands as a whole identifier. -/
theorem exists_of_mem (h : w.IsVariableOf d x e) (hentry : d.tree.get? e = some entry)
    {before searched after : List Char}
    (hscope : Scoped x.toList entry.extent before searched after) {u : Location}
    (hu : u ∈ answer (referencesTo d) w) :
    u.file = d.file ∧ ∃ between rest, searched = between ++ (d.symbol.name.toList ++ rest) ∧
      u.range = stretch (before ++ between) d.symbol.name.toList ∧
      startsIdentifier (before ++ between).reverse = true ∧
      endsIdentifier (rest ++ after) = true := by
  rw [h.answer_referencesTo hentry, List.mem_map] at hu
  obtain ⟨r, hr, rfl⟩ := hu
  exact ⟨rfl, hscope.mem_occurrences h.isName.isWordOfLine hr⟩

end IsVariableOf

/-- These are uses of the variable in its overlay: they follow one another with something between
them, the declaration is one of them, and each is a stretch on one line of the variable's file that
lies in the overlay and reads as the variable's name. -/
structure AreUses (text : List Char) (d : Declaration) (entry : Symbol) (uses : List Location) :
    Prop where
  ordered : uses.Pairwise fun a b => a.range.stop < b.range.start
  declaration : ⟨d.file, d.symbol.selection⟩ ∈ uses
  inFile : ∀ u ∈ uses, u.file = d.file
  onLine : ∀ u ∈ uses, u.range.start.line = u.range.stop.line ∧ u.range.start < u.range.stop
  inScope : ∀ u ∈ uses, entry.extent.encloses u.range = true
  named : ∀ u ∈ uses, textAt? text u.range = some d.symbol.name.toList

namespace IsVariableOf

variable {w : Workspace σ} {d : Declaration} {x : String} {e : SymbolId} {entry : Symbol}

theorem areUses (h : w.IsVariableOf d x e) (hentry : d.tree.get? e = some entry) :
    AreUses x.toList d entry (answer (referencesTo d) w) := by
  obtain ⟨entry', hentry', hkind⟩ := h.exists_entry
  rw [hentry] at hentry'
  cases hentry'
  have hword := h.isName.isWordOfLine
  obtain ⟨before, searched, after, hscope⟩ := SymbolTree.exists_scoped h.forest hentry hkind
  refine ⟨?_, ?_, ?_, ?_, ?_, ?_⟩
  · rw [h.answer_referencesTo hentry, List.pairwise_map]
    exact hscope.occurrences_apart hword h.isName.isIdentifier_head
  · rw [h.answer_referencesTo hentry]
    exact List.mem_map_of_mem (h.selection_mem hentry hscope)
  · intro u hu
    exact (h.exists_of_mem hentry hscope hu).1
  · intro u hu
    obtain ⟨-, between, rest, -, hrange, -⟩ := h.exists_of_mem hentry hscope hu
    refine ⟨?_, ?_⟩
    · rw [hrange, hword.stretch_eq]
      rfl
    · rw [hrange]
      exact placeAfter_lt_append _ hword.nonempty
  · intro u hu
    obtain ⟨-, between, rest, hsearched, hrange, -⟩ := h.exists_of_mem hentry hscope hu
    rw [hrange]
    exact hscope.encloses_stretch hsearched
  · intro u hu
    obtain ⟨-, between, rest, hsearched, hrange, -⟩ := h.exists_of_mem hentry hscope hu
    have htext : (before ++ between) ++ (d.symbol.name.toList ++ (rest ++ after)) = x.toList := by
      rw [← hscope.join, hsearched]
      simp
    rw [hrange, ← htext]
    exact hword.textAt?_stretch _ _

/-- Overlays do not share a position, so what is used in one is not used in another. -/
theorem overlay_eq (h : w.IsVariableOf d x e) {d' : Declaration} {x' : String} {e' : SymbolId}
    (h' : w.IsVariableOf d' x' e') {u : Location} (hu : u ∈ answer (referencesTo d) w)
    (hu' : u ∈ answer (referencesTo d') w) : d'.file = d.file ∧ e' = e := by
  obtain ⟨entry, hentry, hkind⟩ := h.exists_entry
  obtain ⟨entry', hentry', hkind'⟩ := h'.exists_entry
  have huses := h.areUses hentry
  have huses' := h'.areUses hentry'
  have hfile : d'.file = d.file := (huses'.inFile u hu').symm.trans (huses.inFile u hu)
  have hx : x' = x := by
    have htext := h'.text
    rw [hfile, h.text] at htext
    cases htext
    rfl
  have htree : d'.tree = d.tree := by rw [h'.tree, h.tree, hfile, hx]
  have hcontains : ∀ {s : Symbol}, s.extent.encloses u.range = true →
      s.extent.contains u.range.start = true := by
    intro s hs
    obtain ⟨hstart, hstop⟩ := Extent.encloses_iff.1 hs
    exact Extent.contains_iff.2 ⟨hstart, le_trans (le_of_lt (huses.onLine u hu).2) hstop⟩
  refine ⟨hfile, h.nested.oneEntry u.range.start e' e entry' entry ?_ hentry hkind' hkind
    (hcontains (huses'.inScope u hu')) (hcontains (huses.inScope u hu))⟩
  rw [← htree]
  exact hentry'

end IsVariableOf

end Workspace

open Workspace

/-- **The uses of a variable are exact in scope.**  They are uses in the variable's overlay, and
variables of different overlays have no use in common, whatever their names. -/
theorem references_exact_in_scope {σ : Type} [Source σ] {w : Workspace σ} {d : Declaration}
    {x : String} {e : SymbolId} (h : w.IsVariableOf d x e) :
    (∃ entry, d.tree.get? e = some entry ∧ entry.kind = .entry ∧
      AreUses x.toList d entry (answer (referencesTo d) w)) ∧
    ∀ d' x' e', w.IsVariableOf d' x' e' → (d'.file ≠ d.file ∨ e' ≠ e) →
      ∀ u ∈ answer (referencesTo d) w, u ∉ answer (referencesTo d') w := by
  refine ⟨?_, fun d' x' e' h' hne u hu hu' => ?_⟩
  · obtain ⟨entry, hentry, hkind⟩ := h.exists_entry
    exact ⟨entry, hentry, hkind, h.areUses hentry⟩
  · obtain ⟨hfile, hentry⟩ := h.overlay_eq h' hu hu'
    rcases hne with hne | hne
    · exact hne hfile
    · exact hne hentry

/-- Two overlays that declare a variable of the same name. -/
def twoSums : String :=
  "$ENTRY A\n$DATA\r\nS N5\r\nT A3 S.T S\r\n$ENTRY B\n$DATA\nS N3"

/-- The workspace over these overlays in which their file has a number. -/
def twoSumsWorkspace : Workspace MemorySource :=
  after (fileId ⟨"A.rtm"⟩)
    (Workspace.ofSource (MemorySource.empty.insert ⟨"A.rtm"⟩ twoSums) .standard)

/-- The variable of the first overlay. -/
def firstSum : Declaration :=
  ⟨parse ⟨0⟩ twoSums, 2, ⟨.var, "S", "S", .onLine 2 0 4, .onLine 2 0 1⟩, by decide +kernel⟩

/-- The variable of the second overlay. -/
def secondSum : Declaration :=
  ⟨parse ⟨0⟩ twoSums, 8, ⟨.var, "S", "S", .onLine 6 0 4, .onLine 6 0 1⟩, by decide +kernel⟩

theorem two_sums_have_uses_of_their_own :
    twoSumsWorkspace.IsVariableOf firstSum twoSums 0 ∧
      twoSumsWorkspace.IsVariableOf secondSum twoSums 6 ∧
      answer (referencesTo firstSum) twoSumsWorkspace =
        [⟨⟨0⟩, .onLine 2 0 1⟩, ⟨⟨0⟩, .onLine 3 9 10⟩] ∧
      ∀ u ∈ answer (referencesTo firstSum) twoSumsWorkspace,
        u ∉ answer (referencesTo secondSum) twoSumsWorkspace := by
  have heval : (firstSum.tree.enclosing? firstSum.id .entry = some 0 ∧
      secondSum.tree.enclosing? secondSum.id .entry = some 6) ∧
      answer (referencesTo firstSum) twoSumsWorkspace =
        [⟨⟨0⟩, .onLine 2 0 1⟩, ⟨⟨0⟩, .onLine 3 9 10⟩] := by
    decide +kernel
  have hfirst : twoSumsWorkspace.IsVariableOf firstSum twoSums 0 := ⟨rfl, rfl, rfl, heval.1.1⟩
  have hsecond : twoSumsWorkspace.IsVariableOf secondSum twoSums 6 := ⟨rfl, rfl, rfl, heval.1.2⟩
  exact ⟨hfirst, hsecond, heval.2,
    (references_exact_in_scope hfirst).2 _ _ _ hsecond (Or.inr (by decide))⟩

end OverlayIndex
