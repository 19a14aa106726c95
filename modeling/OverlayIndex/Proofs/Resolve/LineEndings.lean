/-
Line endings.

Three parts of the library look at the ends of lines, each in its own way: the reader of texts, the
look-up of tokens, and the search for uses, which goes through the raw text by byte offsets.  The
first two only see the contents of lines.  The search is followed through both texts at once: where
the one has a line feed, the other has a carriage return and a line feed, and none of these is part
of a name or joins two of them.  What it finds stands behind corresponding parts of the two texts,
and those have the same positions.  So a text with other line endings reads alike, and workspaces
with such texts answer alike.
-/
import OverlayIndex.Proofs.Resolve.Uses
import OverlayIndex.Proofs.Text.Returns
import OverlayIndex.Proofs.Workspace.History
import OverlayIndex.Proofs.Workspace.Twins

namespace OverlayIndex

/-! ### The search for a name in both texts -/

/-- A name holds no part of a line ending. -/
structure HoldsNoEnding (name : List Char) : Prop where
  noNewline : '\n' ∉ name
  noReturn : '\r' ∉ name

theorem IsName.holdsNoEnding {name : List Char} (h : IsName name) : HoldsNoEnding name :=
  ⟨h.not_mem_of_isBlank (by decide +kernel), h.not_mem_of_isBlank (by decide +kernel)⟩

section Search

variable {name : List Char}

theorem prefix_withReturns_iff (h : HoldsNoEnding name) (cs : List Char) :
    name <+: withReturns cs ↔ name <+: cs := by
  induction name generalizing cs with
  | nil => simp
  | cons n name ih =>
      have hn : n ≠ '\n' ∧ n ≠ '\r' :=
        ⟨fun hn => h.noNewline (by simp [hn]), fun hn => h.noReturn (by simp [hn])⟩
      have hname : HoldsNoEnding name :=
        ⟨fun hmem => h.noNewline (by simp [hmem]), fun hmem => h.noReturn (by simp [hmem])⟩
      cases cs with
      | nil => simp
      | cons c cs =>
          by_cases hc : c = '\n'
          · rw [hc, withReturns_newline]
            simp [hn.1, hn.2]
          · rw [withReturns_cons hc, List.cons_prefix_cons, List.cons_prefix_cons, ih hname]

theorem getLast?_withReturns (cs : List Char) : (withReturns cs).getLast? = cs.getLast? := by
  rcases List.eq_nil_or_concat cs with rfl | ⟨init, last, rfl⟩
  · rfl
  · rw [List.concat_eq_append, withReturns_append]
    by_cases hlast : last = '\n'
    · simp [hlast]
    · simp [withReturns_cons hlast]

theorem startsIdentifier_withReturns (before : List Char) :
    startsIdentifier (withReturns before).reverse = startsIdentifier before.reverse := by
  rw [startsIdentifier, startsIdentifier, List.head?_reverse, List.head?_reverse,
    getLast?_withReturns]

theorem any_head?_withReturns (cs : List Char) :
    (withReturns cs).head?.any isIdentifier = cs.head?.any isIdentifier := by
  cases cs with
  | nil => rfl
  | cons c cs =>
      by_cases hc : c = '\n'
      · rw [hc, withReturns_newline]
        have hneither : isIdentifier '\r' = false ∧ isIdentifier '\n' = false := by decide +kernel
        simp [hneither.1, hneither.2]
      · rw [withReturns_cons hc]
        rfl

theorem endsIdentifier_withReturns (cs : List Char) :
    endsIdentifier (withReturns cs) = endsIdentifier cs := by
  cases cs with
  | nil => rfl
  | cons c cs =>
      by_cases hc : c = '\n'
      · rw [hc, withReturns_newline]
        have hneither : isIdentifier '\r' = false ∧ isIdentifier '\n' = false := by decide +kernel
        simp [endsIdentifier, hneither.1, hneither.2]
      · rw [withReturns_cons hc]
        by_cases hpoint : c = '.'
        · rw [hpoint, endsIdentifier, endsIdentifier, any_head?_withReturns]
        · simp [endsIdentifier]

/-- What is found in the two texts stands behind corresponding parts of them, so it is the same to
all who cannot tell these parts from one another. -/
theorem occurrenceOffsets_withReturns {α : Type} {k k' : Nat → α} (hname : name ≠ [])
    (h : HoldsNoEnding name) (after : List Char) :
    ∀ (searched before : List Char) (skip : Nat), '\n' ∉ searched.take skip →
      (∀ part rest, before ++ searched = part ++ rest →
        k (byteLength part) = k' (byteLength (withReturns part))) →
      (occurrenceOffsets name after skip before.reverse searched).map k =
        (occurrenceOffsets name (withReturns after) skip (withReturns before).reverse
          (withReturns searched)).map k' := by
  intro searched
  induction searched with
  | nil => intro before skip _ _; rfl
  | cons c cs ih =>
      intro before skip hskip hk
      have hsplit : before ++ c :: cs = before ++ [c] ++ cs := by simp
      by_cases hc : c = '\n'
      · -- Nothing is passed over here, and no name begins at a line ending.
        subst hc
        have hzero : skip = 0 := by
          cases skip with
          | zero => rfl
          | succ skip => simp at hskip
        subst hzero
        have hno : ∀ {e : Char} {rest : List Char}, e = '\n' ∨ e = '\r' → ¬name <+: e :: rest := by
          rintro e rest he ⟨more, hmore⟩
          obtain ⟨n, name', rfl⟩ := List.exists_cons_of_ne_nil hname
          obtain ⟨rfl, -⟩ := List.cons.inj hmore
          rcases he with rfl | rfl
          · exact h.noNewline (by simp)
          · exact h.noReturn (by simp)
        rw [withReturns_newline, occurrenceOffsets_pass (hno (Or.inl rfl)),
          occurrenceOffsets_pass (hno (Or.inr rfl)), occurrenceOffsets_pass (hno (Or.inl rfl))]
        have hrest := ih (before ++ ['\n']) 0 (by simp) (hsplit ▸ hk)
        rw [withReturns_append] at hrest
        simpa using hrest
      · have hrest : ∀ skip, '\n' ∉ cs.take skip →
            (occurrenceOffsets name after skip (c :: before.reverse) cs).map k =
              (occurrenceOffsets name (withReturns after) skip (c :: (withReturns before).reverse)
                (withReturns cs)).map k' := by
          intro skip hskip
          have hstep := ih (before ++ [c]) skip hskip (hsplit ▸ hk)
          rw [withReturns_append, withReturns_cons hc] at hstep
          simpa using hstep
        rw [withReturns_cons hc]
        cases skip with
        | succ skip => exact hrest skip fun hmem => hskip (by simp [hmem])
        | zero =>
            by_cases hprefix : name <+: c :: cs
            · obtain ⟨rest, hmatch⟩ := hprefix
              have hmatch' : c :: withReturns cs = name ++ withReturns rest := by
                rw [← withReturns_cons hc, ← hmatch, withReturns_append,
                  withReturns_of_not_mem h.noNewline]
              have hpassed : '\n' ∉ cs.take (name.length - 1) := by
                obtain ⟨n, name', rfl⟩ := List.exists_cons_of_ne_nil hname
                obtain ⟨-, rfl⟩ := List.cons.inj hmatch
                simpa using fun hmem => h.noNewline (by simp [hmem])
              rw [occurrenceOffsets_match hmatch.symm, occurrenceOffsets_match hmatch',
                startsIdentifier_withReturns, ← withReturns_append, endsIdentifier_withReturns,
                List.map_append, List.map_append, hrest _ hpassed]
              congr 1
              by_cases hwhole : (startsIdentifier before.reverse && endsIdentifier (rest ++ after))
                = true
              · rw [if_pos hwhole, if_pos hwhole, byteLength_reverse, byteLength_reverse]
                exact congrArg (fun x => [x]) (hk before (c :: cs) rfl)
              · rw [if_neg hwhole, if_neg hwhole]
                rfl
            · have hprefix' : ¬name <+: c :: withReturns cs := by
                rw [← withReturns_cons hc, prefix_withReturns_iff h]
                exact hprefix
              rw [occurrenceOffsets_pass hprefix, occurrenceOffsets_pass hprefix']
              exact hrest 0 (by simp)

variable {text before searched after : List Char} {scope : Extent}

theorem isPlace_withReturns (h : Returnless text) (p : Position) :
    IsPlace (withReturns text) p ↔ IsPlace text p := by
  rw [IsPlace, IsPlace, contentLines_withReturns h]

/-- The scope is the same in both texts. -/
theorem Scoped.withReturns (h : Returnless text) (hscope : Scoped text scope before searched after) :
    Scoped (withReturns text) scope (withReturns before) (withReturns searched)
      (withReturns after) where
  join := by rw [← hscope.join, withReturns_append, withReturns_append]
  start := by rw [placeAfter_withReturns, hscope.start]
  stop := by rw [← withReturns_append, placeAfter_withReturns, hscope.stop]
  start_isPlace := (isPlace_withReturns h _).2 hscope.start_isPlace
  stop_isPlace := (isPlace_withReturns h _).2 hscope.stop_isPlace

theorem occurrences_withReturns (h : Returnless text)
    (hscope : Scoped text scope before searched after) (hname : IsName name) :
    occurrences text scope name = occurrences (withReturns text) scope name := by
  have hword := hname.isWordOfLine
  rw [hscope.occurrences_eq hword, (hscope.withReturns h).occurrences_eq hword]
  refine occurrenceOffsets_withReturns hword.nonempty hname.holdsNoEnding after searched before 0
    (by simp) fun part rest hpart => ?_
  have hleft := LineIndex.position_byteLength part (rest ++ after)
  have hright := LineIndex.position_byteLength (withReturns part) (withReturns (rest ++ after))
  have hjoin : part ++ (rest ++ after) = text := by
    rw [← hscope.join, ← List.append_assoc, ← hpart, List.append_assoc]
  rw [← withReturns_append, hjoin, placeAfter_withReturns, ← hleft, hjoin] at hright
  rw [hright]

end Search

/-! ### Texts -/

/-- The text with a carriage return before every line feed. -/
def returned (x : String) : String :=
  String.ofList (withReturns x.toList)

/-- **A text with other line endings reads alike.** -/
theorem readAlike_returned {x : String} (h : Returnless x.toList) : ReadAlike x (returned x) := by
  have hlines : contentLines (returned x).toList = contentLines x.toList := by
    rw [returned, String.toList_ofList, contentLines_withReturns h]
  refine ⟨?_, fun p => ?_, fun e he hkind s hs hvar => ?_⟩
  · rw [parseChars, parseChars, hlines]
  · rw [textTokenAt?, textTokenAt?, hlines]
  · obtain ⟨i, hi⟩ := List.getElem?_of_mem he
    have hget : (parse ⟨0⟩ x).get? i = some e := by
      rw [SymbolTree.get?_eq, SymbolTree.symbols_eq]
      exact hi
    obtain ⟨before, searched, after, hscope⟩ := SymbolTree.exists_scoped rfl hget hkind
    obtain ⟨gap, rest, -, -, -, hname⟩ := line_of_var hs hvar
    rw [returned, String.toList_ofList]
    exact occurrences_withReturns h hscope hname

/-- The second source is the first with other line endings in the chosen files, none of which has a
carriage return before a line feed in the first. -/
structure Source.Reended {σ τ : Type} [Source σ] [Source τ] (chosen : Path → Bool) (s : σ) (t : τ) :
    Prop where
  find : ∀ pattern, Source.find s pattern = Source.find t pattern
  normalize : ∀ p, Source.normalize s p = Source.normalize t p
  texts : ∀ p, (Source.read t p).text.toOption =
    (Source.read s p).text.toOption.map fun x => if chosen p = true then returned x else x
  returnless : ∀ p x, chosen p = true → (Source.read s p).text.toOption = some x →
    Returnless x.toList

theorem Source.Reended.readAlike {σ τ : Type} [Source σ] [Source τ] {chosen : Path → Bool} {s : σ}
    {t : τ} (h : Source.Reended chosen s t) (p : Path) :
    Option.Rel ReadAlike (Source.read s p).text.toOption (Source.read t p).text.toOption := by
  rw [h.texts p]
  cases hx : (Source.read s p).text.toOption with
  | none => exact .none
  | some x =>
      by_cases hchosen : chosen p = true
      · rw [Option.map_some, if_pos hchosen]
        exact .some (readAlike_returned (h.returnless p x hchosen hx))
      · rw [Option.map_some, if_neg hchosen]
        exact .some (.refl x)

/-! ### Workspaces -/

namespace Workspace

variable {σ τ : Type} [Source σ] [Source τ]

/-- The trees that are kept are those of the texts with other line endings too. -/
theorem Current.reended {w : Workspace σ} {t : σ} {chosen : Path → Bool} (h : w.Current)
    (ht : Source.Calm t) (hsources : Source.Reended chosen w.source t) :
    Current { w with source := t } := by
  refine ⟨ht, h.distinct, fun f tree htree => ?_⟩
  obtain ⟨x, hx, rfl⟩ := h.fresh f tree htree
  obtain ⟨p, hp, hread⟩ := Option.bind_eq_some_iff.1 hx
  have halike := hsources.readAlike p
  rw [hread] at halike
  cases hy : (Source.read t p).text.toOption with
  | none =>
      rw [hy] at halike
      cases halike
  | some y =>
      rw [hy] at halike
      cases halike with
      | some hxy =>
          refine ⟨y, Option.bind_eq_some_iff.2 ⟨p, hp, hy⟩, ?_⟩
          rw [parse, parse, hxy.forest]

/-- **Line endings never matter.**  Of two workspaces with the same numbers, one has a carriage return
before every line feed in the chosen files, where the other has none.  Whatever is asked of both
before, they give the same numbers to paths, the same trees to files and the same answers to all
queries, positions included. -/
theorem line_endings_never_matter {w : Workspace σ} {v : Workspace τ} (chosen : Path → Bool)
    (hsources : Source.Reended chosen w.source v.source) (hconfig : w.config = v.config)
    (hfiles : w.files = v.files) (hw : w.Current) (hv : v.Current) (asked : List Question) :
    (∀ p, answer (fileId p) (w.poseAll asked) = answer (fileId p) (v.poseAll asked)) ∧
    (∀ f, answer (tree f) (w.poseAll asked) = answer (tree f) (v.poseAll asked)) ∧
    ∀ q f, answer (ask q f) (w.poseAll asked) = answer (ask q f) (v.poseAll asked) := by
  have htwins : Twins w v :=
    ⟨hsources.find, hsources.normalize, hsources.readAlike, hconfig, hfiles, hw, hv⟩
  have hlater := htwins.poseAll asked
  exact ⟨fun p => (hlater.fileId p).1, fun f => hlater.tree f, fun q f => (hlater.ask q f).1⟩

end Workspace

namespace MemorySource

/-- The texts with other line endings in the files whose paths are chosen by their components. -/
def reended (chosen : List Component → Bool) (m : MemorySource) : MemorySource :=
  ⟨m.buffers.map fun b =>
    if chosen b.path.components = true then { b with text := returned b.text } else b⟩

theorem reended_reended {chosen : List Component → Bool} {m : MemorySource}
    (h : ∀ b ∈ m.buffers, chosen b.path.components = true → Returnless b.text.toList) :
    Source.Reended (fun p => chosen p.components) m (m.reended chosen) := by
  have hpath : ∀ b : Buffer, (if chosen b.path.components = true
      then { b with text := returned b.text } else b).path = b.path := by
    intro b
    by_cases hb : chosen b.path.components = true
    · rw [if_pos hb]
    · rw [if_neg hb]
  have hfind : ∀ p, (m.reended chosen).buffers.find? (·.path.same p) =
      (m.buffers.find? (·.path.same p)).map fun b => if chosen b.path.components = true
        then { b with text := returned b.text } else b := by
    intro p
    rw [reended, List.find?_map]
    simp only [Function.comp_def, hpath]
  refine ⟨fun pattern => ?_, fun _ => rfl, fun p => ?_, fun p x hp hx => ?_⟩
  · show m.find pattern = (m.reended chosen).find pattern
    rw [find, find, reended, List.map_map]
    simp only [Function.comp_def, hpath]
  · show ((m.reended chosen).read p).toOption = (m.read p).toOption.map _
    rw [toOption_read, toOption_read, get?, get?, hfind, Option.map_map, Option.map_map]
    cases hb : m.buffers.find? (·.path.same p) with
    | none => rfl
    | some b =>
        have hsame := Path.same_iff.1 (List.find?_some (p := fun b : Buffer => b.path.same p) hb)
        simp only [Option.map_some, Function.comp_apply, hsame]
        by_cases hchosen : chosen p.components = true
        · rw [if_pos hchosen, if_pos hchosen]
        · rw [if_neg hchosen, if_neg hchosen]
  · rw [show (Source.read m p).text.toOption = (m.read p).toOption from rfl, toOption_read, get?,
      Option.map_eq_some_iff] at hx
    obtain ⟨b, hb, rfl⟩ := hx
    have hsame := Path.same_iff.1 (List.find?_some (p := fun b : Buffer => b.path.same p) hb)
    exact h b (List.mem_of_find?_eq_some hb) (by rw [hsame]; exact hp)

end MemorySource

open Workspace

/-- A variable with uses on several lines, one of them between carriage returns, and another file
that has the other line endings already. -/
def twoEndings : MemorySource :=
  ⟨[⟨⟨"ORD.rtm"⟩, "$ENTRY ORD\n$DATA\nX N5\n$PROG\nX\rX\n\nX.\r"⟩,
    ⟨⟨"STOCK.rtm"⟩, "$ENTRY STOCK\r\n$DATA"⟩]⟩

def onlyOrders (path : List Component) : Bool :=
  path = [.name "ORD.rtm"]

/-- The workspace after the first file was numbered and its tree kept. -/
def ordersSeen : Workspace MemorySource :=
  after (fileId ⟨"ORD.rtm"⟩ >>= ask .outline) (.ofSource twoEndings .standard)

/-- The same workspace when line endings change under the tree that is kept. -/
def ordersReended : Workspace MemorySource :=
  { ordersSeen with source := twoEndings.reended onlyOrders }

theorem uses_between_returns :
    Source.Reended (fun p => onlyOrders p.components) ordersSeen.source ordersReended.source ∧
    ordersSeen.Current ∧ ordersReended.Current ∧
    (Source.read ordersReended.source ⟨"ORD.rtm"⟩).text.toOption =
      some "$ENTRY ORD\r\n$DATA\r\nX N5\r\n$PROG\r\nX\rX\r\n\r\nX.\r" ∧
    answer (ask (.references ⟨2, 0⟩) ⟨0⟩) ordersSeen =
      .references [(⟨0⟩, .onLine 2 0 1), (⟨0⟩, .onLine 4 0 1), (⟨0⟩, .onLine 4 2 3),
        (⟨0⟩, .onLine 6 0 1)] ∧
    answer (ask (.references ⟨2, 0⟩) ⟨0⟩) ordersSeen =
      answer (ask (.references ⟨2, 0⟩) ⟨0⟩) ordersReended := by
  have hcurrent : ordersSeen.Current :=
    (Current.ofSource twoEndings.calm .standard).after_askPath _ _
  have hsources : Source.Reended (fun p => onlyOrders p.components) ordersSeen.source
      ordersReended.source := by
    refine MemorySource.reended_reended fun b hb hchosen => ?_
    rcases List.mem_cons.1 hb with rfl | hb
    · unfold Returnless
      decide +kernel
    · rw [List.mem_singleton.1 hb] at hchosen
      exact absurd hchosen (by decide +kernel)
  have hcurrent' : ordersReended.Current := hcurrent.reended (MemorySource.calm _) hsources
  refine ⟨hsources, hcurrent, hcurrent', by decide +kernel, by decide +kernel, ?_⟩
  exact (line_endings_never_matter _ hsources rfl rfl hcurrent hcurrent' []).2.2
    (.references ⟨2, 0⟩) ⟨0⟩

end OverlayIndex
