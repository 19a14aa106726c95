/-
Comments.

What is behind a comment mark has no say in the structure of a text.  Two texts that look alike line
by line once their comments are gone are read in lockstep: the same events happen at the same columns,
and the two drafts differ only in where constructs end that close with the line before, as that
depends on the whole length of the line.  So the trees are the same up to the columns where symbols
end, and if the lines are of the same length as well, they are the same.
-/
import OverlayIndex.Proofs.Parse.Recast
import OverlayIndex.Proofs.Parse.Scan

namespace OverlayIndex

/-- The beginning of the position's line. -/
def Position.lineStart (p : Position) : Position :=
  ⟨p.line, 0⟩

theorem Position.lineStart_max (p q : Position) :
    (max p q).lineStart = max p.lineStart q.lineStart := by
  rw [max_def, max_def]
  simp only [lineStart, le_def]
  by_cases hline : p.line ≤ q.line
  · rw [if_pos (show p.line < q.line ∨ p.line = q.line ∧ 0 ≤ 0 by omega)]
    by_cases h : p.line < q.line ∨ p.line = q.line ∧ p.col ≤ q.col
    · rw [if_pos h]
    · rw [if_neg h, show p.line = q.line by omega]
  · rw [if_neg (by omega), if_neg (by omega)]

/-- The symbol without the column where it ends. -/
def Symbol.blurred (s : Symbol) : Symbol :=
  { s with extent := ⟨s.extent.start, s.extent.stop.lineStart⟩ }

theorem Symbol.blurred_extendTo (s : Symbol) (p : Position) :
    (s.extendTo p).blurred = s.blurred.extendTo p.lineStart := by
  simp only [extendTo, blurred, Extent.extendTo, Position.lineStart_max]

/-- Forgetting the columns where symbols end, as a change of symbols. -/
def Recasting.blur : Recasting :=
  ⟨Symbol.blurred, Position.lineStart, Symbol.blurred_extendTo, fun _ => rfl⟩

/-! ### Two runs in lockstep -/

section Lockstep

variable {R : Recasting} {edge edge' : Position}

theorem LineContext.closePosition_recast (number : Nat) (hedge : R.position edge = R.position edge')
    (k : Closing) :
    R.position (closePosition ⟨number, edge⟩ k) = R.position (closePosition ⟨number, edge'⟩ k) := by
  unfold closePosition
  by_cases hboundary : k.boundary = true
  · rw [if_pos hboundary, if_pos hboundary]
    by_cases hstart : k.span.start = 0
    · rw [if_pos hstart, if_pos hstart]
      exact hedge
    · rw [if_neg hstart, if_neg hstart]
  · rw [if_neg hboundary, if_neg hboundary]

/-- What one event does to two drafts that are the same but for the change. -/
theorem LineContext.step?_recast (number : Nat) (hedge : R.position edge = R.position edge')
    {d d' : Draft} (hd : d.recast R .nil = d'.recast R .nil) (c : Cursor) :
    (step? ⟨number, edge⟩ d c).map (Prod.map (Draft.recast R .nil) id) =
      (step? ⟨number, edge'⟩ d' c).map (Prod.map (Draft.recast R .nil) id) := by
  have hnext : d.next? c = d'.next? c := by
    rw [← d.next?_recast R .nil, hd, d'.next?_recast R .nil]
  rw [step?, step?, ← hnext, Option.map_map, Option.map_map]
  refine congrArg (fun g => (d.next? c).map g) (funext fun e => ?_)
  cases e with
  | close k =>
      simp only [apply, Function.comp_apply, Prod.map, id, ← Draft.close_recast, hd,
        closePosition_recast number hedge k]
  | add r m =>
      simp only [apply, Function.comp_apply, Prod.map, id, ← Draft.add_recast, hd]
      rfl

theorem LineContext.scan_recast (number : Nat) (hedge : R.position edge = R.position edge') :
    ∀ (d : Draft) (c : Cursor) (d' : Draft), d.recast R .nil = d'.recast R .nil →
      (scan ⟨number, edge⟩ d c).recast R .nil = (scan ⟨number, edge'⟩ d' c).recast R .nil := by
  refine LineContext.event_induction ⟨number, edge⟩ fun d c ih d' hd => ?_
  have hstep := step?_recast number hedge hd c
  rw [scan_eq, scan_eq ⟨number, edge'⟩]
  cases hx : step? ⟨number, edge⟩ d c with
  | none =>
      rw [hx, Option.map_none, eq_comm, Option.map_eq_none_iff] at hstep
      rw [hstep]
      exact hd
  | some x =>
      rw [hx, Option.map_some, eq_comm, Option.map_eq_some_iff] at hstep
      obtain ⟨⟨next, after⟩, hy, hsame⟩ := hstep
      obtain ⟨hnext, hafter⟩ : next.recast R .nil = x.1.recast R .nil ∧ after = x.2 :=
        Prod.ext_iff.1 hsame
      rw [hy, hafter]
      exact ih x hx next hnext.symm

/-- What the reader sees of a line up to the change: what it looks at, and for every number that the
line may have the position of its end. -/
def Recasting.look (R : Recasting) (line : List Char) : List Char × (Nat → Position) :=
  (visible line, fun number => R.position ⟨number, byteLength line⟩)

theorem Draft.readLines_recast :
    ∀ (lines lines' : List (List Char)), lines.map R.look = lines'.map R.look →
      ∀ (number : Nat) (edge edge' : Position) (d d' : Draft), R.position edge = R.position edge' →
        d.recast R .nil = d'.recast R .nil →
        (d.readLines number edge lines).1.recast R .nil =
            (d'.readLines number edge' lines').1.recast R .nil ∧
          R.position (d.readLines number edge lines).2 =
            R.position (d'.readLines number edge' lines').2 := by
  intro lines
  induction lines with
  | nil =>
      intro lines' h number edge edge' d d' hedge hd
      cases List.map_eq_nil_iff.1 h.symm
      exact ⟨hd, hedge⟩
  | cons line lines ih =>
      intro lines' h number edge edge' d d' hedge hd
      obtain ⟨line', lines', rfl, hline, hlines⟩ := List.map_eq_cons_iff.1 h.symm
      obtain ⟨hvisible, hend⟩ := Prod.ext_iff.1 hline
      rw [readLines, readLines, show visible line' = visible line from hvisible]
      refine ih lines' hlines.symm _ _ _ _ _ (congrFun hend number).symm
        (LineContext.scan_recast number hedge _ _ _ ?_)
      rw [← breakLine_recast, ← breakLine_recast, hd, hedge]

/-- The forests of two texts whose lines look the same. -/
theorem parseChars_recast {text text' : List Char}
    (h : (contentLines text).map R.look = (contentLines text').map R.look) :
    (parseChars text).map R.symbol = (parseChars text').map R.symbol := by
  obtain ⟨hdraft, hedge⟩ := Draft.readLines_recast (R := R) _ _ h
    0 ⟨0, 0⟩ ⟨0, 0⟩ .empty .empty rfl rfl
  have hfinish := Draft.finish_recast R .nil (Draft.readLines .empty 0 ⟨0, 0⟩ (contentLines text)).1
    (Draft.readLines .empty 0 ⟨0, 0⟩ (contentLines text)).2
  rw [hdraft, hedge, Draft.finish_recast] at hfinish
  exact hfinish.symm

end Lockstep

/-! ### Trees -/

theorem Forest.map_id {α : Type} (f : Forest α) : f.map id = f := by
  induction f with
  | nil => rfl
  | node a below beside ih₁ ih₂ => rw [map, ih₁, ih₂, id]

/-- Trees that are the same up to a change of their symbols have these in the same places. -/
theorem SymbolTree.places_of_map {t t' : SymbolTree} {g : Symbol → Symbol}
    (h : t.forest.map g = t'.forest.map g) :
    t.size = t'.size ∧ t.roots = t'.roots ∧ t.symbols.map g = t'.symbols.map g ∧
      ∀ id, t.parent? id = t'.parent? id ∧ t.children id = t'.children id := by
  have hnodes : t.nodes.map (Forest.Node.moved 0 g) = t'.nodes.map (Forest.Node.moved 0 g) := by
    rw [nodes, nodes, ← Forest.nodesFrom_moved 0 g t.forest 0 none,
      ← Forest.nodesFrom_moved 0 g t'.forest 0 none, h]
  refine ⟨?_, ?_, ?_, fun id => ?_⟩
  · rw [size, ← Forest.size_map g, h, Forest.size_map, size]
  · have hroots := Forest.rootIds_moved 0 g t.forest 0
    rw [h, Forest.rootIds_moved 0 g t'.forest 0] at hroots
    simpa [roots] using hroots.symm
  · have hvalues := congrArg (List.map (·.value)) hnodes
    rw [List.map_map, List.map_map] at hvalues
    rw [symbols, symbols, List.map_map, List.map_map]
    exact hvalues
  · have hnode : (t.node? id).map (Forest.Node.moved 0 g) =
        (t'.node? id).map (Forest.Node.moved 0 g) := by
      rw [node?_eq, node?_eq, ← List.getElem?_map, ← List.getElem?_map, hnodes]
    have hparent := congrArg (Option.bind · (·.parent)) hnode
    have hchildren := congrArg (fun n => (n.map (·.children)).getD []) hnode
    refine ⟨?_, ?_⟩
    · simpa [Forest.Node.moved, Option.bind_map, Function.comp_def, parent?] using hparent
    · simpa [Forest.Node.moved, Function.comp_def, children] using hchildren

/-- **Comments have no say in the structure.**  Of two texts with the same lines once comments are
gone, the trees have the same symbols up to the columns where these end, with the same neighbours,
and if the lines are of the same lengths, comments included, the trees are the same. -/
theorem parse_ignores_comments (file : FileId) (text text' : String)
    (h : (contentLines text.toList).map visible = (contentLines text'.toList).map visible) :
    (parse file text).size = (parse file text').size ∧
    (parse file text).roots = (parse file text').roots ∧
    (parse file text).symbols.map Symbol.blurred = (parse file text').symbols.map Symbol.blurred ∧
    (∀ id, (parse file text).parent? id = (parse file text').parent? id ∧
      (parse file text).children id = (parse file text').children id) ∧
    ((contentLines text.toList).map byteLength = (contentLines text'.toList).map byteLength →
      parse file text = parse file text') := by
  have hblur : (parseChars text.toList).map Symbol.blurred =
      (parseChars text'.toList).map Symbol.blurred := by
    refine parseChars_recast (R := .blur) ?_
    have hlook : Recasting.blur.look = (fun seen => (seen, fun number => ⟨number, 0⟩)) ∘ visible := rfl
    rw [hlook, ← List.map_map, h, List.map_map]
  obtain ⟨hsize, hroots, hsymbols, hplaces⟩ := SymbolTree.places_of_map
    (show (parse file text).forest.map _ = (parse file text').forest.map _ from hblur)
  refine ⟨hsize, hroots, hsymbols, hplaces, fun hlength => ?_⟩
  have hsame : (parseChars text.toList).map id = (parseChars text'.toList).map id := by
    refine parseChars_recast (R := .refl) ?_
    have hlook : Recasting.refl.look = (fun seen => (seen.1, fun number => ⟨number, seen.2⟩)) ∘
      (fun line => (visible line, byteLength line)) := rfl
    have hpairs : (contentLines text.toList).map (fun line => (visible line, byteLength line)) =
        (contentLines text'.toList).map fun line => (visible line, byteLength line) := by
      rw [← List.zip_map', ← List.zip_map', h, hlength]
    rw [hlook, ← List.map_map, ← List.map_map, hpairs]
  rw [Forest.map_id, Forest.map_id] at hsame
  rw [parse, parse, hsame]

/-- An overlay with a list of values that the line of the next block ends. -/
def plainText : String :=
  "$ENTRY OVL<<\n$DATA\n\nX C^1<<\n$PROG"

/-- The same with comments that would open and end constructs, were they looked at. -/
def commentedText : String :=
  "$ENTRY OVL<<$NAME B\n$DATA\n*$PROG\nX C^1<<^ $PROG\n$PROG"

/-- The same with other comments, each as long as the one it stands for. -/
def recommentedText : String :=
  "$ENTRY OVL<<nothing\n$DATA\n*later\nX C^1<<see OVL\n$PROG"

/-- Longer comments move the end of the list, and comments of the same length move nothing. -/
theorem comments_move_only_ends :
    ((contentLines plainText.toList).map visible = (contentLines commentedText.toList).map visible ∧
      (parse ⟨0⟩ plainText).symbols.map Symbol.blurred =
        (parse ⟨0⟩ commentedText).symbols.map Symbol.blurred ∧
      parse ⟨0⟩ plainText ≠ parse ⟨0⟩ commentedText) ∧
    (contentLines commentedText.toList).map visible =
        (contentLines recommentedText.toList).map visible ∧
      (contentLines commentedText.toList).map byteLength =
        (contentLines recommentedText.toList).map byteLength ∧
      parse ⟨0⟩ commentedText = parse ⟨0⟩ recommentedText := by
  have hplain : (contentLines plainText.toList).map visible =
      (contentLines commentedText.toList).map visible := by decide +kernel
  have hother : (contentLines commentedText.toList).map visible =
      (contentLines recommentedText.toList).map visible := by decide +kernel
  have hlength : (contentLines commentedText.toList).map byteLength =
      (contentLines recommentedText.toList).map byteLength := by decide +kernel
  refine ⟨⟨hplain, ?_, by decide +kernel⟩, hother, hlength, ?_⟩
  · exact (parse_ignores_comments ⟨0⟩ plainText commentedText hplain).2.2.1
  · exact (parse_ignores_comments ⟨0⟩ commentedText recommentedText hother).2.2.2.2 hlength

end OverlayIndex
