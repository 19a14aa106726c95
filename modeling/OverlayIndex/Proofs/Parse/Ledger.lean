/-
Symbols by number.

A draft can be kept flat.  A ledger has a row for every symbol, in the order in which they open,
with the file it is from and the numbers of the row that holds it and of the rows it holds, and a
stack of the open constructs by the numbers of their rules and rows.  Whatever is done to a ledger
looks up rules and rows by number and stretches of the line by byte columns, and it fails where a
number or a column stands for nothing.

Closing a frame does not change any number: its rows stand behind those of the frame around it, and
they still do when it is closed (`ofDraft_hang_node`).  So each thing that is done to a draft is done
to its ledger as well, without fail, and a round of the loop over a line is an event
(`round?_ofDraft`).
-/
import OverlayIndex.Proofs.Parse.Preorder
import OverlayIndex.Proofs.Resolve.Occurrences

namespace OverlayIndex

namespace Rule

/-- The rules in the order of their numbers. -/
def all : List Rule :=
  [entry, name, dataArea, var, alnumMask, numericMask, codeMask, codeValue, ext, overlayRef, prog,
    proc, inclusion]

/-- The number of a rule. -/
def number (r : Rule) : Nat :=
  all.idxOf r

@[simp] theorem all_number (r : Rule) : all[r.number]? = some r := by
  cases r <;> decide

end Rule

namespace Draft

/-- A draft of which the rules of the open constructs are known and nothing else. -/
def ofRules (rules : List Rule) : Draft :=
  ⟨rules.map fun r => ⟨r, ⟨r.kind, "", "", .onLine 0 0 0, .onLine 0 0 0⟩, .nil⟩, .nil⟩

theorem rules_ofRules (rs : List Rule) : rules (ofRules rs).frames = rs := by
  rw [rules, ofRules, List.map_map]
  exact List.map_id rs

theorem closingsFrom_congr {c : Cursor} :
    ∀ {frames frames' : List Frame} {outside : Nat}, rules frames = rules frames' →
      closingsFrom c outside frames = closingsFrom c outside frames' := by
  intro frames
  induction frames with
  | nil =>
      intro frames' outside h
      rw [List.map_eq_nil_iff.1 h.symm]
  | cons f frames ih =>
      intro frames' outside h
      obtain ⟨f', frames', rfl, hf, hframes⟩ := List.map_eq_cons_iff.1 h.symm
      rw [closingsFrom, closingsFrom, hf, ih hframes.symm]

/-- What happens next depends on the rules of the open constructs only. -/
theorem next?_congr {d d' : Draft} (h : rules d.frames = rules d'.frames) (c : Cursor) :
    d.next? c = d'.next? c := by
  unfold next? closing? opening?
  rw [closingsFrom_congr h, permitted_eq, permitted_eq, h]

end Draft

/-- An open construct, by the numbers of its rule and of its symbol's row. -/
structure Slot where
  rule : Nat
  symbol : SymbolId
  deriving DecidableEq, Repr

/-- A row: a symbol, the numbers of the symbols that directly hold it and that it directly holds, and
the file it is from. -/
structure Row extends Forest.Node Symbol where
  owner : FileId
  deriving DecidableEq, Repr

namespace Row

/-- The row, its symbol made to reach at least to `p`. -/
def extendTo (row : Row) (p : Position) : Row :=
  { row with value := row.value.extendTo p }

/-- The row, holding one more symbol. -/
def hold (row : Row) (id : SymbolId) : Row :=
  { row with children := row.children ++ [id] }

end Row

/-- All symbols of a file by number, and the open constructs, innermost first. -/
structure Ledger where
  file : FileId
  rows : List Row
  roots : List SymbolId
  stack : List Slot
  deriving DecidableEq, Repr

namespace Ledger

/-! ### What is done to a ledger -/

/-- Nothing read yet. -/
def empty (file : FileId) : Ledger :=
  ⟨file, [], [], []⟩

/-- The rules of the open constructs. -/
def rules? (l : Ledger) : Option (List Rule) :=
  l.stack.mapM fun s => Rule.all[s.rule]?

/-- Closes constructs from the inside for as long as `p` holds of the rule and the row. -/
def settle? (p : Rule → Row → Bool) (stop : Position) (file : FileId) (roots : List SymbolId) :
    List Slot → List Row → Option Ledger
  | [], rows => some ⟨file, rows, roots, []⟩
  | s :: stack, rows =>
    Rule.all[s.rule]?.bind fun r => rows[s.symbol]?.bind fun row =>
      if p r row then settle? p stop file roots stack (rows.set s.symbol (row.extendTo stop))
      else some ⟨file, rows, roots, s :: stack⟩

/-- The construct of the row holds as many others as the rule allows. -/
def isFull (r : Rule) (row : Row) : Bool :=
  r.maxChildren.any (· ≤ row.children.length)

/-- Closes that many constructs, and then those that have become full. -/
def closeSlots? (stop : Position) (file : FileId) (roots : List SymbolId) :
    Nat → List Slot → List Row → Option Ledger
  | 0, stack, rows => settle? isFull stop file roots stack rows
  | _ + 1, [], rows => some ⟨file, rows, roots, []⟩
  | n + 1, s :: stack, rows =>
    rows[s.symbol]?.bind fun row =>
      closeSlots? stop file roots n stack (rows.set s.symbol (row.extendTo stop))

/-- Closes the `n` innermost constructs, and those that this makes full. -/
def close? (l : Ledger) (n : Nat) (stop : Position) : Option Ledger :=
  closeSlots? stop l.file l.roots n l.stack l.rows

/-- Closes the constructs that end with their line. -/
def breakLine? (l : Ledger) (stop : Position) : Option Ledger :=
  settle? (fun r _ => r.isImplicit) stop l.file l.roots l.stack l.rows

/-- Closes all constructs. -/
def finish? (l : Ledger) (stop : Position) : Option Ledger :=
  settle? (fun _ _ => true) stop l.file l.roots l.stack l.rows

/-- Gives a symbol the next number and makes the innermost construct hold it. -/
def enter? (l : Ledger) (s : Symbol) : Option Ledger :=
  match l.stack with
  | [] => some ⟨l.file, l.rows ++ [⟨⟨s, none, []⟩, l.file⟩], l.roots ++ [l.rows.length], []⟩
  | top :: stack =>
    l.rows[top.symbol]?.map fun row =>
      ⟨l.file, l.rows.set top.symbol (row.hold l.rows.length) ++
        [⟨⟨s, some top.symbol, []⟩, l.file⟩], l.roots, top :: stack⟩

/-- Opens a construct.  One that is over as soon as it is read may fill the one around it. -/
def add? (l : Ledger) (rule : Rule) (symbol : Symbol) : Option Ledger :=
  (l.enter? symbol).bind fun l' =>
    if rule.isLeaf then settle? isFull symbol.extent.stop l'.file l'.roots l'.stack l'.rows
    else some { l' with stack := ⟨rule.number, l.rows.length⟩ :: l'.stack }

/-! ### A round of the loop over a line -/

/-- What happens next from a byte column of the line on. -/
def event? (l : Ledger) (line : List Char) (offset : Nat) : Option (Option Event) :=
  l.rules?.bind fun rules => (cutAtByte offset line).map fun x =>
    (Draft.ofRules rules).next? ⟨x.1.reverse, x.2⟩

/-- The symbol of a mark, its texts cut out of the line by their columns. -/
def symbol? (ctx : LineContext) (line : List Char) (rule : Rule) (mark : Mark) : Option Symbol :=
  (cutBetween? line mark.name.start mark.name.stop).bind fun name =>
    (cutBetween? line mark.whole.start mark.whole.stop).map fun whole =>
      { ctx.symbol rule mark with
        name := String.ofList name.2.1
        detail := String.ofList whole.2.1 }

/-- What an event does, and the column from which reading goes on. -/
def perform? (ctx : LineContext) (line : List Char) (l : Ledger) (offset : Nat) :
    Event → Option (Ledger × Nat)
  | .close k =>
    (l.close? k.count (ctx.closePosition k)).map fun l' =>
      (l', if k.boundary then offset else k.span.stop)
  | .add r m => (symbol? ctx line r m).bind fun s => (l.add? r s).map fun l' => (l', m.whole.stop)

/-- One round: the next event, done, or nothing if there is none. -/
def round? (ctx : LineContext) (line : List Char) (l : Ledger) (offset : Nat) :
    Option (Option (Ledger × Nat)) :=
  (l.event? line offset).bind fun next =>
    next.elim (some none) fun e => (perform? ctx line l offset e).map some

/-! ### Drafts as ledgers -/

section OfDraft

variable (file : FileId) (roots : Forest Symbol)

/-- The rows of nodes that are all from the file. -/
def rowsFrom (nodes : List (Forest.Node Symbol)) : List Row :=
  nodes.map fun n => ⟨n, file⟩

/-- The number of symbols, which is the number of the next one. -/
def count : List Frame → Nat
  | [] => roots.size
  | f :: frames => count frames + 1 + f.below.size

/-- The number of the innermost open symbol. -/
def top? : List Frame → Option SymbolId
  | [] => none
  | _ :: frames => some (count roots frames)

/-- The row of an open symbol; `inner` is the number of the open symbol right inside it, if there is
one. -/
def rowOf (f : Frame) (frames : List Frame) (inner : List SymbolId) : Row :=
  ⟨⟨f.symbol, top? roots frames, f.below.rootIds (count roots frames + 1) ++ inner⟩, file⟩

/-- The rows of all symbols. -/
def rowsOf (inner : List SymbolId) : List Frame → List Row
  | [] => rowsFrom file (roots.nodesFrom 0 none)
  | f :: frames =>
    rowsOf [count roots frames] frames ++ rowOf file roots f frames inner ::
      rowsFrom file (f.below.nodesFrom (count roots frames + 1) (some (count roots frames)))

/-- The open constructs by number. -/
def slotsOf : List Frame → List Slot
  | [] => []
  | f :: frames => ⟨f.rule.number, count roots frames⟩ :: slotsOf frames

/-- The numbers of the symbols at file level, open ones included. -/
def rootsOf : List Frame → List SymbolId
  | [] => roots.rootIds 0
  | _ :: _ => roots.rootIds 0 ++ [roots.size]

end OfDraft

/-- The ledger of a draft. -/
def ofDraft (file : FileId) (d : Draft) : Ledger :=
  ⟨file, rowsOf file d.roots [] d.frames, rootsOf d.roots d.frames, slotsOf d.roots d.frames⟩

section Rows

variable {file : FileId} {roots : Forest Symbol} {f : Frame} {frames : List Frame}
  {inner : List SymbolId}

@[simp] theorem length_rowsFrom (nodes : List (Forest.Node Symbol)) :
    (rowsFrom file nodes).length = nodes.length :=
  List.length_map _

theorem rowsFrom_append (nodes nodes' : List (Forest.Node Symbol)) :
    rowsFrom file (nodes ++ nodes') = rowsFrom file nodes ++ rowsFrom file nodes' :=
  List.map_append

@[simp] theorem length_rowsOf : (rowsOf file roots inner frames).length = count roots frames := by
  induction frames generalizing inner with
  | nil => simp [rowsOf, count]
  | cons f frames ih =>
      simp only [rowsOf, List.length_append, List.length_cons, ih, length_rowsFrom,
        Forest.length_nodesFrom, count]
      omega

@[simp] theorem length_slotsOf : (slotsOf roots frames).length = frames.length := by
  induction frames with
  | nil => rfl
  | cons f frames ih => rw [slotsOf, List.length_cons, ih, List.length_cons]

theorem rules?_ofDraft (d : Draft) : (ofDraft file d).rules? = some (Draft.rules d.frames) := by
  obtain ⟨frames, roots⟩ := d
  show (slotsOf roots frames).mapM _ = _
  induction frames with
  | nil => rfl
  | cons f frames ih =>
      rw [slotsOf, List.mapM_cons, ih, Rule.all_number]
      rfl

theorem getElem?_rowsOf :
    (rowsOf file roots inner (f :: frames))[count roots frames]? =
      some (rowOf file roots f frames inner) := by
  rw [rowsOf, List.getElem?_append_right (by simp), length_rowsOf, Nat.sub_self]
  rfl

theorem set_rowsOf (row : Row) :
    (rowsOf file roots inner (f :: frames)).set (count roots frames) row =
      rowsOf file roots [count roots frames] frames ++ row ::
        rowsFrom file
          (f.below.nodesFrom (count roots frames + 1) (some (count roots frames))) := by
  rw [rowsOf, List.set_append_right _ _ (by simp), length_rowsOf, Nat.sub_self]
  rfl

/-- The row of an innermost symbol, once it is full to the end. -/
theorem isFull_rowOf : isFull f.rule (rowOf file roots f frames []) = f.isFull := by
  rw [isFull, Frame.isFull, rowOf, List.append_nil, Forest.length_rootIds]

/-- **Closing changes no number**: the rows are the same whether the innermost construct is open or
hangs closed below the one around it. -/
theorem ofDraft_hang_node (s : Symbol) (below : Forest Symbol) (d : Draft) :
    ofDraft file (d.hang (.node s below .nil)) =
      ⟨file, rowsOf file d.roots [count d.roots d.frames] d.frames ++
          ⟨⟨s, top? d.roots d.frames, below.rootIds (count d.roots d.frames + 1)⟩, file⟩ ::
            rowsFrom file
              (below.nodesFrom (count d.roots d.frames + 1) (some (count d.roots d.frames))),
        d.roots.rootIds 0 ++ [d.roots.size], slotsOf d.roots d.frames⟩ := by
  obtain ⟨frames, roots⟩ := d
  cases frames with
  | nil =>
      simp [ofDraft, Draft.hang, rowsOf, rowsFrom, rootsOf, slotsOf, count, top?,
        Forest.nodesFrom_append, Forest.rootIds_append, Forest.nodesFrom, Forest.rootIds]
  | cons g rest =>
      simp only [ofDraft, Draft.hang, rowsOf, rootsOf, slotsOf, rowOf, Frame.add,
        Forest.nodesFrom_append, Forest.rootIds_append, count, top?, Forest.nodesFrom,
        Forest.rootIds, List.append_nil, List.append_assoc, List.cons_append, rowsFrom_append]
      rfl

theorem stack_hang (d : Draft) (done : Forest Symbol) :
    (ofDraft file (d.hang done)).stack = slotsOf d.roots d.frames := by
  obtain ⟨frames, roots⟩ := d
  cases frames <;> rfl

end Rows

/-! ### The ledger follows the draft -/

section Follows

variable (file : FileId) (stop : Position) (roots : Forest Symbol)

/-- Closing the innermost symbol in its row. -/
theorem set_extendTo_rowsOf (f : Frame) (frames : List Frame) :
    (rowsOf file roots [] (f :: frames)).set (count roots frames)
        ((rowOf file roots f frames []).extendTo stop) =
      (ofDraft file (Draft.hang ⟨frames, roots⟩ (f.close stop))).rows := by
  rw [set_rowsOf, Frame.close, ofDraft_hang_node, rowOf, List.append_nil]
  rfl

theorem roots_hang_close (f : Frame) (frames : List Frame) :
    (ofDraft file (Draft.hang ⟨frames, roots⟩ (f.close stop))).roots =
      rootsOf roots (f :: frames) := by
  rw [Frame.close, ofDraft_hang_node]
  rfl

theorem settle?_ofDraft {p : Frame → Bool} {q : Rule → Row → Bool}
    (hq : ∀ f frames, q f.rule (rowOf file roots f frames []) = p f) :
    ∀ (frames : List Frame) (done : Forest Symbol),
      settle? q stop file (ofDraft file (Draft.hang ⟨frames, roots⟩ done)).roots
          (slotsOf roots frames) (ofDraft file (Draft.hang ⟨frames, roots⟩ done)).rows =
        some (ofDraft file (Draft.settle p stop roots frames done)) := by
  intro frames
  induction frames with
  | nil => intro done; rfl
  | cons f frames ih =>
      intro done
      show settle? q stop file (rootsOf roots (f.add done :: frames))
        (⟨(f.add done).rule.number, count roots frames⟩ :: slotsOf roots frames)
        (rowsOf file roots [] (f.add done :: frames)) = _
      rw [settle?, Rule.all_number, Option.bind_some, getElem?_rowsOf, Option.bind_some, hq,
        Draft.settle]
      by_cases hp : p (f.add done) = true
      · rw [if_pos hp, if_pos hp, set_extendTo_rowsOf, ← roots_hang_close file stop, ih]
      · rw [if_neg hp, if_neg hp]
        rfl

theorem closeSlots?_ofDraft :
    ∀ (n : Nat) (frames : List Frame) (done : Forest Symbol),
      closeSlots? stop file (ofDraft file (Draft.hang ⟨frames, roots⟩ done)).roots n
          (slotsOf roots frames) (ofDraft file (Draft.hang ⟨frames, roots⟩ done)).rows =
        some (ofDraft file (Draft.closeFrames stop roots n frames done)) := by
  intro n
  induction n with
  | zero => exact settle?_ofDraft file stop roots fun f frames => isFull_rowOf
  | succ n ih =>
      intro frames done
      cases frames with
      | nil => rfl
      | cons f frames =>
          show closeSlots? stop file (rootsOf roots (f.add done :: frames)) (n + 1)
            (⟨(f.add done).rule.number, count roots frames⟩ :: slotsOf roots frames)
            (rowsOf file roots [] (f.add done :: frames)) = _
          rw [closeSlots?, getElem?_rowsOf, Option.bind_some, set_extendTo_rowsOf,
            ← roots_hang_close file stop, ih, Draft.closeFrames]

theorem close?_ofDraft (d : Draft) (n : Nat) :
    (ofDraft file d).close? n stop = some (ofDraft file (d.close n stop)) := by
  have h := closeSlots?_ofDraft file stop d.roots n d.frames .nil
  rwa [Draft.hang_nil] at h

theorem breakLine?_ofDraft (d : Draft) :
    (ofDraft file d).breakLine? stop = some (ofDraft file (d.breakLine stop)) := by
  have h := settle?_ofDraft file stop d.roots (p := Frame.isImplicit)
    (q := fun r _ => r.isImplicit) (fun _ _ => rfl) d.frames .nil
  rwa [Draft.hang_nil] at h

/-- Closing what has become full, each time a construct ends with its line, makes no difference to
the ledger either. -/
theorem breakLine?_close? {d : Draft} {f : Frame} {frames : List Frame}
    (hframes : d.frames = f :: frames) (himplicit : f.isImplicit = true) :
    ((ofDraft file d).close? 1 stop).bind (·.breakLine? stop) =
      (ofDraft file d).breakLine? stop := by
  rw [close?_ofDraft, Option.bind_some, breakLine?_ofDraft, breakLine?_ofDraft,
    Draft.breakLine_close hframes himplicit]

/-- What closes at the end of the text is all that is open. -/
theorem finish?_ofDraft (d : Draft) :
    (ofDraft file d).finish? stop = some (ofDraft file ⟨[], d.finish stop⟩) := by
  have h := settle?_ofDraft file stop d.roots (p := fun _ => true) (q := fun _ _ => true)
    (fun _ _ => rfl) d.frames .nil
  rw [Draft.hang_nil] at h
  have hfinish : Draft.settle (fun _ => true) stop d.roots d.frames .nil = ⟨[], d.finish stop⟩ := by
    rw [← Draft.frames_settle_all stop d.roots d.frames .nil]
    rfl
  rwa [hfinish] at h

/-- A symbol that comes in gets the row that it has when it hangs closed. -/
theorem enter?_ofDraft (d : Draft) (s : Symbol) :
    (ofDraft file d).enter? s = some (ofDraft file (d.hang (.single s))) := by
  rw [Forest.single, ofDraft_hang_node]
  obtain ⟨frames, roots⟩ := d
  cases frames with
  | nil =>
      simp [enter?, ofDraft, rowsOf, rowsFrom, rootsOf, slotsOf, top?, Forest.rootIds,
        Forest.nodesFrom]
  | cons f frames =>
      have hhold : ∀ id,
          (rowOf file roots f frames []).hold id = rowOf file roots f frames [id] := by
        simp [Row.hold, rowOf]
      show ((rowsOf file roots [] (f :: frames))[count roots frames]?.map fun row : Row =>
        Ledger.mk file ((rowsOf file roots [] (f :: frames)).set (count roots frames)
          (row.hold (rowsOf file roots [] (f :: frames)).length) ++
            [⟨⟨s, some (count roots frames), []⟩, file⟩])
        (rootsOf roots (f :: frames)) (slotsOf roots (f :: frames))) = _
      rw [getElem?_rowsOf, Option.map_some, hhold, set_rowsOf, length_rowsOf]
      rfl

theorem add?_ofDraft (d : Draft) (r : Rule) (s : Symbol) :
    (ofDraft file d).add? r s = some (ofDraft file (d.add r s)) := by
  rw [add?, enter?_ofDraft, Option.bind_some, Draft.add]
  by_cases hleaf : r.isLeaf = true
  · rw [if_pos hleaf, if_pos hleaf, stack_hang]
    exact settle?_ofDraft file _ d.roots (fun f frames => isFull_rowOf) d.frames (.single s)
  · rw [if_neg hleaf, if_neg hleaf, Forest.single, ofDraft_hang_node]
    simp only [ofDraft, length_rowsOf]
    rfl

theorem cutAtByte_line (c : Cursor) :
    cutAtByte (byteLength c.left) c.line = some (c.left.reverse, c.right) := by
  rw [Cursor.line, ← byteLength_reverse, cutAtByte_append]

theorem event?_ofDraft (d : Draft) (c : Cursor) :
    (ofDraft file d).event? c.line (byteLength c.left) = some (d.next? c) := by
  rw [event?, rules?_ofDraft, Option.bind_some, cutAtByte_line, Option.map_some,
    List.reverse_reverse, Draft.next?_congr (Draft.rules_ofRules _)]

theorem cutBetween?_line (s : Span) :
    cutBetween? s.line s.start s.stop = some (s.left.reverse, s.text, s.right) := by
  have h := cutBetween?_append s.left.reverse s.text s.right
  rwa [byteLength_append, byteLength_reverse, ← List.append_assoc] at h

/-- A mark is cut out of the line it was found on. -/
theorem symbol?_of_find {ctx : LineContext} {c : Cursor} {r : Rule} {m : Mark}
    (h : r.opening.find c = some m) : symbol? ctx c.line r m = some (ctx.symbol r m) := by
  obtain ⟨c', hline, hread⟩ := Opening.readAt_of_find h
  obtain ⟨hleft, hright, hname⟩ := Opening.readAt_spec hread
  have hwhole : m.whole.line = c.line := by
    rw [← hline, Span.line, Cursor.line, hleft, List.append_assoc, hright]
  rw [symbol?, ← hwhole, cutBetween?_line, ← hname, cutBetween?_line]
  rfl

/-- **A round does to the ledger of a draft what the next event does to the draft**, and it never
fails. -/
theorem round?_ofDraft (ctx : LineContext) (d : Draft) (c : Cursor) :
    round? ctx c.line (ofDraft file d) (byteLength c.left) =
      some ((ctx.step? d c).map fun x => (ofDraft file x.1, byteLength x.2.left)) := by
  rw [round?, event?_ofDraft, Option.bind_some, LineContext.step?]
  cases he : d.next? c with
  | none => rfl
  | some e =>
      cases e with
      | close k =>
          rw [Option.elim_some, perform?, close?_ofDraft]
          by_cases hk : k.boundary = true
          · simp [LineContext.apply, hk]
          · simp [LineContext.apply, hk, Span.byteLength_after]
      | add r m =>
          have hfind := (Draft.opening?_spec (Draft.next?_add he)).2
          rw [Option.elim_some, perform?, symbol?_of_find hfind, Option.bind_some, add?_ofDraft]
          simp [LineContext.apply, Span.byteLength_after]

end Follows

end Ledger

end OverlayIndex
