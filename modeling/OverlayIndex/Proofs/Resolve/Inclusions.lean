/-
Inclusions and the lines they stand on.

The name of an inclusion is made of a file, an opening parenthesis, a block and a closing one, and
this is the only way to take it apart, since the file has no parenthesis in it.  The name stands on
its line as it is, so the name of the block stands there between the two parentheses.  No token
reaches over these, and what follows the block is still on the line.

The grammar takes a name up to the first closing parenthesis, while the decoder splits it at the first
opening one and at its last character.  Both find the same file and block, since neither a closing
parenthesis can stand in the block nor an opening one in the file; only an empty block is taken by the
grammar and not decoded.
-/
import OverlayIndex.Proofs.Parse.Offsets
import OverlayIndex.Proofs.Resolve.Lookup
import OverlayIndex.Proofs.Resolve.OwnName

namespace OverlayIndex

theorem ne_paren_of_notMem {file : List Char} (h : '(' ∉ file) : ∀ c ∈ file, (c != '(') = true := by
  intro c hc
  rw [bne_iff_ne]
  rintro rfl
  exact h hc

/-- The file is cut off at the first parenthesis, so a file without one comes out as it went in. -/
theorem InclusionTarget.parse?_of_cut {name : String} {file block : List Char}
    (hname : name.toList = file ++ '(' :: (block ++ [')'])) (hfile : '(' ∉ file) (hne : file ≠ []) :
    parse? name = if block = [] then none
      else some ⟨String.ofList file, String.ofList block, byteLength file + 1⟩ := by
  have hrun := ne_paren_of_notMem hfile
  have hstops : ('(' :: (block ++ [')'])).head?.any (· != '(') = false := rfl
  unfold parse?
  simp only [hname, takeWhile_of_run hrun hstops, dropWhile_of_run hrun hstops, List.drop_one,
    List.tail_cons, List.getLast?_concat, List.dropLast_concat]
  by_cases hblock : block = [] <;> simp [hblock, hne]

/-- **A name is that of an inclusion exactly if it is a file and then a block in parentheses.** -/
theorem InclusionTarget.parse?_eq_some_iff {name : String} {target : InclusionTarget} :
    parse? name = some target ↔
      name.toList = target.file.toList ++ '(' :: (target.block.toList ++ [')']) ∧
        '(' ∉ target.file.toList ∧ target.file.toList ≠ [] ∧ target.block.toList ≠ [] ∧
        target.blockOffset = byteLength target.file.toList + 1 := by
  constructor
  · intro h
    unfold parse? at h
    simp only [Option.ite_none_right_eq_some, Option.some.injEq] at h
    obtain ⟨⟨hlast, hfile, hblock⟩, rfl⟩ := h
    simp only [String.toList_ofList]
    obtain ⟨block, hinner⟩ := List.getLast?_eq_some_iff.1 hlast
    rw [hinner, List.dropLast_concat] at hblock ⊢
    refine ⟨?_, fun hmem => ?_, hfile, hblock, trivial⟩
    · -- What the file stops at is the parenthesis.
      cases hrest : name.toList.dropWhile (· != '(') with
      | nil => rw [hrest] at hinner; simp at hinner
      | cons c rest =>
          have hc : c = '(' := by
            have hhead := List.head?_dropWhile_not (· != '(') name.toList
            rw [hrest] at hhead
            simpa using hhead
          subst hc
          rw [hrest, List.drop_one, List.tail_cons] at hinner
          rw [← hinner, ← hrest, List.takeWhile_append_dropWhile]
    · have hne := List.mem_takeWhile_imp hmem
      simp at hne
  · intro h
    obtain ⟨hname, hfile, hne, hblock, hoffset⟩ := h
    rw [parse?_of_cut hname hfile hne, if_neg hblock, String.ofList_toList, String.ofList_toList,
      ← hoffset]

/-- The name of a symbol stands on its line where the selection is. -/
theorem exists_line_around_name {text : List Char} {s : Symbol} (hs : s ∈ (parseChars text).toList) :
    ∃ left right,
      (contentLines text)[s.selection.start.line]? = some (left ++ (s.name.toList ++ right)) ∧
      s.selection.start.col = byteLength left := by
  obtain ⟨line, c, m, hline, hc, hread, -, hname, -, hselection⟩ := parseChars_marked text s hs
  obtain ⟨hleft, hright, hsame⟩ := Opening.readAt_spec hread
  have hvisible : visible line = m.name.line := by
    rw [← hc, hsame, Span.line, Cursor.line, hleft, List.append_assoc, hright]
  obtain ⟨more, hmore⟩ := visible_prefix line
  refine ⟨m.name.left.reverse, m.name.right ++ more, ?_, ?_⟩
  · rw [hselection]
    show (contentLines text)[s.extent.start.line]? = _
    rw [hline, ← hmore, hvisible, hname, String.toList_ofList, Span.line]
    simp
  · rw [hselection, byteLength_reverse]
    rfl

/-- **The name of the block stands between parentheses** on the line of the inclusion, at the columns
that are the block's. -/
theorem exists_line_around_block {text : List Char} {s : Symbol} {target : InclusionTarget}
    (hs : s ∈ (parseChars text).toList) (htarget : InclusionTarget.parse? s.name = some target) :
    ∃ left right, (contentLines text)[s.selection.start.line]? =
        some ((left ++ ['(']) ++ (target.block.toList ++ ')' :: right)) ∧
      s.selection.start.col + target.blockOffset = byteLength (left ++ ['(']) := by
  obtain ⟨left, right, hline, hcol⟩ := exists_line_around_name hs
  obtain ⟨hname, -, -, -, hoffset⟩ := InclusionTarget.parse?_eq_some_iff.1 htarget
  refine ⟨left ++ target.file.toList, right, ?_, ?_⟩
  · rw [hline, hname]
    simp
  · have hparen : '('.utf8Size = 1 := rfl
    rw [hcol, hoffset]
    simp only [byteLength_append, byteLength_cons, byteLength_nil, hparen]
    omega

/-! ### What the grammar takes for the name of an inclusion -/

namespace Shape

variable {s t r : List Char}

theorem exists_of_read_andThen {a b : Shape} (h : (a.andThen b).read s = some (t, r)) :
    ∃ t₁ r₁ t₂, a.read s = some (t₁, r₁) ∧ b.read r₁ = some (t₂, r) ∧ t = t₁ ++ t₂ := by
  simp only [andThen, Option.bind_eq_some_iff, Option.map_eq_some_iff, Prod.mk.injEq] at h
  obtain ⟨x, hx, y, hy, rfl, rfl⟩ := h
  exact ⟨x.1, x.2, y.1, hx, hy, rfl⟩

theorem eq_of_read_literal {w : List Char} (h : (literal w).read s = some (t, r)) : t = w := by
  simp only [literal, Option.ite_none_right_eq_some, Option.some.injEq, Prod.mk.injEq] at h
  exact h.2.1.symm

end Shape

/-- The name is a file and then a block in parentheses, as the grammar has it: the file is a star or
made of word characters and points, and the block has no closing parenthesis. -/
def IsInclusionName (name file block : List Char) : Prop :=
  name = file ++ '(' :: (block ++ [')']) ∧
    (file = ['*'] ∨ file ≠ [] ∧ ∀ c ∈ file, isWord c = true ∨ c = '.') ∧ ')' ∉ block

theorem Shape.isInclusionName_of_read {s t r : List Char}
    (h : inclusionTarget.read s = some (t, r)) : ∃ file block, IsInclusionName t file block := by
  obtain ⟨file, _, _, hfile, hparens, rfl⟩ := exists_of_read_andThen h
  obtain ⟨_, _, _, hopen, hrest, rfl⟩ := exists_of_read_andThen hparens
  obtain ⟨block, _, _, hblock, hclose, rfl⟩ := exists_of_read_andThen hrest
  obtain rfl := eq_of_read_literal hopen
  obtain rfl := eq_of_read_literal hclose
  refine ⟨file, block, rfl, ?_, ?_⟩
  · rcases Option.or_eq_some_iff.1 hfile with hfile | ⟨-, hstar⟩
    · refine Or.inr ⟨consumes_many1 _ hfile, fun c hc => ?_⟩
      simpa using forall_many1 hfile c hc
    · exact Or.inl (eq_of_read_literal hstar)
  · simp only [many, Option.some.injEq, Prod.mk.injEq] at hblock
    rw [← hblock.1]
    intro hmem
    have hne := List.mem_takeWhile_imp hmem
    simp at hne

namespace IsInclusionName

variable {name file block : List Char}

theorem paren_notMem (h : IsInclusionName name file block) : '(' ∉ file := by
  rcases h.2.1 with rfl | ⟨-, hword⟩
  · decide
  · intro hmem
    have hnot : isWord '(' = false := by decide +kernel
    rcases hword _ hmem with hparen | hparen
    · rw [hnot] at hparen
      cases hparen
    · revert hparen
      decide

theorem file_ne_nil (h : IsInclusionName name file block) : file ≠ [] := by
  rcases h.2.1 with rfl | ⟨hne, -⟩
  · simp
  · exact hne

/-- The decoder cuts the name where the grammar does, unless the block is empty. -/
theorem parse?_eq {name : String} (h : IsInclusionName name.toList file block) :
    InclusionTarget.parse? name =
      if block = [] then none
      else some ⟨String.ofList file, String.ofList block, byteLength file + 1⟩ :=
  InclusionTarget.parse?_of_cut h.1 h.paren_notMem h.file_ne_nil

/-- Nothing is decoded exactly if nothing stands between the parentheses. -/
theorem parse?_eq_none_iff {name : String} (h : IsInclusionName name.toList file block) :
    InclusionTarget.parse? name = none ↔
      ∃ file : String, '(' ∉ file.toList ∧ name = file ++ "()" := by
  rw [h.parse?_eq]
  constructor
  · intro hnone
    have hblock : block = [] := by
      by_contra hne
      rw [if_neg hne] at hnone
      cases hnone
    refine ⟨String.ofList file, by rw [String.toList_ofList]; exact h.paren_notMem, ?_⟩
    rw [← String.toList_inj, h.1, hblock, String.toList_append, String.toList_ofList]
    rfl
  · rintro ⟨file', hfile', rfl⟩
    have hname := h.1
    rw [String.toList_append] at hname
    -- Behind the first parenthesis, the rest is the same whichever way the name is cut.
    have hrest := congrArg (List.dropWhile (· != '(')) hname
    rw [dropWhile_of_run (ne_paren_of_notMem hfile') rfl,
      dropWhile_of_run (ne_paren_of_notMem h.paren_notMem) rfl] at hrest
    have hblock : block = [] := by simpa using hrest
    rw [if_pos hblock]

end IsInclusionName

/-- The name of an inclusion of a text is one that the grammar takes. -/
theorem exists_isInclusionName {text : List Char} {s : Symbol} (hs : s ∈ (parseChars text).toList)
    (hkind : s.kind = .inclusion) : ∃ file block, IsInclusionName s.name.toList file block := by
  obtain ⟨line, c, m, -, -, hread, -, hname, -, -⟩ := parseChars_marked text s hs
  have hrule : s.rule = .inclusion := by simp [Symbol.rule, hkind]
  rw [hrule] at hread
  simp only [Opening.readAt, Rule.opening, Option.bind_eq_some_iff, Option.map_eq_some_iff] at hread
  obtain ⟨_, _, target, htarget, _, _, rfl⟩ := hread
  rw [hname, String.toList_ofList]
  exact Shape.isInclusionName_of_read htarget

theorem byteLength_toList (s : String) : byteLength s.toList = s.utf8ByteSize := by
  rw [← size_utf8Encode, ← toUTF8_eq]
  rfl

/-- The name of a target, written out. -/
theorem InclusionTarget.parse?_eq_some_iff_append {name : String} {target : InclusionTarget} :
    parse? name = some target ↔
      name = target.file ++ "(" ++ target.block ++ ")" ∧ target.file ≠ "" ∧
        '(' ∉ target.file.toList ∧ target.block ≠ "" ∧
        target.blockOffset = target.file.utf8ByteSize + 1 := by
  have htext : (target.file ++ "(" ++ target.block ++ ")").toList =
      target.file.toList ++ '(' :: (target.block.toList ++ [')']) := by
    simp
  rw [parse?_eq_some_iff, ← htext, String.toList_inj, ne_eq, ne_eq, String.toList_eq_nil_iff,
    String.toList_eq_nil_iff, byteLength_toList]
  exact and_congr_right fun _ => and_left_comm

/-- The block stands behind the file and the parenthesis, and so does its offset. -/
theorem InclusionTarget.cutAtByte_blockOffset {name : String} {target : InclusionTarget}
    (h : parse? name = some target) :
    cutAtByte target.blockOffset name.toList =
      some ((target.file ++ "(").toList, (target.block ++ ")").toList) := by
  obtain ⟨hname, -, -, -, hstart⟩ := parse?_eq_some_iff_append.1 h
  have hoffset : target.blockOffset = byteLength (target.file ++ "(").toList := by
    rw [hstart, String.toList_append, byteLength_append, byteLength_toList]
    rfl
  have htext : name.toList = (target.file ++ "(").toList ++ (target.block ++ ")").toList := by
    rw [← String.toList_append, ← String.append_assoc, ← hname]
  rw [hoffset, htext, cutAtByte_append]

/-- **Names of inclusions are decoded in one way, and as the grammar has them.**  A name is decoded
exactly if it is a file and a block in parentheses, neither of them empty and the file without an
opening parenthesis.  Of an inclusion that was read, nothing is decoded only if the parentheses are
empty.  Otherwise the file and the block are what the grammar took for them, and the block stands on
the line at its offset from the selection. -/
theorem inclusion_names_decode (name : String) (target : InclusionTarget) (file : FileId)
    (text : String) :
    (InclusionTarget.parse? name = some target ↔
      name = target.file ++ "(" ++ target.block ++ ")" ∧ target.file ≠ "" ∧
        '(' ∉ target.file.toList ∧ target.block ≠ "" ∧
        target.blockOffset = target.file.utf8ByteSize + 1) ∧
    (InclusionTarget.parse? name = some target →
      target.blockOffset = target.file.utf8ByteSize + 1 ∧
        cutAtByte target.blockOffset name.toList =
          some ((target.file ++ "(").toList, (target.block ++ ")").toList)) ∧
    ∀ s ∈ (parse file text).symbols, s.kind = .inclusion →
      (InclusionTarget.parse? s.name = none ↔
        ∃ file : String, '(' ∉ file.toList ∧ s.name = file ++ "()") ∧
      ∀ found, InclusionTarget.parse? s.name = some found →
        (found.file = "*" ∨ ∀ c ∈ found.file.toList, isWord c = true ∨ c = '.') ∧
        ')' ∉ found.block.toList ∧
        ∃ line, (contentLines text.toList)[s.selection.start.line]? = some line ∧
          (cutBetween? line (s.selection.start.col + found.blockOffset)
            (s.selection.start.col + found.blockOffset + found.block.utf8ByteSize)).map (·.2.1) =
              some found.block.toList := by
  refine ⟨InclusionTarget.parse?_eq_some_iff_append, fun h => ?_, fun s hs hkind => ?_⟩
  · exact ⟨(InclusionTarget.parse?_eq_some_iff_append.1 h).2.2.2.2,
      InclusionTarget.cutAtByte_blockOffset h⟩
  rw [SymbolTree.symbols_eq] at hs
  obtain ⟨name, block, h⟩ := exists_isInclusionName hs hkind
  refine ⟨h.parse?_eq_none_iff, fun found hfound => ?_⟩
  obtain ⟨left, right, hline, hcol⟩ := exists_line_around_block hs hfound
  rw [h.parse?_eq, Option.ite_none_left_eq_some] at hfound
  obtain ⟨-, hfound⟩ := hfound
  cases hfound
  simp only [String.toList_ofList] at hline ⊢
  refine ⟨?_, h.2.2, _, hline, ?_⟩
  · rcases h.2.1 with rfl | ⟨-, hword⟩
    · exact Or.inl rfl
    · exact Or.inr hword
  · rw [hcol, ← byteLength_toList, String.toList_ofList, ← byteLength_append, cutBetween?_append]
    rfl

/-- An inclusion whose block has parentheses and a letter of two bytes in its name. -/
def oddInclusion : Symbol where
  kind := .inclusion
  name := "É.B(((ß)"
  detail := "$INCLUDE É.B(((ß)"
  extent := .onLine 1 0 19
  selection := .onLine 1 9 19

/-- The decoder stops at the first opening parenthesis and the grammar at the first closing one, and
both have the same block, four bytes from column fourteen on. -/
theorem odd_inclusion_is_decoded :
    oddInclusion ∈ (parse ⟨0⟩ "$ENTRY E\n$INCLUDE É.B(((ß)\n").symbols ∧
    InclusionTarget.parse? oddInclusion.name = some ⟨"É.B", "((ß", 5⟩ ∧
    ∃ line, (contentLines "$ENTRY E\n$INCLUDE É.B(((ß)\n".toList)[1]? = some line ∧
      (cutBetween? line 14 18).map (·.2.1) = some "((ß".toList := by
  have hparsed : (parse ⟨0⟩ "$ENTRY E\n$INCLUDE É.B(((ß)\n").symbols[1]? = some oddInclusion ∧
      InclusionTarget.parse? oddInclusion.name = some ⟨"É.B", "((ß", 5⟩ ∧
      9 + 5 = 14 ∧ 14 + "((ß".utf8ByteSize = 18 := by
    decide +kernel
  obtain ⟨hmem, hparse, hstart, hstop⟩ := hparsed
  have hmem := List.mem_of_getElem? hmem
  obtain ⟨-, -, hinclusions⟩ := inclusion_names_decode oddInclusion.name ⟨"É.B", "((ß", 5⟩ ⟨0⟩
    "$ENTRY E\n$INCLUDE É.B(((ß)\n"
  obtain ⟨-, -, line, hline, hcut⟩ := (hinclusions _ hmem rfl).2 _ hparse
  refine ⟨hmem, hparse, line, hline, ?_⟩
  rw [← hstop, ← hstart]
  exact hcut

end OverlayIndex
