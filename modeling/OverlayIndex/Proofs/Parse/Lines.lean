/-
Constructs and the lines they stand on.

Most constructs open in column zero, and nowhere else.  An overlay begins there and ends with a
line, so it is made of whole lines.  The name of a variable or a procedure is the first thing on its
line, and a gap follows it.
-/
import OverlayIndex.Proofs.Parse.Endings
import OverlayIndex.Proofs.Parse.Extents
import OverlayIndex.Proofs.Parse.Roots
import OverlayIndex.Text.Class.Identifier

namespace OverlayIndex

/-- A construct that opens in column zero only starts there. -/
theorem parseChars_lineStart (text : List Char) :
    ∀ s ∈ (parseChars text).toList, s.rule.opening.place = .lineStart → s.extent.start.col = 0 := by
  obtain ⟨n, d, c, h, -, -, hparse⟩ := parseChars_reached text
  have hall := h.all (P := fun s => s.rule.opening.place = .lineStart → s.extent.start.col = 0)
    (fun _ _ hs => hs) fun n d c r m _ hfind => by
      intro hplace
      rw [LineContext.rule_symbol hfind] at hplace
      rw [Opening.find_lineStart hplace] at hfind
      by_cases hleft : c.left = []
      · rw [if_pos hleft] at hfind
        show byteLength m.whole.left = 0
        rw [(Opening.readAt_spec hfind).1, hleft, byteLength_nil]
      · rw [if_neg hleft] at hfind
        cases hfind
  rw [hparse]
  exact ((d.finish_closesTo _).preserves (Draft.pop_all (fun _ _ hs => hs) _) hall).1

/-! ### Overlays -/

namespace SymbolTree

variable {t : SymbolTree} {text : List Char} {i : SymbolId} {s : Symbol}

theorem mem_parseChars (h : t.get? i = some s) (htext : t.forest = parseChars text) :
    s ∈ (parseChars text).toList := by
  rw [get?_eq, symbols_eq, htext] at h
  exact List.mem_of_getElem? h

/-- What ends an overlay is a boundary, so an overlay ends with a line. -/
theorem stop_of_entry (htext : t.forest = parseChars text) (hs : t.get? i = some s)
    (hkind : s.kind = .entry) : ∃ n, s.extent.stop = edgeBefore (contentLines text) n := by
  have hrule : s.rule = .entry := by rw [Symbol.rule, hkind]
  have hended : t.forest.Every (Symbol.Ended (contentLines text)) [] := by
    rw [htext]
    exact parseChars_ended text
  obtain ⟨below, -, -, hends, -⟩ := every_get? hended hs
  rcases hends (by rw [hrule]; simp [Rule.terminators]) with ⟨hit, hfirst, hstop⟩ | ⟨-, hstop⟩
  · obtain ⟨j, r, hr, hmem, hboundary⟩ := mem_enders.1 hfirst.among
    have hb : hit.terminator.isBoundary = true := by
      rcases hboundary with rfl | hb
      · simp only [List.getElem?_cons_zero, Option.some.injEq] at hr
        rw [← hr, hrule] at hmem
        simp only [Rule.terminators, List.mem_singleton] at hmem
        rw [hmem]
        rfl
      · exact hb
    exact ⟨hit.line, by rw [hstop, Hit.stop, if_pos hb]⟩
  · exact ⟨_, hstop⟩

/-- **An overlay is made of whole lines.** -/
theorem lines_of_entry (htext : t.forest = parseChars text) (hs : t.get? i = some s)
    (hkind : s.kind = .entry) :
    s.extent.start.col = 0 ∧ ∃ line, (contentLines text)[s.extent.stop.line]? = some line ∧
      s.extent.stop.col = byteLength line := by
  have hmem := mem_parseChars hs htext
  have hrule : s.rule = .entry := by rw [Symbol.rule, hkind]
  obtain ⟨hi, hlam⟩ := parseChars_laminar text
  have hplaced := (hlam.mem s hmem).2.2
  refine ⟨parseChars_lineStart text s hmem (by rw [hrule]; rfl), ?_⟩
  obtain ⟨line, hline, -⟩ := hplaced.stop_real
  refine ⟨line, hline, ?_⟩
  obtain ⟨n, hstop⟩ := stop_of_entry htext hs hkind
  cases n with
  | zero =>
      have hlt := hplaced.start_lt_stop
      rw [hstop] at hlt
      exact absurd hlt (Position.not_lt_origin _)
  | succ n =>
      rw [hstop] at hline ⊢
      have hline' : (contentLines text)[n]? = some line := hline
      rw [edgeBefore_succ hline']

end SymbolTree

/-! ### Names -/

theorem Shape.mem_cutJoined {cs : List Char} {c : Char} (h : c ∈ (cutJoined cs).1) :
    isWord c = true ∨ c = '.' := by
  fun_induction cutJoined cs with
  | case1 => cases h
  | case2 d cs hd t r hcut ih =>
      rw [hcut] at ih
      rcases List.mem_cons.1 h with rfl | h
      · exact Or.inl hd
      · exact ih h
  | case3 => cases h
  | case4 d hd x ds hx t r hcut ih =>
      rw [hcut] at ih
      rcases List.mem_cons.1 h with rfl | h
      · exact Or.inr hx.1
      · rcases List.mem_cons.1 h with rfl | h
        · exact Or.inl hx.2
        · exact ih h
  | case5 => cases h

/-- A capital continues an identifier. -/
theorem isIdentifier_of_isUpper {c : Char} (h : c.isUpper = true) : isIdentifier c = true := by
  have hall : ∀ n ∈ List.range' 65 26, isIdentifier (Char.ofNat n) = true := by
    decide +kernel
  have hrange : c.toNat ∈ List.range' 65 26 := by
    have hbounds : 'A'.val ≤ c.val ∧ c.val ≤ 'Z'.val := of_decide_eq_true h
    rw [List.mem_range'_1]
    have hlo := UInt32.le_iff_toNat_le.1 hbounds.1
    have hhi := UInt32.le_iff_toNat_le.1 hbounds.2
    constructor
    · exact hlo
    · exact Nat.lt_succ_of_le hhi
  have hc := hall c.toNat hrange
  rwa [Char.ofNat_toNat] at hc

/-- A capital is a word character. -/
theorem isWord_of_isUpper {c : Char} (h : c.isUpper = true) : isWord c = true := by
  have halpha : c.isAlphanum = true := by
    show (c.isUpper || c.isLower || c.isDigit) = true
    rw [h]
    rfl
  unfold isWord
  rw [halpha]
  rfl

/-- A name: it begins with a capital and goes on with word characters and points. -/
structure IsName (name : List Char) : Prop where
  capital : name.head?.any Char.isUpper = true
  chars : ∀ c ∈ name, isWord c = true ∨ c = '.'

theorem Shape.isName_of_ident {cs t r : List Char} (h : ident.read cs = some (t, r)) : IsName t := by
  simp only [ident, andThen, Option.bind_eq_some_iff, Option.map_eq_some_iff, Prod.mk.injEq] at h
  obtain ⟨x, hx, y, hy, rfl, rfl⟩ := h
  cases cs with
  | nil => simp [one] at hx
  | cons c cs =>
      simp only [one, Option.ite_none_right_eq_some, Option.some.injEq] at hx
      obtain ⟨hc, rfl⟩ := hx
      have hy' : cutJoined cs = y := Option.some.inj hy
      refine ⟨hc, fun d hd => ?_⟩
      rcases List.mem_cons.1 hd with rfl | hd
      · exact Or.inl (isWord_of_isUpper hc)
      · exact mem_cutJoined (hy' ▸ hd)

/-- A point joins what stands around it, so no name ends in one. -/
theorem Shape.getLast?_cutJoined (cs : List Char) : (cutJoined cs).1.getLast? ≠ some '.' := by
  have hpoint : isWord '.' = false := by decide +kernel
  have hcons : ∀ {c : Char} {t : List Char}, isWord c = true → t.getLast? ≠ some '.' →
      (c :: t).getLast? ≠ some '.' := by
    intro c t hc ht
    cases t with
    | nil =>
        intro hlast
        rw [List.getLast?_singleton, Option.some_inj] at hlast
        rw [hlast, hpoint] at hc
        cases hc
    | cons d t => rwa [List.getLast?_cons_cons]
  fun_induction cutJoined cs with
  | case1 => simp
  | case2 c cs hc t r hcut ih =>
      rw [hcut] at ih
      exact hcons hc ih
  | case3 => simp
  | case4 c hc d ds hd t r hcut ih =>
      rw [hcut] at ih
      show (c :: d :: t).getLast? ≠ some '.'
      rw [List.getLast?_cons_cons]
      exact hcons hd.2 ih
  | case5 => simp

theorem Shape.getLast?_of_ident {cs t r : List Char} (h : ident.read cs = some (t, r)) :
    t.getLast? ≠ some '.' := by
  simp only [ident, andThen, Option.bind_eq_some_iff, Option.map_eq_some_iff, Prod.mk.injEq] at h
  obtain ⟨x, hx, y, hy, rfl, rfl⟩ := h
  have hy' : cutJoined x.2 = y := Option.some.inj hy
  by_cases hnil : y.1 = []
  · -- The capital alone is no point.
    rw [hnil, List.append_nil]
    cases cs with
    | nil => simp [one] at hx
    | cons c cs =>
        simp only [one, Option.ite_none_right_eq_some, Option.some.injEq] at hx
        obtain ⟨hc, rfl⟩ := hx
        intro hlast
        rw [List.getLast?_singleton, Option.some_inj] at hlast
        rw [hlast] at hc
        cases hc
  · rw [List.getLast?_append_of_ne_nil _ hnil, ← hy']
    exact getLast?_cutJoined x.2

/-- The construct opens with a name in column zero, and a gap follows the name. -/
structure Rule.NamesLine (r : Rule) : Prop where
  place : r.opening.place = .lineStart
  head : r.opening.head = .nothing
  name : ∀ {cs : List Char} {n t : List Char × List Char}, r.opening.name.read cs = some n →
    r.opening.tail.read n.2 = some t →
      Shape.ident.read cs = some n ∧ ∃ gap rest, n.2 = gap :: rest ∧ isGap gap = true

theorem Rule.namesLine_var : Rule.var.NamesLine := by
  refine ⟨rfl, rfl, fun {cs n t} hname _ => ?_⟩
  obtain ⟨hident, hgap⟩ := Option.filter_eq_some_iff.1 hname
  simp only [Shape.gapThenText, Bool.and_eq_true] at hgap
  obtain ⟨gap, hhead, hgap⟩ := (Option.any_eq_true _ _).1 hgap.1
  obtain ⟨rest, hrest⟩ := List.head?_eq_some_iff.1 hhead
  exact ⟨hident, gap, rest, hrest, hgap⟩

theorem Rule.namesLine_proc : Rule.proc.NamesLine := by
  refine ⟨rfl, rfl, fun {cs n t} hname htail => ⟨hname, ?_⟩⟩
  simp only [opening, Shape.procKeyword, Shape.gap, Shape.many1, Shape.andThen,
    Option.bind_eq_some_iff, Option.map_eq_some_iff] at htail
  obtain ⟨_, ⟨_, ⟨x, hx, -⟩, -⟩, -⟩ := htail
  cases hrest : n.2 with
  | nil => simp [hrest, Shape.one] at hx
  | cons gap rest =>
      rw [hrest] at hx
      simp only [Shape.one, Option.ite_none_right_eq_some] at hx
      exact ⟨gap, rest, rfl, hx.1⟩

/-- **The name of a construct that opens with it begins the line**, and a gap follows it. -/
theorem line_of_name {text : List Char} {s : Symbol} (hs : s ∈ (parseChars text).toList)
    (hrule : s.rule.NamesLine) :
    ∃ gap rest, isGap gap = true ∧
      (contentLines text)[s.selection.start.line]? = some (s.name.toList ++ gap :: rest) ∧
      s.selection = .onLine s.selection.start.line 0 (byteLength s.name.toList) ∧
      ∃ cs r, Shape.ident.read cs = some (s.name.toList, r) := by
  have hcol := parseChars_lineStart text s hs hrule.place
  obtain ⟨line, c, m, hline, hc, hread, hstart, hname, -, hselection⟩ := parseChars_marked text s hs
  have hleft : c.left = [] := by
    rw [← (Opening.readAt_spec hread).1]
    apply eq_nil_of_byteLength
    rw [← hcol, hstart]
    rfl
  simp only [Opening.readAt, hrule.head, Shape.nothing, Option.bind_some, Option.bind_eq_some_iff,
    Option.map_eq_some_iff] at hread
  obtain ⟨n, hn, t, ht, rfl⟩ := hread
  obtain ⟨hident, gap, rest, hrest, hgap⟩ := hrule.name hn ht
  have hname' : s.name.toList = n.1 := by rw [hname]; simp
  have hselection' : s.selection = .onLine s.extent.start.line 0 (byteLength n.1) := by
    rw [hselection, Span.extent, Span.start, Span.stop, hleft]
    simp
  obtain ⟨more, hmore⟩ := visible_prefix line
  have hvisible : visible line = n.1 ++ n.2 := by
    rw [← hc, Cursor.line, hleft, Shape.ident.split hident]
    rfl
  refine ⟨gap, rest ++ more, hgap, ?_, ?_, c.right, n.2, by rw [hname', hident]⟩
  · rw [hselection', hname']
    show (contentLines text)[s.extent.start.line]? = _
    rw [hline, ← hmore, hvisible, hrest]
    simp
  · rw [hselection', hname']
    rfl

theorem line_of_var {text : List Char} {s : Symbol} (hs : s ∈ (parseChars text).toList)
    (hkind : s.kind = .var) :
    ∃ gap rest, isGap gap = true ∧
      (contentLines text)[s.selection.start.line]? = some (s.name.toList ++ gap :: rest) ∧
      s.selection = .onLine s.selection.start.line 0 (byteLength s.name.toList) ∧
      IsName s.name.toList := by
  have hrule : s.rule = .var := by rw [Symbol.rule, hkind]
  obtain ⟨gap, rest, hgap, hline, hselection, cs, r, hident⟩ :=
    line_of_name hs (hrule ▸ Rule.namesLine_var)
  exact ⟨gap, rest, hgap, hline, hselection, Shape.isName_of_ident hident⟩

end OverlayIndex
