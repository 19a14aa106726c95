/-
Globs that are made of names.

A character that means nothing special in a glob is read as itself, so a name made of such
characters is read as its letters one by one, and a list of names in braces as a choice of these.
What the letters match is a matter of bytes.  It is one of characters all the same: the bytes of a
character outside of ASCII are none of ASCII either, so folding the case of ASCII letters comes to
the same for both, and a slash among the bytes of a text is a slash of the text.
-/
import OverlayIndex.Glob.FilePattern
import OverlayIndex.Proofs.Glob.Matching

namespace OverlayIndex

/-! ### Bytes and letters -/

/-- The byte with an ASCII letter made small, if case is ignored. -/
def foldByte (ignoreCase : Bool) (b : UInt8) : UInt8 :=
  if ignoreCase = true ∧ 65 ≤ b ∧ b ≤ 90 then b + 32 else b

/-- The text with its ASCII letters made small, if case is ignored. -/
def foldCase (ignoreCase : Bool) (cs : List Char) : List Char :=
  if ignoreCase then cs.map Char.toLower else cs

theorem toNat_foldByte (b : UInt8) :
    (foldByte true b).toNat = if 65 ≤ b.toNat ∧ b.toNat ≤ 90 then b.toNat + 32 else b.toNat := by
  have hb := b.toNat_lt
  unfold foldByte
  simp only [true_and, UInt8.le_iff_toNat_le, UInt8.reduceToNat]
  split
  · simp only [UInt8.toNat_add, UInt8.reduceToNat]
    omega
  · rfl

theorem toNat_otherCase (b : UInt8) :
    (otherCase b).toNat = if 65 ≤ b.toNat ∧ b.toNat ≤ 90 then b.toNat + 32
      else if 97 ≤ b.toNat ∧ b.toNat ≤ 122 then b.toNat - 32 else b.toNat := by
  have hb := b.toNat_lt
  unfold otherCase
  simp only [UInt8.le_iff_toNat_le, UInt8.reduceToNat]
  split
  · simp only [UInt8.toNat_add, UInt8.reduceToNat]
    omega
  · split
    · simp only [UInt8.toNat_sub, UInt8.reduceToNat]
      omega
    · rfl

/-- A byte is of the class of another one exactly if both fold to the same. -/
theorem ignoringCase_iff (ignoreCase : Bool) (a b : UInt8) :
    ignoringCase ignoreCase (· = b) a = true ↔ foldByte ignoreCase a = foldByte ignoreCase b := by
  cases ignoreCase with
  | false => simp [ignoringCase, foldByte]
  | true =>
      simp only [ignoringCase, Bool.true_and, Bool.or_eq_true, decide_eq_true_eq, ← UInt8.toNat_inj,
        toNat_foldByte, toNat_otherCase]
      split <;> split <;> try split
      all_goals omega

/-- The bytes of a character are its number if that is an ASCII one, and none of ASCII otherwise. -/
theorem utf8EncodeChar_cases (c : Char) :
    (c.toNat ≤ 127 ∧ String.utf8EncodeChar c = [UInt8.ofNat c.toNat]) ∨
      (127 < c.toNat ∧ ∀ b ∈ String.utf8EncodeChar c, 128 ≤ b.toNat) := by
  have hnat : c.toNat = c.val.toNat := rfl
  unfold String.utf8EncodeChar
  rw [hnat]
  by_cases hone : c.val.toNat ≤ 127
  · exact Or.inl ⟨hone, if_pos hone⟩
  · refine Or.inr ⟨by omega, ?_⟩
    simp only [if_neg hone]
    intro b hb
    split at hb
    · simp only [List.mem_cons, List.not_mem_nil, or_false] at hb
      rcases hb with rfl | rfl <;> rw [UInt8.toNat_ofNat'] <;> omega
    · split at hb
      · simp only [List.mem_cons, List.not_mem_nil, or_false] at hb
        rcases hb with rfl | rfl | rfl <;> rw [UInt8.toNat_ofNat'] <;> omega
      · simp only [List.mem_cons, List.not_mem_nil, or_false] at hb
        rcases hb with rfl | rfl | rfl | rfl <;> rw [UInt8.toNat_ofNat'] <;> omega

theorem utf8Bytes_cons (c : Char) (cs : List Char) :
    utf8Bytes (c :: cs) = String.utf8EncodeChar c ++ utf8Bytes cs :=
  rfl

theorem utf8Bytes_append (cs ds : List Char) :
    utf8Bytes (cs ++ ds) = utf8Bytes cs ++ utf8Bytes ds :=
  List.flatMap_append

theorem utf8Bytes_inj {cs ds : List Char} : utf8Bytes cs = utf8Bytes ds ↔ cs = ds := by
  constructor
  · intro h
    have hbytes : (String.ofList cs).toByteArray = (String.ofList ds).toByteArray := by
      rw [String.toByteArray_ofList, String.toByteArray_ofList]
      exact congrArg List.toByteArray h
    exact String.ofList_injective (String.toByteArray_inj.1 hbytes)
  · intro h
    rw [h]

theorem toNat_toLower (c : Char) :
    c.toLower.toNat = if 65 ≤ c.toNat ∧ c.toNat ≤ 90 then c.toNat + 32 else c.toNat := by
  have hnat : ∀ d : Char, d.toNat = d.val.toNat := fun _ => rfl
  have hletter : (c.val ≥ 'A'.val ∧ c.val ≤ 'Z'.val) ↔ (65 ≤ c.toNat ∧ c.toNat ≤ 90) := by
    rw [ge_iff_le, UInt32.le_iff_toNat_le, UInt32.le_iff_toNat_le]
    exact Iff.rfl
  unfold Char.toLower
  by_cases h : 65 ≤ c.toNat ∧ c.toNat ≤ 90
  · rw [dif_pos (hletter.2 h), if_pos h, hnat]
    show (c.val + 32).toNat = c.toNat + 32
    rw [UInt32.toNat_add, ← hnat]
    simp only [UInt32.reduceToNat]
    omega
  · rw [dif_neg fun hl => h (hletter.1 hl), if_neg h]

/-- Folding a character folds its bytes. -/
theorem utf8EncodeChar_toLower (c : Char) :
    String.utf8EncodeChar c.toLower = (String.utf8EncodeChar c).map (foldByte true) := by
  have hlower := toNat_toLower c
  rcases utf8EncodeChar_cases c with ⟨hascii, henc⟩ | ⟨hwide, hlarge⟩
  · rcases utf8EncodeChar_cases c.toLower with ⟨-, henc'⟩ | ⟨hwide', -⟩
    · rw [henc, henc', List.map_singleton]
      congr 1
      apply UInt8.toNat_inj.1
      rw [toNat_foldByte, UInt8.toNat_ofNat', UInt8.toNat_ofNat', hlower]
      rw [Nat.mod_eq_of_lt (a := c.toNat) (Nat.lt_of_le_of_lt hascii (by decide))]
      split <;> omega
    · split at hlower <;> omega
  · have hsame : c.toLower = c := by
      apply Char.ext
      apply UInt32.toNat_inj.1
      rw [if_neg (by omega)] at hlower
      exact hlower
    have hfixed : ∀ b ∈ String.utf8EncodeChar c, foldByte true b = b := by
      intro b hb
      have hge := hlarge b hb
      apply UInt8.toNat_inj.1
      rw [toNat_foldByte, if_neg (by omega)]
    rw [hsame, List.map_congr_left hfixed, List.map_id']

/-- **Two texts agree byte by byte exactly if they agree letter by letter**, with case folded on
both sides or on neither. -/
theorem map_foldByte_iff (ignoreCase : Bool) {cs ds : List Char} :
    (utf8Bytes cs).map (foldByte ignoreCase) = (utf8Bytes ds).map (foldByte ignoreCase) ↔
      foldCase ignoreCase cs = foldCase ignoreCase ds := by
  have hfold : ∀ es,
      (utf8Bytes es).map (foldByte ignoreCase) = utf8Bytes (foldCase ignoreCase es) := by
    intro es
    cases ignoreCase with
    | false =>
        have hid : foldByte false = id := by
          funext b
          exact if_neg (by simp)
        rw [hid, List.map_id]
        rfl
    | true =>
        induction es with
        | nil => rfl
        | cons e es ih =>
            rw [utf8Bytes_cons, List.map_append, ih, ← utf8EncodeChar_toLower]
            rfl
  rw [hfold, hfold, utf8Bytes_inj]

/-- A slash among the bytes of a text is a slash of the text. -/
theorem exists_cut_at_slash {cs : List Char} {x y : List UInt8} (h : utf8Bytes cs = x ++ 47 :: y) :
    ∃ pre rest, cs = pre ++ '/' :: rest ∧ utf8Bytes pre = x ∧ utf8Bytes rest = y := by
  have hslash : ∀ c : Char, (47 : UInt8) ∈ String.utf8EncodeChar c → c = '/' := by
    intro c hmem
    rcases utf8EncodeChar_cases c with ⟨hascii, henc⟩ | ⟨-, hlarge⟩
    · rw [henc, List.mem_singleton] at hmem
      have hnat := congrArg UInt8.toNat hmem
      rw [UInt8.toNat_ofNat'] at hnat
      simp only [UInt8.reduceToNat] at hnat
      apply Char.ext
      apply UInt32.toNat_inj.1
      show c.toNat = 47
      omega
    · have hge := hlarge 47 hmem
      simp only [UInt8.reduceToNat] at hge
      omega
  induction cs generalizing x with
  | nil =>
      cases x with
      | nil => cases h
      | cons _ _ => cases h
  | cons c cs ih =>
      rw [utf8Bytes_cons, List.append_eq_append_iff] at h
      rcases h with ⟨more, rfl, hrest⟩ | ⟨more, henc, hrest⟩
      · obtain ⟨pre, rest, rfl, rfl, rfl⟩ := ih hrest
        exact ⟨c :: pre, rest, rfl, rfl, rfl⟩
      · cases more with
        | nil =>
            rw [List.append_nil] at henc
            obtain ⟨pre, rest, rfl, hpre, rfl⟩ := ih (x := []) hrest.symm
            refine ⟨c :: pre, rest, rfl, ?_, rfl⟩
            rw [utf8Bytes_cons, hpre, henc, List.append_nil]
        | cons b more =>
            cases hrest
            have hc := hslash c (by rw [henc]; simp)
            subst hc
            -- The slash is a single byte, so nothing stands before it.
            have hone : String.utf8EncodeChar '/' = [47] := rfl
            rw [hone] at henc
            cases x with
            | nil =>
                cases henc
                exact ⟨[], cs, rfl, rfl, rfl⟩
            | cons _ x => simp at henc

/-- The bytes are those of the word, up to the case of ASCII letters if case is ignored. -/
def Spells (ignoreCase : Bool) (word : List Char) (text : List UInt8) : Prop :=
  text.map (foldByte ignoreCase) = (utf8Bytes word).map (foldByte ignoreCase)

theorem spells_utf8Bytes_iff {ignoreCase : Bool} {cs word : List Char} :
    Spells ignoreCase word (utf8Bytes cs) ↔ foldCase ignoreCase cs = foldCase ignoreCase word :=
  map_foldByte_iff ignoreCase

theorem spells_append {ignoreCase : Bool} {a b : List Char} {text : List UInt8} :
    Spells ignoreCase (a ++ b) text ↔
      ∃ x y, text = x ++ y ∧ Spells ignoreCase a x ∧ Spells ignoreCase b y := by
  unfold Spells
  rw [utf8Bytes_append, List.map_append, List.map_eq_append_iff]

/-! ### What pieces match -/

namespace Piece

variable {ignoreCase : Bool} {text : List UInt8}

/-- The patterns of the pieces match the text one after the other. -/
def Row (ignoreCase : Bool) (pieces : List Piece) (text : List UInt8) : Prop :=
  Pattern.Row (pieces.filterMap (·.pattern? ignoreCase)) text

theorem row_append {ps qs : List Piece} :
    Row ignoreCase (ps ++ qs) text ↔
      ∃ x y, text = x ++ y ∧ Row ignoreCase ps x ∧ Row ignoreCase qs y := by
  unfold Row
  rw [List.filterMap_append, Pattern.row_append]

theorem row_singleton {piece : Piece} {p : Pattern} (h : piece.pattern? ignoreCase = some p) :
    Row ignoreCase [piece] text ↔ p.Matches text := by
  unfold Row
  rw [List.filterMap_cons_some h]
  exact (Pattern.matches_foldl_seq [] p text).symm

theorem matches_sequence? (ps : List Piece) :
    ((sequence? ignoreCase ps).getD .empty).Matches text ↔ Row ignoreCase ps text := by
  unfold sequence? Row
  cases ps.filterMap (·.pattern? ignoreCase) with
  | nil => exact Iff.rfl
  | cons p rest => exact Pattern.matches_foldl_seq rest p text

/-- Bytes one after the other, each in either case if case is ignored. -/
theorem matches_bytes (bytes : List UInt8) :
    (bytes.foldr (fun b p => Pattern.seq (.byte (ignoringCase ignoreCase (· = b))) p)
        .empty).Matches text ↔
      text.map (foldByte ignoreCase) = bytes.map (foldByte ignoreCase) := by
  induction bytes generalizing text with
  | nil => simp [Pattern.Matches]
  | cons b bytes ih =>
      rw [List.foldr_cons, List.map_cons, List.map_eq_cons_iff]
      constructor
      · rintro ⟨x, y, rfl, ⟨a, rfl, ha⟩, hy⟩
        exact ⟨a, y, rfl, (ignoringCase_iff _ _ _).1 ha, ih.1 hy⟩
      · rintro ⟨a, y, rfl, ha, hy⟩
        exact ⟨[a], y, rfl, ⟨a, rfl, (ignoringCase_iff _ _ _).2 ha⟩, ih.2 hy⟩

/-- **The letters of a word match the bytes of the word**, up to case if case is ignored. -/
theorem row_literals (word : List Char) :
    Row ignoreCase (word.map literal) text ↔ Spells ignoreCase word text := by
  induction word generalizing text with
  | nil =>
      show text = [] ↔ text.map (foldByte ignoreCase) = []
      rw [List.map_eq_nil_iff]
  | cons c word ih =>
      rw [Spells, utf8Bytes_cons, List.map_append, List.map_eq_append_iff]
      constructor
      · rintro ⟨x, y, rfl, hx, hy⟩
        exact ⟨x, y, rfl, (matches_bytes _).1 hx, ih.1 hy⟩
      · rintro ⟨x, y, rfl, hx, hy⟩
        exact ⟨x, y, rfl, (matches_bytes _).2 hx, ih.2 hy⟩

theorem matches_slash : slash.Matches text ↔ text = [47] := by
  unfold slash Pattern.Matches
  simp only [decide_eq_true_eq]
  constructor
  · rintro ⟨b, rfl, rfl⟩
    rfl
  · intro h
    exact ⟨47, h, rfl⟩

/-- Leading directories are nothing, or anything that ends in a slash. -/
theorem row_leadingDirs :
    Row ignoreCase [leadingDirs] text ↔ text = [] ∨ ∃ dirs, text = dirs ++ [47] := by
  rw [row_singleton rfl]
  constructor
  · rintro ((h | h) | ⟨x, y, rfl, -, hy⟩)
    · exact Or.inr ⟨[], matches_slash.1 h⟩
    · exact Or.inl h
    · rw [matches_slash.1 hy]
      exact Or.inr ⟨x, rfl⟩
  · rintro (h | ⟨dirs, rfl⟩)
    · exact Or.inl (Or.inr h)
    · exact Or.inr ⟨dirs, [47], rfl, trivial, matches_slash.2 rfl⟩

/-- Leading directories with something behind them. -/
theorem matches_whole {ps : List Piece} (hps : ps ≠ []) :
    (whole ignoreCase (leadingDirs :: ps)).Matches text ↔
      ∃ dirs rest, text = dirs ++ rest ∧ (dirs = [] ∨ ∃ front, dirs = front ++ [47]) ∧
        Row ignoreCase ps rest := by
  have hwhole : whole ignoreCase (leadingDirs :: ps) =
      (sequence? ignoreCase ([leadingDirs] ++ ps)).getD .empty := by
    cases ps with
    | nil => exact absurd rfl hps
    | cons p ps => rfl
  rw [hwhole, matches_sequence?, row_append]
  simp only [row_leadingDirs]

/-- A word that is not empty has a pattern of its own. -/
theorem exists_sequence?_literals (c : Char) (word : List Char) :
    ∃ p, sequence? ignoreCase ((c :: word).map literal) = some p ∧
      ∀ text, p.Matches text ↔ Spells ignoreCase (c :: word) text := by
  refine ⟨_, rfl, fun text => ?_⟩
  rw [← row_literals, ← matches_sequence?]
  rfl

theorem matches_oneBranch {branches : List Pattern} {p : Pattern}
    (h : oneBranch branches = some p) : p.Matches text ↔ ∃ q ∈ branches, q.Matches text := by
  cases branches with
  | nil => cases h
  | cons q branches =>
      cases h
      exact Pattern.matches_foldl_alt branches q text

/-- The patterns of the words that are not empty. -/
def wordPatterns (ignoreCase : Bool) (words : List (List Char)) : List Pattern :=
  words.flatMap fun word => (sequence? ignoreCase (word.map literal)).toList

/-- A choice of words, none of them empty, matches what one of them does. -/
theorem row_group {words : List (List Char)} (hne : words ≠ [])
    (hwords : ∀ word ∈ words, word ≠ []) :
    Row ignoreCase [group (oneBranch (wordPatterns ignoreCase words))] text ↔
      ∃ word ∈ words, Spells ignoreCase word text := by
  have hpattern : ∀ word ∈ words, ∃ p, sequence? ignoreCase (word.map literal) = some p ∧
      ∀ text, p.Matches text ↔ Spells ignoreCase word text := by
    intro word hword
    cases word with
    | nil => exact absurd rfl (hwords _ hword)
    | cons c word => exact exists_sequence?_literals c word
  cases hbranches : oneBranch (wordPatterns ignoreCase words) with
  | none =>
      -- The first word alone makes a branch.
      obtain ⟨word, hword⟩ := List.exists_mem_of_ne_nil words hne
      obtain ⟨p, hp, -⟩ := hpattern word hword
      have hmem : p ∈ wordPatterns ignoreCase words :=
        List.mem_flatMap.2 ⟨word, hword, Option.mem_toList.2 hp⟩
      cases hlist : wordPatterns ignoreCase words with
      | nil =>
          rw [hlist] at hmem
          cases hmem
      | cons q rest =>
          rw [hlist] at hbranches
          cases hbranches
  | some p =>
      rw [row_singleton rfl, matches_oneBranch hbranches]
      simp only [wordPatterns, List.mem_flatMap, Option.mem_toList]
      constructor
      · rintro ⟨q, ⟨word, hword, hq⟩, htext⟩
        obtain ⟨p', hp', hmatches⟩ := hpattern word hword
        rw [hq] at hp'
        cases hp'
        exact ⟨word, hword, (hmatches text).1 htext⟩
      · rintro ⟨word, hword, htext⟩
        obtain ⟨p', hp', hmatches⟩ := hpattern word hword
        exact ⟨p', ⟨word, hword, hp'⟩, (hmatches text).2 htext⟩

end Piece

/-! ### Reading names -/

/-- The character means nothing special in a glob. -/
def isOrdinary (c : Char) : Bool :=
  c ∉ ['?', '*', '[', '\x7b', '\x7d', ',', '\\']

namespace GlobReading

variable {ignoreCase : Bool}

/-- A character that means nothing special is read as itself, whatever comes next. -/
theorem step_ordinary {c : Char} (hc : isOrdinary c = true) (prev next : Option Char)
    (pieces : List Piece) (groups : List OpenGroup) :
    step ignoreCase ⟨prev, .plain, pieces, groups⟩ c next =
      .ok ⟨some c, .plain, .literal c :: pieces, groups⟩ := by
  simp only [isOrdinary, List.mem_cons, List.not_mem_nil, or_false, not_or, decide_eq_true_eq] at hc
  obtain ⟨h₁, h₂, h₃, h₄, h₅, h₆, h₇⟩ := hc
  show (plain ignoreCase _ c next).map _ = _
  unfold plain
  rw [if_neg h₁, if_neg h₂, if_neg h₃, if_neg h₄, if_neg h₅, if_neg h₆, if_neg h₇]
  rfl

/-- A name is read as its letters. -/
theorem run_ordinary (ignoreCase : Bool) {word : List Char}
    (hword : ∀ c ∈ word, isOrdinary c = true) (prev : Option Char) (pieces : List Piece)
    (groups : List OpenGroup) (rest : List Char) :
    ∃ prev', run ignoreCase ⟨prev, .plain, pieces, groups⟩ (word ++ rest) =
      run ignoreCase ⟨prev', .plain, (word.map Piece.literal).reverse ++ pieces, groups⟩ rest := by
  induction word generalizing prev pieces with
  | nil => exact ⟨prev, rfl⟩
  | cons c word ih =>
      have hrest : ∀ d ∈ word, isOrdinary d = true := fun d hd => hword d (by simp [hd])
      obtain ⟨prev', hrun⟩ := ih hrest (some c) (.literal c :: pieces)
      refine ⟨prev', ?_⟩
      rw [List.cons_append, run, step_ordinary (hword c (by simp))]
      simp only [Except.bind, hrun, List.map_cons, List.reverse_cons, List.append_assoc,
        List.cons_append, List.nil_append]

/-- The stars and the slash in front are read as any directories. -/
theorem run_leadingDirs (rest : List Char) :
    run ignoreCase start ('*' :: '*' :: '/' :: rest) =
      run ignoreCase ⟨some '/', .plain, [.leadingDirs], []⟩ rest :=
  rfl

/-- A comma in a group ends a branch. -/
theorem run_comma (prev : Option Char) (pieces outer : List Piece) (branches : List Pattern)
    (groups : List OpenGroup) (rest : List Char) :
    run ignoreCase ⟨prev, .plain, pieces, ⟨outer, branches⟩ :: groups⟩ (',' :: rest) =
      run ignoreCase ⟨some ',', .plain, [],
        ⟨outer, (Piece.sequence? ignoreCase pieces.reverse).toList ++ branches⟩ :: groups⟩ rest :=
  rfl

/-- A closing brace ends the last branch and the group. -/
theorem run_closing (prev : Option Char) (pieces outer : List Piece) (branches : List Pattern)
    (groups : List OpenGroup) (rest : List Char) :
    run ignoreCase ⟨prev, .plain, pieces, ⟨outer, branches⟩ :: groups⟩ ('\x7d' :: rest) =
      run ignoreCase ⟨some '\x7d', .plain, .group (Piece.oneBranch
        ((Piece.sequence? ignoreCase pieces.reverse).toList ++ branches).reverse) :: outer,
        groups⟩ rest :=
  rfl

theorem reverse_toList_append (p : Option Pattern) (branches : List Pattern) :
    (p.toList ++ branches).reverse = branches.reverse ++ p.toList := by
  cases p <;> simp

/-- **Names in braces are read as a choice of the names.** -/
theorem run_branches (ignoreCase : Bool) {words : List (List Char)} (hne : words ≠ [])
    (hwords : ∀ word ∈ words, ∀ c ∈ word, isOrdinary c = true) (prev : Option Char)
    (outer : List Piece) (branches : List Pattern) (groups : List OpenGroup) (rest : List Char) :
    ∃ prev', run ignoreCase ⟨prev, .plain, [], ⟨outer, branches⟩ :: groups⟩
        ([','].intercalate words ++ '\x7d' :: rest) =
      run ignoreCase ⟨prev', .plain, .group (Piece.oneBranch (branches.reverse ++
        Piece.wordPatterns ignoreCase words)) :: outer, groups⟩ rest := by
  induction words generalizing prev branches with
  | nil => exact absurd rfl hne
  | cons word words ih =>
      have hword := hwords word (by simp)
      cases words with
      | nil =>
          obtain ⟨prev', hrun⟩ := run_ordinary ignoreCase hword prev []
            (⟨outer, branches⟩ :: groups) ('\x7d' :: rest)
          refine ⟨some '\x7d', ?_⟩
          rw [List.intercalate_singleton, hrun, List.append_nil, run_closing, List.reverse_reverse,
            reverse_toList_append, Piece.wordPatterns, List.flatMap_singleton]
      | cons next words =>
          obtain ⟨prev', hrun⟩ := run_ordinary ignoreCase hword prev []
            (⟨outer, branches⟩ :: groups)
            (',' :: ([','].intercalate (next :: words) ++ '\x7d' :: rest))
          obtain ⟨last, hrest⟩ := ih (by simp) (fun w hw => hwords w (by simp [hw])) (some ',')
            ((Piece.sequence? ignoreCase (word.map .literal)).toList ++ branches)
          refine ⟨last, ?_⟩
          have hjoin : [','].intercalate (word :: next :: words) ++ '\x7d' :: rest =
              word ++ ',' :: ([','].intercalate (next :: words) ++ '\x7d' :: rest) := by
            rw [List.intercalate_cons_cons]
            simp
          rw [hjoin, hrun, List.append_nil, run_comma, List.reverse_reverse, hrest,
            reverse_toList_append, List.append_assoc]
          rfl

/-- The text is read as these pieces, whatever was read before it. -/
def ReadAs (ignoreCase : Bool) (text : List Char) (pieces : List Piece) : Prop :=
  ∀ prev before, ∃ prev', run ignoreCase ⟨prev, .plain, before, []⟩ text =
    .ok ⟨prev', .plain, pieces.reverse ++ before, []⟩

theorem readAs_word (ignoreCase : Bool) {word : List Char}
    (hword : ∀ c ∈ word, isOrdinary c = true) :
    ReadAs ignoreCase word (word.map Piece.literal) := by
  intro prev before
  obtain ⟨prev', hrun⟩ := run_ordinary ignoreCase hword prev before [] []
  rw [List.append_nil] at hrun
  exact ⟨prev', hrun⟩

theorem readAs_choice (ignoreCase : Bool) {words : List (List Char)} (hne : words ≠ [])
    (hwords : ∀ word ∈ words, ∀ c ∈ word, isOrdinary c = true) :
    ReadAs ignoreCase ('\x7b' :: ([','].intercalate words ++ ['\x7d']))
      [.group (Piece.oneBranch (Piece.wordPatterns ignoreCase words))] := by
  intro prev before
  obtain ⟨prev', hrun⟩ := run_branches ignoreCase hne hwords (some '\x7b') before [] [] []
  exact ⟨prev', hrun⟩

/-- **A glob of directories, a name and more is read as just these.** -/
theorem ofGlob_eq (ignoreCase : Bool) {word rest : List Char} {pieces : List Piece}
    (hword : ∀ c ∈ word, isOrdinary c = true) (hrest : ReadAs ignoreCase rest pieces) :
    Pattern.ofGlob ignoreCase ('*' :: '*' :: '/' :: (word ++ rest)) =
      .ok (Piece.whole ignoreCase (.leadingDirs :: (word.map .literal ++ pieces))) := by
  obtain ⟨prev, hletters⟩ := run_ordinary ignoreCase hword (some '/') [.leadingDirs] [] rest
  obtain ⟨prev', hmore⟩ := hrest prev ((word.map Piece.literal).reverse ++ [.leadingDirs])
  have hback :
      (pieces.reverse ++ ((word.map Piece.literal).reverse ++ [Piece.leadingDirs])).reverse =
        Piece.leadingDirs :: (word.map Piece.literal ++ pieces) := by simp
  rw [Pattern.ofGlob, run_leadingDirs, hletters, hmore, ← hback]
  rfl

end GlobReading

end OverlayIndex
