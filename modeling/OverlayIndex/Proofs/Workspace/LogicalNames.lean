/-
Files by logical name.

A logical name is put into a glob as it is, between any directories and the extensions.  None of its
characters means anything special there, and none of an extension does, so the glob matches the
paths that end in the name with one of the extensions, and no others.  In a workspace over texts in
memory a logical name therefore stands for a file exactly if one path, and only one, has that form.
-/
import OverlayIndex.Proofs.Glob.Names
import OverlayIndex.Proofs.Workspace.Runs
import OverlayIndex.Source.Memory

namespace OverlayIndex

namespace Config

variable {c : Config} {name : String}

/-- There are extensions, and they are made of ASCII letters and digits. -/
structure Plain (c : Config) : Prop where
  nonempty : c.extensions ≠ []
  extension : ∀ ext ∈ c.extensions, ext ≠ "" ∧ ∀ ch ∈ ext.toList, ch.isAlphanum = true

/-- The path is a directory, or none, and then the name with one of the extensions, up to the case
of ASCII letters if case is ignored. -/
def Names (c : Config) (name : String) (path : Path) : Prop :=
  ∃ pre rest : String, path.text = pre ++ rest ∧ (pre = "" ∨ ∃ dirs, pre = dirs ++ "/") ∧
    ∃ ext ∈ c.extensions,
      foldCase c.ignoreCase rest.toList = foldCase c.ignoreCase (name ++ "." ++ ext).toList

/-! ### The glob of a name -/

/-- What stands for the extensions in a glob. -/
def endingChars : List String → List Char
  | [single] => single.toList
  | many => '\x7b' :: ([','].intercalate (many.map String.toList) ++ ['\x7d'])

theorem toList_glob (c : Config) (stem : String) :
    (c.stemPattern stem).glob.toList =
      '*' :: '*' :: '/' :: (stem.toList ++ ('.' :: endingChars c.extensions)) := by
  unfold stemPattern
  rcases c.extensions with _ | ⟨e, _ | ⟨e', es⟩⟩
  · simp [endingChars]
  · simp [endingChars]
  · simp [endingChars, String.toList_intercalate]

/-- The special characters are no letters, digits, points, dashes or underscores. -/
theorem isOrdinary_of_class (p : Char → Bool)
    (hp : ['?', '*', '[', '\x7b', '\x7d', ',', '\\'].all (fun ch => !p ch) = true) {ch : Char}
    (h : p ch = true) : isOrdinary ch = true := by
  refine decide_eq_true fun hmem => ?_
  have hnot := List.all_eq_true.1 hp ch hmem
  rw [h] at hnot
  cases hnot

theorem isOrdinary_of_isLogicalName (h : isLogicalName name = true) :
    ∀ ch ∈ name.toList, isOrdinary ch = true := by
  intro ch hch
  have hclass := List.all_eq_true.1 (Bool.and_eq_true_iff.1 h).2 ch hch
  refine isOrdinary_of_class
    (fun ch => isAlphanumeric ch || ch = '_' || ch = '.' || ch = '-') ?_ hclass
  decide +kernel

theorem Plain.ordinary (h : c.Plain) {ext : String} (hext : ext ∈ c.extensions) :
    ∀ ch ∈ ext.toList, isOrdinary ch = true := by
  intro ch hch
  refine isOrdinary_of_class Char.isAlphanum ?_ ((h.extension ext hext).2 ch hch)
  decide +kernel

/-- What stands for the extensions is read as pieces that match the extensions. -/
theorem Plain.exists_ending (h : c.Plain) (ignoreCase : Bool) :
    ∃ ending : List Piece, GlobReading.ReadAs ignoreCase (endingChars c.extensions) ending ∧
      ∀ text, Piece.Row ignoreCase ending text ↔
        ∃ ext ∈ c.extensions, Spells ignoreCase ext.toList text := by
  have hwords : ∀ word ∈ c.extensions.map String.toList,
      (∀ ch ∈ word, isOrdinary ch = true) ∧ word ≠ [] := by
    intro word hword
    obtain ⟨ext, hext, rfl⟩ := List.mem_map.1 hword
    refine ⟨h.ordinary hext, fun hnil => ?_⟩
    exact (h.extension ext hext).1 (String.toList_eq_nil_iff.1 hnil)
  have hne := h.nonempty
  rcases hexts : c.extensions with _ | ⟨e, _ | ⟨e', es⟩⟩
  · exact absurd hexts hne
  · rw [hexts] at hwords
    obtain ⟨hword, -⟩ := hwords e.toList (by simp)
    refine ⟨e.toList.map .literal, GlobReading.readAs_word ignoreCase hword, fun text => ?_⟩
    rw [Piece.row_literals]
    simp
  · rw [hexts] at hwords
    refine ⟨_, GlobReading.readAs_choice ignoreCase (by simp)
      fun word hword => (hwords word hword).1, fun text => ?_⟩
    rw [Piece.row_group (by simp) fun word hword => (hwords word hword).2]
    constructor
    · rintro ⟨word, hword, htext⟩
      obtain ⟨ext, hext, rfl⟩ := List.mem_map.1 hword
      exact ⟨ext, hext, htext⟩
    · rintro ⟨ext, hext, htext⟩
      exact ⟨ext.toList, List.mem_map_of_mem hext, htext⟩

/-- **The glob of a logical name compiles**, and it matches any directories with the name and one of
the extensions behind them. -/
theorem Plain.exists_compile (h : c.Plain) (hname : isLogicalName name = true) :
    ∃ compiled, (c.stemPattern name).compile = .ok compiled ∧ ∀ text, compiled.Matches text ↔
      ∃ dirs rest, text = dirs ++ rest ∧ (dirs = [] ∨ ∃ front, dirs = front ++ [47]) ∧
        ∃ ext ∈ c.extensions, Spells c.ignoreCase (name ++ "." ++ ext).toList rest := by
  obtain ⟨ending, hending, hrow⟩ := h.exists_ending c.ignoreCase
  -- The name and its point are read as letters together.
  obtain ⟨stem, hstem⟩ : ∃ stem, stem = name.toList ++ ['.'] := ⟨_, rfl⟩
  have hordinary : ∀ ch ∈ stem, isOrdinary ch = true := by
    intro ch hch
    rw [hstem] at hch
    rcases List.mem_append.1 hch with hch | hch
    · exact isOrdinary_of_isLogicalName hname ch hch
    · rw [List.mem_singleton.1 hch]
      decide
  have hglob : (c.stemPattern name).glob.toList =
      '*' :: '*' :: '/' :: (stem ++ endingChars c.extensions) := by
    rw [toList_glob, hstem]
    simp
  have hfull : ∀ ext : String, (name ++ "." ++ ext).toList = stem ++ ext.toList := by
    intro ext
    rw [String.toList_append, String.toList_append, hstem]
    rfl
  have hcase : (c.stemPattern name).ignoreCase = c.ignoreCase := rfl
  refine ⟨Piece.whole c.ignoreCase (.leadingDirs :: (stem.map .literal ++ ending)), ?_, ?_⟩
  · rw [FilePattern.compile, hcase, hglob, GlobReading.ofGlob_eq c.ignoreCase hordinary hending]
  · intro text
    rw [Piece.matches_whole (by simp [hstem])]
    simp only [Piece.row_append, Piece.row_literals, hrow, hfull, spells_append]
    constructor
    · rintro ⟨dirs, rest, htext, hdirs, x, y, rfl, hx, ext, hext, hy⟩
      exact ⟨dirs, x ++ y, htext, hdirs, ext, hext, x, y, rfl, hx, hy⟩
    · rintro ⟨dirs, rest, htext, hdirs, ext, hext, x, y, rfl, hx, hy⟩
      exact ⟨dirs, x ++ y, htext, hdirs, x, y, rfl, hx, ext, hext, hy⟩

/-- The same of paths and their letters. -/
theorem Plain.acceptsPath_iff (h : c.Plain) (hname : isLogicalName name = true) :
    ∃ compiled, (c.stemPattern name).compile = .ok compiled ∧
      ∀ path, compiled.acceptsPath path = true ↔ c.Names name path := by
  obtain ⟨compiled, hcompile, hmatches⟩ := h.exists_compile hname
  refine ⟨compiled, hcompile, fun path => ?_⟩
  rw [Pattern.acceptsPath, Pattern.accepts_iff, hmatches]
  unfold Names
  simp only [← spells_utf8Bytes_iff]
  constructor
  · rintro ⟨dirs, rest, htext, rfl | ⟨front, rfl⟩, ext, hext, hrest⟩
    · refine ⟨"", path.text, by simp, Or.inl rfl, ext, hext, ?_⟩
      rw [htext]
      exact hrest
    · obtain ⟨pre, suffix, hcut, -, rfl⟩ := exists_cut_at_slash
        (htext.trans (List.append_assoc front [47] rest))
      refine ⟨String.ofList pre ++ "/", String.ofList suffix, ?_, Or.inr ⟨_, rfl⟩, ext, hext, ?_⟩
      · apply String.toList_inj.1
        simp [hcut]
      · rw [String.toList_ofList]
        exact hrest
  · rintro ⟨pre, rest, htext, hpre, ext, hext, hrest⟩
    refine ⟨utf8Bytes pre.toList, utf8Bytes rest.toList, ?_, ?_, ext, hext, hrest⟩
    · rw [htext, String.toList_append, utf8Bytes_append]
    · rcases hpre with rfl | ⟨dirs, rfl⟩
      · exact Or.inl rfl
      · refine Or.inr ⟨utf8Bytes dirs.toList, ?_⟩
        rw [String.toList_append, utf8Bytes_append]
        rfl

end Config

/-! ### The file of a name -/

namespace Workspace

/-- A logical name stands for a file exactly if the source lists one path for it. -/
theorem treesOfLogicalName_ne_nil_iff {σ : Type} [Source σ] {w : Workspace σ} {name : String}
    {pattern : FilePattern} (hname : name ≠ thisFile)
    (hpattern : w.config.logicalNamePattern? name = some pattern) (origin : FileId) :
    answer (treesOfLogicalName name origin) w ≠ [] ↔
      ∃ path, Source.find w.source pattern = .ok [path] := by
  unfold treesOfLogicalName
  simp only [if_neg hname, answer_bind, answer_get, after_get, hpattern, answer_find]
  rcases Source.find w.source pattern with e | (_ | ⟨p, _ | ⟨q, rest⟩⟩)
  · simp
  · simp
  · simp
  · simp

end Workspace

/-- Of the buffers one, and no other, has a path with the property. -/
def MemorySource.HasOne (m : MemorySource) (P : Path → Prop) : Prop :=
  ∃ before b after, m.buffers = before ++ b :: after ∧ P b.path ∧
    ∀ other ∈ before ++ after, ¬P other.path

/-- A search in memory finds one path exactly if one buffer has a path that matches. -/
theorem MemorySource.find_eq_singleton_iff {m : MemorySource} {pattern : FilePattern}
    {compiled : Pattern} (hcompile : pattern.compile = .ok compiled) {P : Path → Prop}
    (hP : ∀ path, compiled.acceptsPath path = true ↔ P path) :
    (∃ path, m.find pattern = .ok [path]) ↔ m.HasOne P := by
  have hfind : m.find pattern = .ok ((m.buffers.filter fun b => compiled.acceptsPath b.path).map
      (·.path)) := by
    rw [find, hcompile]
    show Except.ok ((m.buffers.map (·.path)).filter compiled.acceptsPath) = _
    rw [List.filter_map]
    rfl
  simp only [hfind, Except.ok.injEq, List.map_eq_singleton_iff, HasOne]
  constructor
  · rintro ⟨path, b, hfilter, -⟩
    obtain ⟨before, after, hbuffers, hbefore, hb, hafter⟩ := List.filter_eq_cons_iff.1 hfilter
    refine ⟨before, b, after, hbuffers, (hP _).1 hb, fun other hother hother' => ?_⟩
    rcases List.mem_append.1 hother with hmem | hmem
    · exact hbefore other hmem ((hP _).2 hother')
    · exact List.filter_eq_nil_iff.1 hafter other hmem ((hP _).2 hother')
  · rintro ⟨before, b, after, hbuffers, hb, hothers⟩
    have haccepts := (hP _).2 hb
    refine ⟨b.path, b, List.filter_eq_cons_iff.2 ⟨before, after, hbuffers, ?_, haccepts, ?_⟩, rfl⟩
    · intro other hother haccepts
      exact hothers other (by simp [hother]) ((hP _).1 haccepts)
    · refine List.filter_eq_nil_iff.2 fun other hother haccepts => ?_
      exact hothers other (by simp [hother]) ((hP _).1 haccepts)

open Workspace

/-- **A logical name matches literally.**  Its glob compiles, and it matches the paths that end,
behind a slash if anything stands before, in the name with one of the extensions.  So over texts in
memory the name stands for a file exactly if one path, and only one, is such a path. -/
theorem logical_name_matches_literally {c : Config} (hc : c.Plain) {name : String}
    {pattern : FilePattern} (hpattern : c.logicalNamePattern? name = some pattern) :
    (∃ compiled, pattern.compile = .ok compiled ∧
      ∀ path, compiled.acceptsPath path = true ↔ c.Names name path) ∧
    ∀ (w : Workspace MemorySource), w.config = c → ∀ origin,
      (answer (treesOfLogicalName name origin) w ≠ [] ↔ w.source.HasOne (c.Names name)) := by
  have hlogical : Config.isLogicalName name = true ∧ c.stemPattern name = pattern := by
    simpa [Config.logicalNamePattern?] using hpattern
  obtain ⟨hname, rfl⟩ := hlogical
  obtain ⟨compiled, hcompile, haccepts⟩ := hc.acceptsPath_iff hname
  refine ⟨⟨compiled, hcompile, haccepts⟩, ?_⟩
  rintro w rfl origin
  -- A star is no logical name.
  have hother : name ≠ thisFile := by
    rintro rfl
    exact absurd hname (by decide +kernel)
  rw [treesOfLogicalName_ne_nil_iff hother hpattern origin]
  exact MemorySource.find_eq_singleton_iff hcompile haccepts

/-- A configuration with two extensions. -/
def twoExtensions : Config :=
  ⟨["rtm", "ovl"], true⟩

/-- Paths of which one has the name `A.b` and the others only look like it. -/
def dottedNames : MemorySource :=
  ((MemorySource.empty.insert ⟨"lib/a.b.OVL"⟩ "$NAME S\n").insert ⟨"lib/aXb.rtm"⟩ "").insert
    ⟨"lib/xa.b.rtm"⟩ ""

theorem plain_twoExtensions : twoExtensions.Plain := by
  have hall : twoExtensions.extensions.all
      (fun ext => ext != "" && ext.toList.all Char.isAlphanum) = true := by
    decide +kernel
  refine ⟨List.cons_ne_nil _ _, fun ext hext => ?_⟩
  have hone := List.all_eq_true.1 hall ext hext
  rw [Bool.and_eq_true, bne_iff_ne] at hone
  exact ⟨hone.1, List.all_eq_true.1 hone.2⟩

/-- A point in a name is no wildcard, and a name is not the end of another one. -/
theorem dotted_name_is_literal :
    twoExtensions.logicalNamePattern? "A.b" = some ⟨"**/A.b.\x7brtm,ovl\x7d", true⟩ ∧
      twoExtensions.Names "A.b" ⟨"lib/a.b.OVL"⟩ ∧ ¬twoExtensions.Names "A.b" ⟨"lib/aXb.rtm"⟩ ∧
      ¬twoExtensions.Names "A.b" ⟨"lib/xa.b.rtm"⟩ ∧
      ∀ origin, answer (treesOfLogicalName "A.b" origin)
        (Workspace.ofSource dottedNames twoExtensions) ≠ [] := by
  have hpattern : twoExtensions.logicalNamePattern? "A.b" =
      some ⟨"**/A.b.\x7brtm,ovl\x7d", true⟩ := by
    decide +kernel
  obtain ⟨⟨compiled, hcompile, haccepts⟩, htrees⟩ :=
    logical_name_matches_literally plain_twoExtensions hpattern
  have hfound : ((FilePattern.mk "**/A.b.\x7brtm,ovl\x7d" true).compile.map fun p =>
      dottedNames.buffers.map fun b => p.acceptsPath b.path).toOption =
        some [true, false, false] := by
    decide +kernel
  rw [hcompile] at hfound
  have hpaths : [compiled.acceptsPath ⟨"lib/a.b.OVL"⟩, compiled.acceptsPath ⟨"lib/aXb.rtm"⟩,
      compiled.acceptsPath ⟨"lib/xa.b.rtm"⟩] = [true, false, false] := Option.some_inj.1 hfound
  simp only [List.cons.injEq, and_true] at hpaths
  obtain ⟨hone, htwo, hthree⟩ := hpaths
  have hnamed := (haccepts _).1 hone
  have hother : ¬twoExtensions.Names "A.b" ⟨"lib/aXb.rtm"⟩ := fun hn => by
    rw [(haccepts _).2 hn] at htwo
    cases htwo
  have hother' : ¬twoExtensions.Names "A.b" ⟨"lib/xa.b.rtm"⟩ := fun hn => by
    rw [(haccepts _).2 hn] at hthree
    cases hthree
  refine ⟨hpattern, hnamed, hother, hother', fun origin => (htrees _ rfl origin).2 ?_⟩
  refine ⟨[], ⟨⟨"lib/a.b.OVL"⟩, "$NAME S\n"⟩,
    [⟨⟨"lib/aXb.rtm"⟩, ""⟩, ⟨⟨"lib/xa.b.rtm"⟩, ""⟩], by decide +kernel, hnamed, ?_⟩
  intro buffer hbuffer
  simp only [List.nil_append, List.mem_cons, List.not_mem_nil, or_false] at hbuffer
  rcases hbuffer with rfl | rfl
  · exact hother
  · exact hother'

end OverlayIndex
