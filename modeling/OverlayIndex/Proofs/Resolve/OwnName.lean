/-
Declarations looked up from their own names.

A variable or a procedure has its name at the front of a line, with a gap behind it.  So the token
at any place in the name is the name itself, provided that all its characters belong to tokens.
That is not so for every name: names are read by the class of word characters, and a few of these,
circled letters among them, continue no identifier.  Such a name is not found from where it stands,
and it is the only kind that is not.

A name that was looked up with success is a token, so from then on there is nothing to fear: the
name at the declaration is the same token, the overlay around it is the same, and so is the first
declaration of the name.
-/
import OverlayIndex.Proofs.Resolve.RoundTrip

namespace OverlayIndex

/-! ### The token in a declared name -/

/-- A gap is no part of a token. -/
theorem isTokenChar_of_isGap {c : Char} (h : isGap c = true) : isTokenChar c = false := by
  have hspace : isTokenChar ' ' = false ∧ isTokenChar '\t' = false := by decide +kernel
  simp only [isGap, Bool.or_eq_true, decide_eq_true_eq] at h
  rcases h with rfl | rfl
  · exact hspace.1
  · exact hspace.2

/-- Where no token goes on, no identifier does. -/
theorem goesOn_of_stops {c : Char} (h : isTokenChar c = false) (rest : List Char) :
    goesOn (c :: rest) = false := by
  have hstops : (c :: rest).head?.any isTokenChar = false := h
  have hpoint : isPoint c = false := any_head?_of_stops (fun _ => isTokenChar_of_isPoint) hstops
  unfold goesOn
  rw [List.dropWhile_cons_of_neg (by rw [hpoint]; exact Bool.false_ne_true)]
  exact any_head?_of_stops (fun _ => isTokenChar_of_isIdentifier) hstops

theorem goesOn_of_isGap {gap : Char} (h : isGap gap = true) (rest : List Char) :
    goesOn (gap :: rest) = false :=
  goesOn_of_stops (isTokenChar_of_isGap h) rest

/-- A name made of token characters could be a token. -/
theorem Shape.isToken_of_ident {cs name r : List Char} (h : ident.read cs = some (name, r))
    (hchars : ∀ c ∈ name, isTokenChar c = true) : IsToken name := by
  have hname := isName_of_ident h
  refine ⟨hname.isWordOfLine.nonempty, hchars, ?_, ?_⟩
  · obtain ⟨c, hc, hupper⟩ := (Option.any_eq_true _ _).1 hname.capital
    rw [hc, Option.any_some]
    by_contra hpoint
    have hpoint' : isPoint c = true := by simpa using hpoint
    rw [of_decide_eq_true hpoint'] at hupper
    cases hupper
  · have hlast := getLast?_of_ident h
    cases hc : name.getLast? with
    | none => rfl
    | some c =>
        rw [hc] at hlast
        exact decide_eq_false fun heq => hlast (by rw [heq])

theorem isTokenChar_of_textTokenAt? {text : List Char} {q : Position} {name : String}
    (h : textTokenAt? text q = some name) : ∀ c ∈ name.toList, isTokenChar c = true := by
  obtain ⟨span, hspan, hname⟩ := Option.map_eq_some_iff.1 h
  obtain ⟨line, -, htoken⟩ := Option.bind_eq_some_iff.1 hspan
  rw [← hname, String.toList_ofList]
  exact (isToken_of_tokenAt? htoken).chars

/-- **The token at a place in a declared name is the name, exactly if the name is made of token
characters.** -/
theorem textTokenAt?_of_name {text : List Char} {s : Symbol} (hs : s ∈ (parseChars text).toList)
    (hrule : s.rule.NamesLine) {q : Position} (hq : IsBetween text q)
    (hin : s.selection.contains q = true) :
    textTokenAt? text q = some s.name ↔ ∀ c ∈ s.name.toList, isTokenChar c = true := by
  obtain ⟨gap, rest, hgap, hline, hselection, cs, r, hident⟩ := line_of_name hs hrule
  obtain ⟨a, b, hcut, hcol⟩ := hq
  rw [Extent.contains_iff, hselection, Position.le_def, Position.le_def] at hin
  simp only [Extent.onLine] at hin
  have hqline : q.line = s.selection.start.line := by omega
  have hjoin : [] ++ (s.name.toList ++ gap :: rest) = a ++ b := by
    rw [hqline, hline] at hcut
    exact Option.some_inj.1 hcut
  obtain ⟨front, back, hname, ha⟩ := exists_inside hjoin (Nat.zero_le _)
    (by rw [byteLength_nil]; omega)
  constructor
  · intro htoken
    exact isTokenChar_of_textTokenAt? htoken
  · intro hchars
    unfold textTokenAt?
    rw [hcut, Option.bind_some, ← hjoin, hcol, ha]
    have htoken := Shape.isToken_of_ident hident hchars
    have hleft : ([] : List Char).getLast?.any isTokenChar = false := rfl
    obtain ⟨span, hspan, -, htext⟩ := htoken.exists_tokenAt? (gap :: rest) hleft hname
    rw [hspan, Option.map_some, htext.2 (goesOn_of_isGap hgap rest), String.ofList_toList]

/-! ### Declarations of an overlay -/

namespace SymbolTree

variable {t : SymbolTree} {e i : SymbolId} {s entry : Symbol} {name : String} {q : Position}

/-- The symbol is a variable of this name in a data area of the overlay, or a procedure of this name
of the overlay. -/
def Declares (t : SymbolTree) (e : SymbolId) (name : String) (i : SymbolId) : Prop :=
  t.StandsWithin e .dataArea [.var] name i ∨ t.Stands (some e) [.proc] name i

theorem Declares.symbol_eq (h : t.Declares e name i) (hs : t.get? i = some s) :
    s.rule.NamesLine ∧ s.name = name ∧ s.kind ≠ .name := by
  rcases h with h | h
  · obtain ⟨hkind, hname⟩ := h.symbol_eq hs
    have hvar : s.kind = .var := List.mem_singleton.1 hkind
    rw [Symbol.rule, hvar]
    exact ⟨Rule.namesLine_var, hname, by decide⟩
  · obtain ⟨hkind, hname⟩ := h.symbol_eq hs
    have hproc : s.kind = .proc := List.mem_singleton.1 hkind
    rw [Symbol.rule, hproc]
    exact ⟨Rule.namesLine_proc, hname, by decide⟩

theorem Declares.exists_symbol (h : t.Declares e name i) : ∃ s, t.get? i = some s := by
  rcases h with h | h
  · exact h.exists_symbol
  · exact h.exists_symbol

/-- What an overlay declares lies in it. -/
theorem Declares.encloses (h : t.Declares e name i) (ht : t.IsParsed) (he : t.get? e = some entry)
    (hs : t.get? i = some s) : entry.extent.encloses s.extent = true := by
  obtain ⟨real, hn⟩ := ht.nested
  have hchild : ∀ {j k : SymbolId} {a b : Symbol}, t.parent? j = some k → t.get? k = some a →
      t.get? j = some b → a.extent.encloses b.extent = true := by
    intro j k a b hparent ha hb
    obtain ⟨b', hb', hinside⟩ := hn.inside k a ha j (mem_children_iff.2 hparent)
    rw [hb] at hb'
    cases hb'
    exact hinside
  rcases h with ⟨area, u, harea, hu, -, hi, -⟩ | ⟨hi, -⟩
  · have houter := Extent.encloses_iff.1 (hchild harea he hu)
    have hinner := Extent.encloses_iff.1 (hchild hi hu hs)
    exact Extent.encloses_iff.2
      ⟨le_trans houter.1 hinner.1, le_trans hinner.2 houter.2⟩
  · exact hchild hi he hs

theorem Declares.around (h : t.Declares e name i) (ht : t.IsParsed) (he : t.get? e = some entry)
    (hkind : entry.kind = .entry) (hs : t.get? i = some s) (hq : s.selection.contains q = true) :
    t.Around q e := by
  obtain ⟨real, hn⟩ := ht.nested
  have hmem : s ∈ t.symbols := by
    rw [get?_eq] at hs
    exact List.mem_of_getElem? hs
  have houter := Extent.encloses_iff.1 (h.encloses ht he hs)
  have hinner := Extent.encloses_iff.1 (hn.placed s hmem).selection
  rw [Extent.contains_iff] at hq
  refine ⟨entry, he, hkind, Extent.contains_iff.2 ⟨?_, ?_⟩⟩
  · exact le_trans houter.1 (le_trans hinner.1 hq.1)
  · exact le_trans hq.2 (le_trans hinner.2 houter.2)

/-- The first declaration of a name that the overlay declares. -/
def local? (t : SymbolTree) (e : SymbolId) (name : String) : Option SymbolId :=
  (t.findVariable? e name).or (t.findProc? e name)

theorem IsParsed.declares_of_local? (ht : t.IsParsed) (h : t.local? e name = some i) :
    t.Declares e name i := by
  rcases Option.or_eq_some_iff.1 h with hvar | ⟨-, hproc⟩
  · exact Or.inl (((ht.picks_findWithin? e .dataArea [.var] name).some_iff i).1 hvar).1
  · exact Or.inr (((ht.picks_findChild? e [.proc] name).some_iff i).1 hproc).1

theorem IsParsed.exists_local? (ht : t.IsParsed) (h : t.Declares e name i) :
    ∃ j, t.local? e name = some j := by
  cases hlocal : t.local? e name with
  | some j => exact ⟨j, rfl⟩
  | none =>
      obtain ⟨hvar, hproc⟩ := Option.or_eq_none_iff.1 hlocal
      rcases h with h | h
      · exact absurd h ((ht.picks_findWithin? e .dataArea [.var] name).none_iff.1 hvar i)
      · exact absurd h ((ht.picks_findChild? e [.proc] name).none_iff.1 hproc i)

end SymbolTree

/-! ### What is found has the token's name

This holds in whatever state a workspace is: every place that is asked is asked for the token, and
only the block under the position is found by another name.
-/

namespace Workspace

variable {σ α β : Type}

/-- Whatever the workspace, the work answers something with the property. -/
def Yields (x : WorkspaceM σ α) (P : α → Prop) : Prop :=
  ∀ w, P (answer x w)

namespace Yields

variable {P : α → Prop} {x : WorkspaceM σ α}

theorem pure {a : α} (h : P a) : Yields (Pure.pure a : WorkspaceM σ α) P :=
  fun _ => h

theorem bind (hx : Yields x P) {Q : β → Prop} {k : α → WorkspaceM σ β}
    (hk : ∀ a, P a → Yields (k a) Q) : Yields (x >>= k) Q :=
  fun w => hk _ (hx w) _

/-- Nothing needs to be known of the first answer. -/
theorem then_ {Q : β → Prop} {k : α → WorkspaceM σ β} (hk : ∀ a, Yields (k a) Q) :
    Yields (x >>= k) Q :=
  fun _ => hk _ _

theorem mapM {Q : β → Prop} {k : α → WorkspaceM σ β} (hk : ∀ a, Yields (k a) Q) :
    ∀ as : List α, Yields (as.mapM k) fun bs => ∀ b ∈ bs, Q b := by
  intro as
  induction as with
  | nil =>
      rw [List.mapM_nil]
      exact pure fun b hb => by cases hb
  | cons a as ih =>
      rw [List.mapM_cons]
      refine (hk a).bind fun b hb => ih.bind fun bs hbs => pure fun c hc => ?_
      rcases List.mem_cons.1 hc with rfl | hc
      · exact hb
      · exact hbs c hc

end Yields

/-- What is found has this name, or is a block. -/
def Named (name : String) (r : Resolution) : Prop :=
  ∀ d, r = .found d → d.symbol.name = name ∨ d.symbol.kind = .name

theorem named_ofOption {name : String} {found : Option Declaration}
    (h : ∀ d, found = some d → d.symbol.name = name ∨ d.symbol.kind = .name) :
    Named name (.ofOption found) := by
  intro d hd
  cases found with
  | none => cases hd
  | some d' =>
      cases hd
      exact h d rfl

theorem Yields.orElse {name : String} {r : Resolution} {next : WorkspaceM σ Resolution}
    (hr : Named name r) (h : Yields next (Named name)) :
    Yields (r.orElse next) (Named name) := by
  cases r with
  | notFound => exact h
  | found d => exact .pure hr
  | ambiguous ds => exact .pure hr

/-- A symbol that a search accepted has the property that was searched for. -/
theorem property_of_find {t : SymbolTree} {ids : List SymbolId} {accepts : Symbol → Bool}
    {d : Declaration} (h : (ids.find? (t.satisfies accepts)).bind (Declaration.of? t) = some d) :
    accepts d.symbol = true := by
  obtain ⟨i, hi, hd⟩ := Option.bind_eq_some_iff.1 h
  obtain ⟨rfl, rfl⟩ := Declaration.of?_eq_some_iff.1 hd
  obtain ⟨s, hs, haccepts⟩ := SymbolTree.satisfies_iff.1 (List.find?_some hi)
  rw [d.isAt] at hs
  cases hs
  exact haccepts

theorem name_of_findChild {t : SymbolTree} {i : SymbolId} {kinds : List Kind} {name : String}
    {d : Declaration} (h : (t.findChild? i kinds name).bind (Declaration.of? t) = some d) :
    d.symbol.name = name := by
  have haccepts := property_of_find h
  rw [Bool.and_eq_true] at haccepts
  exact of_decide_eq_true haccepts.2

theorem property_of_findRoot {t : SymbolTree} {kind : Kind} {name : String} {d : Declaration}
    (h : (t.findRoot? kind name).bind (Declaration.of? t) = some d) :
    d.symbol.kind = kind ∧ d.symbol.name = name := by
  have haccepts := property_of_find h
  rw [Bool.and_eq_true] at haccepts
  exact ⟨of_decide_eq_true haccepts.1, of_decide_eq_true haccepts.2⟩

variable [Source σ] {w : Workspace σ} {f : FileId} {p q : Position} {x : String} {d : Declaration}
  {e i : SymbolId} {name : String}

theorem yields_nameBlock (target : InclusionTarget) (origin : FileId) :
    Yields (nameBlock target origin : WorkspaceM σ (Option Declaration))
      fun found => ∀ d, found = some d → d.symbol.kind = .name := by
  unfold nameBlock
  refine .then_ fun trees => .pure fun d hd => ?_
  obtain ⟨t, -, hroot⟩ := List.exists_of_findSome?_eq_some hd
  exact (property_of_findRoot hroot).1

theorem yields_exposed (target : InclusionTarget) (origin : FileId) (name : String) :
    Yields (exposed target origin name : WorkspaceM σ (Option Declaration))
      fun found => ∀ d, found = some d → d.symbol.name = name := by
  unfold exposed
  refine .then_ fun block => .pure fun d hd => ?_
  obtain ⟨b, -, hchild⟩ := Option.bind_eq_some_iff.1 hd
  exact name_of_findChild hchild

theorem yields_findIncluded (t : SymbolTree) (e : SymbolId) (name : String) :
    Yields (findIncluded t e name : WorkspaceM σ Resolution) (Named name) := by
  unfold findIncluded
  refine (Yields.mapM (fun target => yields_exposed target t.file name) _).bind
    fun hits hhits => .pure fun d hd => Or.inl ?_
  have hmem : d ∈ hits.filterMap id := by
    rcases hlist : hits.filterMap id with _ | ⟨d', _ | ⟨d'', more⟩⟩
    · rw [hlist] at hd
      cases hd
    · rw [hlist] at hd
      cases hd
      exact List.mem_singleton_self _
    · rw [hlist] at hd
      cases hd
  obtain ⟨hit, hhit, hsome⟩ := List.mem_filterMap.1 hmem
  exact hhits hit hhit d hsome

theorem yields_findInEntry (t : SymbolTree) (e : SymbolId) (name : String) :
    Yields (findInEntry t e name : WorkspaceM σ Resolution) (Named name) := by
  unfold findInEntry
  cases hlocal : (t.findVariable? e name).or (t.findProc? e name) with
  | none => exact yields_findIncluded t e name
  | some i =>
      refine .pure (named_ofOption fun d hd => Or.inl ?_)
      obtain ⟨rfl, rfl⟩ := Declaration.of?_eq_some_iff.1 hd
      have hof := Declaration.of?_eq_some_iff (d := d).2 ⟨rfl, rfl⟩
      rcases Option.or_eq_some_iff.1 hlocal with hvar | ⟨-, hproc⟩
      · obtain ⟨area, -, hchild⟩ := List.exists_of_findSome?_eq_some hvar
        exact name_of_findChild (by rw [hchild, Option.bind_some, hof])
      · have hchild : d.tree.findChild? e [.proc] name = some d.id := hproc
        exact name_of_findChild (by rw [hchild, Option.bind_some, hof])

theorem yields_findBlockAt (t : SymbolTree) (p : Position) (name : String) :
    Yields (findBlockAt t p : WorkspaceM σ Resolution) (Named name) := by
  unfold findBlockAt
  cases t.inclusionAt? p with
  | none => exact .pure fun d hd => by cases hd
  | some target =>
      exact (yields_nameBlock target t.file).bind fun found hfound =>
        .pure (named_ofOption fun d hd => Or.inr (hfound d hd))

theorem yields_findOverlay (t : SymbolTree) (e : SymbolId) (name : String) :
    Yields (findOverlay t e name : WorkspaceM σ Resolution) (Named name) := by
  unfold findOverlay
  cases t.findOverlayRef? e name with
  | none => exact .pure fun d hd => by cases hd
  | some i =>
      refine .then_ fun trees => .pure (named_ofOption fun d hd => Or.inl ?_)
      obtain ⟨u, -, hroot⟩ := List.exists_of_findSome?_eq_some hd
      exact (property_of_findRoot hroot).2

/-- **What is found has the name that the token is, or is a block.** -/
theorem named_of_resolve (htoken : answer (tokenAt f p) w = some name) :
    Named name (answer (resolve f p) w) := by
  have hnone : Named name .notFound := fun d hd => by cases hd
  unfold resolve
  rw [answer_bind, htoken]
  refine Yields.then_ (x := tree f) (Q := Named name) (fun t => ?_) _
  cases t.entryAt? p with
  | none =>
      refine (Yields.pure hnone).bind fun r hr => .orElse hr ?_
      exact (yields_findBlockAt t p name).bind fun r hr => .orElse hr (.pure hnone)
  | some e =>
      refine (yields_findInEntry t e name).bind fun r hr => .orElse hr ?_
      exact (yields_findBlockAt t p name).bind fun r hr => .orElse hr (yields_findOverlay t e name)

/-! ### Looking up in one file -/

/-- Reading the file gives this text and changes nothing, and the tree that is kept of the file, if
there is one, is that of the text. -/
structure ReadsAs (w : Workspace σ) (f : FileId) (x : String) : Prop where
  text : answer (text f) w = .ok x
  calm : after (Workspace.text f) w = w
  kept : ∀ t, w.cache.get? f = some t → t = parse f x

theorem Current.readsAs (h : w.Current) (hx : w.textOf f = some x) : w.ReadsAs f x := by
  refine ⟨?_, h.after_text f, ?_⟩
  · have htext := w.toOption_answer_text f
    rw [hx] at htext
    cases hanswer : answer (Workspace.text f) w with
    | error err => rw [hanswer] at htext; cases htext
    | ok y => rw [hanswer] at htext; cases htext; rfl
  · intro t ht
    obtain ⟨y, hy, rfl⟩ := h.fresh f t ht
    rw [hx] at hy
    cases hy
    rfl

namespace ReadsAs

theorem token (h : w.ReadsAs f x) (p : Position) :
    answer (tokenAt f p) w = textTokenAt? x.toList p ∧ after (tokenAt f p) w = w := by
  unfold tokenAt
  rw [answer_bind, after_bind, h.text, h.calm]
  exact ⟨rfl, rfl⟩

theorem tree (h : w.ReadsAs f x) : answer (Workspace.tree f) w = parse f x := by
  cases hkept : w.cache.get? f with
  | some t => rw [(tree_of_hit hkept).1, h.kept t hkept]
  | none => exact (tree_of_ok hkept h.text).1

/-- What is found is found by a token. -/
theorem exists_token (h : w.ReadsAs f x) (hd : answer (resolve f p) w = .found d) :
    ∃ name, textTokenAt? x.toList p = some name ∧
      (d.symbol.name = name ∨ d.symbol.kind = .name) := by
  cases htoken : textTokenAt? x.toList p with
  | none =>
      unfold resolve at hd
      rw [answer_bind, (h.token p).1, htoken] at hd
      cases hd
  | some name => exact ⟨name, rfl, named_of_resolve ((h.token p).1.trans htoken) d hd⟩

/-- What the overlay around a position declares under the token's name is found at once. -/
theorem resolve_of_local? (h : w.ReadsAs f x) (htoken : textTokenAt? x.toList p = some name)
    (haround : (parse f x).Around p e) (hlocal : (parse f x).local? e name = some d.id)
    (hd : d.tree = parse f x) : answer (resolve f p) w = .found d := by
  have hentry : (parse f x).entryAt? p = some e :=
    (show (parse f x).IsParsed from ⟨x.toList, rfl⟩).entryAt?_eq_some_iff.2 haround
  have hof : Declaration.of? (parse f x) d.id = some d := Declaration.of?_eq_some_iff.2 ⟨hd, rfl⟩
  have hfound : ∀ v : Workspace σ, answer (findInEntry (parse f x) e name) v = .found d := by
    intro v
    unfold findInEntry
    rw [show ((parse f x).findVariable? e name).or ((parse f x).findProc? e name) = some d.id
      from hlocal]
    show Resolution.ofOption (Declaration.of? (parse f x) d.id) = .found d
    rw [hof]
    rfl
  unfold resolve
  rw [answer_bind, (h.token p).1, htoken, (h.token p).2]
  simp only [answer_bind, h.tree, hentry, hfound]
  rfl

end ReadsAs

end Workspace

open Workspace

/-- **A declaration is found from its own name exactly if the name is made of token characters.**
What is found at the start of the name is then a declaration of the same overlay and the same
name. -/
theorem own_name_resolves_iff {σ : Type} [Source σ] {w : Workspace σ} {f : FileId} {x : String}
    (h : w.ReadsAs f x) {e i : SymbolId} {entry s : Symbol}
    (he : (parse f x).get? e = some entry) (hentry : entry.kind = .entry)
    (hs : (parse f x).get? i = some s) (hlocal : (parse f x).Declares e s.name i) :
    (∃ d, answer (resolve f s.selection.start) w = .found d ∧ d.tree = parse f x ∧
      (parse f x).Declares e s.name d.id) ↔ ∀ c ∈ s.name.toList, isTokenChar c = true := by
  have hparsed : (parse f x).IsParsed := ⟨x.toList, rfl⟩
  have hmem : s ∈ (parseChars x.toList).toList := SymbolTree.mem_parseChars hs rfl
  obtain ⟨hrule, -, -⟩ := hlocal.symbol_eq hs
  obtain ⟨gap, rest, -, hline, hselection, -⟩ := line_of_name hmem hrule
  have hbetween : IsBetween x.toList s.selection.start :=
    ⟨[], s.name.toList ++ gap :: rest, hline, by rw [hselection]; rfl⟩
  have hin : s.selection.contains s.selection.start = true := by
    rw [Extent.contains_iff, hselection, Position.le_def, Position.le_def]
    simp [Extent.onLine]
  have htoken := textTokenAt?_of_name hmem hrule hbetween hin
  constructor
  · intro hfound
    obtain ⟨d, hd, htree, hdeclares⟩ := hfound
    have hsymbol : (parse f x).get? d.id = some d.symbol := htree ▸ d.isAt
    obtain ⟨-, hname, hkind⟩ := hdeclares.symbol_eq hsymbol
    obtain ⟨name, hname', hnamed⟩ := h.exists_token hd
    rcases hnamed with heq | heq
    · apply htoken.1
      rw [hname', ← heq, hname]
    · exact absurd heq hkind
  · intro hchars
    obtain ⟨j, hj⟩ := hparsed.exists_local? hlocal
    have hdeclares := hparsed.declares_of_local? hj
    obtain ⟨s', hs'⟩ := hdeclares.exists_symbol
    refine ⟨⟨parse f x, j, s', hs'⟩, ?_, rfl, hdeclares⟩
    exact h.resolve_of_local? (htoken.2 hchars) (hlocal.around hparsed he hentry hs hin) hj rfl

/-- An overlay with a variable and a procedure of one name, and a variable whose name has a circled
letter in it. -/
def accentedNames : String :=
  "$ENTRY E\n$DATA\nA.É N5\nAⓐ A3\n$PROG\nA.É PROC\nX = A.É\nENDPROC"

/-- The workspace over this overlay in which its file has a number. -/
def accentedWorkspace : Workspace MemorySource :=
  after (fileId ⟨"E.rtm"⟩)
    (Workspace.ofSource (MemorySource.empty.insert ⟨"E.rtm"⟩ accentedNames) .standard)

theorem current_accentedWorkspace : accentedWorkspace.Current :=
  ((Current.ofSource (MemorySource.calm _) .standard).after_fileId _).1

/-- What the tree of this overlay holds, and what the look-ups in it come to. -/
theorem lookups_accentedWorkspace :
    ((parse ⟨0⟩ accentedNames).get? 0 =
        some ⟨.entry, "E", "$ENTRY E", ⟨⟨0, 0⟩, ⟨7, 7⟩⟩, .onLine 0 7 8⟩ ∧
      (parse ⟨0⟩ accentedNames).get? 4 =
        some ⟨.var, "Aⓐ", "Aⓐ", .onLine 3 0 7, .onLine 3 0 4⟩ ∧
      (parse ⟨0⟩ accentedNames).get? 7 =
        some ⟨.proc, "A.É", "A.É PROC", ⟨⟨5, 0⟩, ⟨7, 7⟩⟩, .onLine 5 0 4⟩) ∧
    ((parse ⟨0⟩ accentedNames).findVariable? 0 "A.É" = some 2 ∧
      (parse ⟨0⟩ accentedNames).findVariable? 0 "Aⓐ" = some 4 ∧
      (parse ⟨0⟩ accentedNames).findProc? 0 "A.É" = some 7 ∧
      (parse ⟨0⟩ accentedNames).entryAt? ⟨6, 6⟩ = some 0) ∧
    (answer (definition ⟨0⟩ ⟨3, 0⟩) accentedWorkspace).isNone = true ∧
    answer (goto ⟨0⟩ ⟨6, 6⟩) accentedWorkspace =
      some ⟨⟨0⟩, 2, .var, "A.É", .onLine 2 0 7, .onLine 2 0 4⟩ := by
  decide +kernel

theorem isParsed_accentedNames : (parse ⟨0⟩ accentedNames).IsParsed :=
  ⟨accentedNames.toList, rfl⟩

/-- The circled letter ends the token, and no overlay declares an `A`. -/
theorem circled_name_is_lost :
    (parse ⟨0⟩ accentedNames).Declares 0 "Aⓐ" 4 ∧
      ∀ d, answer (resolve ⟨0⟩ ⟨3, 0⟩) accentedWorkspace ≠ .found d := by
  obtain ⟨-, ⟨-, hvar, -⟩, hnone, -⟩ := lookups_accentedWorkspace
  refine ⟨Or.inl ?_, fun d hd => ?_⟩
  · exact (((isParsed_accentedNames.picks_findWithin? 0 .dataArea [.var] "Aⓐ").some_iff 4).1 hvar).1
  · rw [answer_definition_eq_some_iff.2 hd] at hnone
    cases hnone

/-- From the name of the procedure the variable of the same name is found. -/
theorem accented_name_resolves :
    accentedWorkspace.ReadsAs ⟨0⟩ accentedNames ∧
      (parse ⟨0⟩ accentedNames).Declares 0 "A.É" 7 ∧
      ∃ d, answer (resolve ⟨0⟩ ⟨5, 0⟩) accentedWorkspace = .found d ∧
        d.tree = parse ⟨0⟩ accentedNames ∧ (parse ⟨0⟩ accentedNames).Declares 0 "A.É" d.id := by
  obtain ⟨⟨hentry, -, hproc⟩, ⟨-, -, hfind, -⟩, -⟩ := lookups_accentedWorkspace
  have hreads : accentedWorkspace.ReadsAs ⟨0⟩ accentedNames := current_accentedWorkspace.readsAs rfl
  have hlocal : (parse ⟨0⟩ accentedNames).Declares 0 "A.É" 7 :=
    Or.inr (((isParsed_accentedNames.picks_findChild? 0 [.proc] "A.É").some_iff 7).1 hfind).1
  have hchars : "A.É".toList.all isTokenChar = true := by decide +kernel
  exact ⟨hreads, hlocal,
    (own_name_resolves_iff hreads hentry rfl hproc hlocal).2 (List.all_eq_true.1 hchars)⟩

/-- The target is a variable in a data area of the overlay, or a procedure of the overlay. -/
def Target.IsOf (target : Target) (t : SymbolTree) (e : SymbolId) : Prop :=
  target.file = t.file ∧
    (target.kind = .var ∧ t.StandsWithin e .dataArea [.var] target.name target.id ∨
      target.kind = .proc ∧ t.Stands (some e) [.proc] target.name target.id)

theorem Target.IsOf.declares {target : Target} {t : SymbolTree} {e : SymbolId}
    (h : target.IsOf t e) : t.Declares e target.name target.id ∧ target.kind ≠ .name := by
  rcases h.2 with ⟨hkind, h⟩ | ⟨hkind, h⟩
  · exact ⟨Or.inl h, by rw [hkind]; decide⟩
  · exact ⟨Or.inr h, by rw [hkind]; decide⟩

/-- **Going to a definition that the overlay at hand declares, and from any place in its name once
more, leads to the same target**, whatever else the workspace holds by then. -/
theorem goto_is_idempotent {σ : Type} [Source σ] {w v : Workspace σ} {f : FileId} {p q : Position}
    {target : Target} {e : SymbolId} {x : String} (hw : w.ReadsAs f x)
    (hgoto : answer (goto f p) w = some target) (haround : (parse f x).Around p e)
    (hof : target.IsOf (parse f x) e) (hv : v.ReadsAs f x) (hq : IsBetween x.toList q)
    (hin : target.focusRange.contains q = true) : answer (goto f q) v = some target := by
  have hparsed : (parse f x).IsParsed := ⟨x.toList, rfl⟩
  obtain ⟨hdeclares, hkind⟩ := hof.declares
  obtain ⟨d, hd, rfl⟩ := Option.map_eq_some_iff.1 hgoto
  have hfound := answer_definition_eq_some_iff.1 hd
  -- The token at the position is the name, since no block is a declaration of an overlay.
  obtain ⟨name, htoken, hnamed⟩ := hw.exists_token hfound
  have hname : d.symbol.name = name := hnamed.resolve_right hkind
  subst hname
  -- So what was found is the first declaration of the name.
  obtain ⟨j, hj⟩ := hparsed.exists_local? hdeclares
  obtain ⟨s, hs⟩ := (hparsed.declares_of_local? hj).exists_symbol
  have hfirst := hw.resolve_of_local? (d := ⟨parse f x, j, s, hs⟩) htoken haround hj rfl
  rw [hfound] at hfirst
  cases hfirst
  -- At the name itself the token and the overlay are the same.
  obtain ⟨entry, hentry, hentryKind, -⟩ := haround
  obtain ⟨hrule, -, -⟩ := hdeclares.symbol_eq hs
  have htoken' : textTokenAt? x.toList q = some s.name :=
    (textTokenAt?_of_name (SymbolTree.mem_parseChars hs rfl) hrule hq hin).2
      (isTokenChar_of_textTokenAt? htoken)
  have haround' := hdeclares.around hparsed hentry hentryKind hs hin
  have hback := hv.resolve_of_local? (d := ⟨parse f x, j, s, hs⟩) htoken' haround' hj rfl
  unfold goto
  rw [answer_bind, answer_definition_eq_some_iff.2 hback]
  rfl

/-- From the use in the procedure to the variable, and from behind the variable's name again, in the
workspace that the first search leaves. -/
theorem goto_accented_twice :
    answer (goto ⟨0⟩ ⟨6, 6⟩) accentedWorkspace =
        some ⟨⟨0⟩, 2, .var, "A.É", .onLine 2 0 7, .onLine 2 0 4⟩ ∧
      answer (goto ⟨0⟩ ⟨2, 4⟩) (after (resolve ⟨0⟩ ⟨6, 6⟩) accentedWorkspace) =
        some ⟨⟨0⟩, 2, .var, "A.É", .onLine 2 0 7, .onLine 2 0 4⟩ := by
  obtain ⟨-, ⟨hvar, -, -, hentry⟩, -, hgoto⟩ := lookups_accentedWorkspace
  have hx : accentedWorkspace.textOf ⟨0⟩ = some accentedNames := rfl
  obtain ⟨hcurrent, hlater, -⟩ := current_accentedWorkspace.resolve_eq ⟨0⟩ ⟨6, 6⟩
  have hx' := (hlater.textOf_of_knows (knows_of_textOf hx)).trans hx
  have hwithin :=
    (((isParsed_accentedNames.picks_findWithin? 0 .dataArea [.var] "A.É").some_iff 2).1 hvar).1
  refine ⟨hgoto, goto_is_idempotent (current_accentedWorkspace.readsAs hx) hgoto
    (isParsed_accentedNames.entryAt?_eq_some_iff.1 hentry) ⟨rfl, Or.inl ⟨rfl, hwithin⟩⟩
    (hcurrent.readsAs hx') ⟨"A.É".toList, " N5".toList, ?_, ?_⟩ ?_⟩
  all_goals decide +kernel

end OverlayIndex
