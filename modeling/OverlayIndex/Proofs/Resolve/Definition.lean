/-
The variable that a position stands for.

`VariableAt` says that the token at a position names a variable of the overlay around it.  Then the
definition is that variable and the uses are the variable's; and there are uses at a position only
then, since nothing else that a token may come to is a variable of an overlay.
-/
import OverlayIndex.Proofs.Resolve.Chain
import OverlayIndex.Proofs.Resolve.Uses

namespace OverlayIndex

namespace SymbolTree

variable {t : SymbolTree} {i e : SymbolId} {s : Symbol} {kinds : List Kind} {name : String}
  {kind : Kind}

theorem enclosing?_of_root (h : t.parent? i = none) (kind : Kind) : t.enclosing? i kind = none := by
  rw [enclosing?, ancestors_eq, h]
  rfl

/-- What encloses a symbol is what holds it, or encloses what holds it. -/
theorem enclosing?_of_parent {parent : SymbolId} (h : t.parent? i = some parent)
    (hs : t.get? parent = some s) (kind : Kind) :
    t.enclosing? i kind = if s.kind = kind then some parent else t.enclosing? parent kind := by
  have hsatisfies : t.satisfies (·.kind = kind) parent = decide (s.kind = kind) := by
    rw [satisfies, hs]
    rfl
  rw [enclosing?, ancestors_eq, h, Option.map_some, Option.getD_some, List.find?_cons, hsatisfies]
  by_cases hkind : s.kind = kind
  · simp [hkind]
  · simp [hkind, enclosing?]

theorem Stands.symbol_eq {parent : Option SymbolId} (h : t.Stands parent kinds name i)
    (hs : t.get? i = some s) : s.kind ∈ kinds ∧ s.name = name := by
  obtain ⟨-, s', hs', hkind, hname⟩ := h
  rw [hs] at hs'
  cases hs'
  exact ⟨hkind, hname⟩

theorem StandsWithin.symbol_eq {list : Kind} (h : t.StandsWithin e list kinds name i)
    (hs : t.get? i = some s) : s.kind ∈ kinds ∧ s.name = name := by
  obtain ⟨area, u, -, -, -, hi⟩ := h
  exact hi.symbol_eq hs

/-- What stands in a list of an overlay is enclosed by the overlay. -/
theorem StandsWithin.enclosing?_eq {list : Kind} (h : t.StandsWithin e list kinds name i)
    (hlist : list ≠ .entry) (he : t.get? e = some s) (hkind : s.kind = .entry) :
    t.enclosing? i .entry = some e := by
  obtain ⟨area, u, harea, hu, hlistKind, hi, -⟩ := h
  rw [enclosing?_of_parent hi hu, if_neg (by rw [hlistKind]; exact hlist),
    enclosing?_of_parent harea he, if_pos hkind]

end SymbolTree

theorem Declaration.IsFirst.get? {t : SymbolTree} {d : Declaration} {P : SymbolId → Prop}
    (h : d.IsFirst t P) : t.get? d.id = some d.symbol := by
  rw [← h.1]
  exact d.isAt

namespace Workspace

variable {σ : Type} [Source σ] {w v : Workspace σ} {t : SymbolTree} {f : FileId} {p : Position}
  {name : String} {d : Declaration} {x : String} {e : SymbolId}

/-! ### What a token comes to -/

/-- A declaration that an inclusion exposes stands in a block, and no overlay is around a block. -/
theorem Exposes.outside {i : SymbolId} (h : v.Exposes t e name i d) :
    d.symbol.name = name ∧ d.tree.enclosing? d.id .entry = none := by
  obtain ⟨-, s, target, b, -, -, -, ⟨u, -, hb⟩, hd⟩ := h
  have hkind : b.symbol.kind = .name := List.mem_singleton.1 (hb.2.1.symbol_eq hb.get?).1
  refine ⟨(hd.2.1.symbol_eq hd.get?).2, ?_⟩
  rw [hd.1, SymbolTree.enclosing?_of_parent hd.2.1.1 b.isAt, hkind, if_neg (by decide), hb.1]
  exact SymbolTree.enclosing?_of_root hb.2.1.1 .entry

/-- What is found is a variable of the overlay around the position, or that overlay has no variable
of the name.  Then it may still be a variable of the name, but not one of an overlay. -/
theorem ComesTo.cases_found (ht : t.IsParsed) {r : Resolution} (h : v.ComesTo t p name r)
    (hr : r = .found d) :
    (∃ e, t.Around p e ∧ d.IsFirst t (t.StandsWithin e .dataArea [.var] name)) ∨
    ((∀ e i, t.Around p e → ¬t.StandsWithin e .dataArea [.var] name i) ∧
      (d.symbol.kind = .var → d.symbol.name = name ∧ d.tree.enclosing? d.id .entry = none)) := by
  have hno : ∀ {e : SymbolId}, t.Around p e → (∀ i, ¬t.StandsWithin e .dataArea [.var] name i) →
      ∀ e' i, t.Around p e' → ¬t.StandsWithin e' .dataArea [.var] name i := by
    intro e haround hnone e' i haround'
    rw [ht.around_unique haround' haround]
    exact hnone i
  cases h with
  | ofVariable around first =>
      cases hr
      exact Or.inl ⟨_, around, first⟩
  | ofProcedure around noVariable first =>
      cases hr
      refine Or.inr ⟨hno around noVariable, fun hkind => ?_⟩
      have hproc := (first.2.1.symbol_eq first.get?).1
      rw [hkind] at hproc
      exact absurd hproc (by decide)
  | @ofInclusions _ found around noVariable noProcedure ordered complete nonempty =>
      refine Or.inr ⟨hno around noVariable, fun _ => ?_⟩
      rcases found with _ | ⟨hit, _ | ⟨hit', rest⟩⟩
      · exact absurd rfl nonempty
      · cases hr
        exact ((complete hit.1 hit.2).1 (by simp)).outside
      · cases hr
  | ofBlock undeclared on block =>
      cases hr
      refine Or.inr ⟨fun e i haround => (undeclared e haround).noVariable i, fun hkind => ?_⟩
      obtain ⟨u, -, hfirst⟩ := block
      have hblock := (hfirst.2.1.symbol_eq hfirst.get?).1
      rw [hkind] at hblock
      exact absurd hblock (by decide)
  | ofOverlay around undeclared noBlock listed overlay =>
      cases hr
      refine Or.inr ⟨hno around undeclared.noVariable, fun hkind => ?_⟩
      obtain ⟨before, u, after, -, -, hfirst⟩ := overlay
      have hentry := (hfirst.2.1.symbol_eq hfirst.get?).1
      rw [hkind] at hentry
      exact absurd hentry (by decide)
  | nowhere undeclared noBlock noOverlay => cases hr

/-! ### Definitions and uses by their workspaces -/

theorem Later.tokenOf_of_knows (h : Later w v) (hf : w.Knows f) (p : Position) :
    v.tokenOf f p = w.tokenOf f p := by
  rw [tokenOf, tokenOf, h.textOf_of_knows hf]

theorem knows_of_textOf (h : w.textOf f = some x) : w.Knows f := by
  obtain ⟨q, hq, -⟩ := Option.bind_eq_some_iff.1 h
  exact ⟨q, hq⟩

theorem answer_definition (f : FileId) (p : Position) (w : Workspace σ) :
    answer (definition f p) w = (answer (resolve f p) w).declaration? :=
  rfl

theorem answer_goto (f : FileId) (p : Position) (w : Workspace σ) :
    answer (goto f p) w = (answer (resolve f p) w).declaration?.map Declaration.target :=
  rfl

theorem after_goto (f : FileId) (p : Position) (w : Workspace σ) :
    after (goto f p) w = after (resolve f p) w :=
  rfl

theorem answer_definition_eq_some_iff :
    answer (definition f p) w = some d ↔ answer (resolve f p) w = .found d := by
  rw [answer_definition]
  cases answer (resolve f p) w with
  | found d' => simp [Resolution.declaration?]
  | ambiguous ds => simp [Resolution.declaration?]
  | notFound => simp [Resolution.declaration?]

theorem answer_references_of_some (h : answer (definition f p) w = some d) :
    answer (references f p) w = answer (referencesTo d) (after (resolve f p) w) := by
  rw [references, answer_bind, h]
  rfl

theorem answer_references_of_none (h : answer (definition f p) w = none) :
    answer (references f p) w = [] := by
  rw [references, answer_bind, h]
  rfl

/-- What is not a variable of an overlay has no uses. -/
theorem answer_referencesTo_of_outside
    (h : d.symbol.kind = .var → d.tree.enclosing? d.id .entry = none) :
    answer (referencesTo d) v = [] := by
  unfold referencesTo
  by_cases hkind : d.symbol.kind = .var
  · rw [if_pos hkind, h hkind]
    rfl
  · rw [if_neg hkind]
    rfl

/-- A definition is what the token at the position comes to. -/
theorem Current.comesTo_of_definition (h : w.Current) (hd : answer (definition f p) w = some d) :
    ∃ v x name, Later w v ∧ w.textOf f = some x ∧ w.tokenOf f p = some name ∧
      v.ComesTo (w.treeOf f) p name (.found d) := by
  obtain ⟨-, hlater, hanswer⟩ := h.resolve_eq f p
  have hfound := answer_definition_eq_some_iff.1 hd
  cases hf : w.path? f with
  | none =>
      rw [(resolve_of_unknown hf p).1] at hfound
      cases hfound
  | some q =>
      have hknows : w.Knows f := ⟨q, hf⟩
      have hresolves := resolves_iff.2 (hfound.symm.trans hanswer)
      cases hresolves with
      | token token comesTo =>
          rw [hlater.tokenOf_of_knows hknows] at token
          rw [hlater.treeOf_of_knows hknows] at comesTo
          obtain ⟨x, hx, -⟩ := Option.bind_eq_some_iff.1 token
          exact ⟨_, x, _, hlater, hx, token, comesTo⟩

/-- The token at the position is the name of this variable of the overlay around it, by the text of
the file as it stands. -/
structure VariableAt (w : Workspace σ) (f : FileId) (p : Position) (x : String) (e : SymbolId)
    (d : Declaration) : Prop where
  text : w.textOf f = some x
  token : w.tokenOf f p = some d.symbol.name
  around : (w.treeOf f).Around p e
  first : d.IsFirst (w.treeOf f) ((w.treeOf f).StandsWithin e .dataArea [.var] d.symbol.name)

namespace VariableAt

theorem file_eq (h : w.VariableAt f p x e d) : d.file = f := by
  rw [Declaration.file, h.first.1]
  exact w.file_treeOf f

theorem isVariableOf (h : w.VariableAt f p x e d) : w.IsVariableOf d x e := by
  obtain ⟨s, hs, hkind, -⟩ := h.around
  refine ⟨?_, ?_, ?_, ?_⟩
  · have htext := w.toOption_answer_text f
    rw [h.text] at htext
    rw [h.file_eq]
    cases hanswer : answer (Workspace.text f) w with
    | error err => rw [hanswer] at htext; cases htext
    | ok y => rw [hanswer] at htext; cases htext; rfl
  · rw [h.file_eq, h.first.1, treeOf, h.text]
  · exact List.mem_singleton.1 (h.first.2.1.symbol_eq h.first.get?).1
  · rw [h.first.1]
    exact h.first.2.1.enclosing?_eq (by decide) hs hkind

theorem later (h : w.VariableAt f p x e d) (hlater : Later w v) : v.VariableAt f p x e d := by
  have hknows := knows_of_textOf h.text
  have htree := hlater.treeOf_of_knows hknows
  refine ⟨?_, ?_, ?_, ?_⟩
  · rw [hlater.textOf_of_knows hknows]
    exact h.text
  · rw [hlater.tokenOf_of_knows hknows]
    exact h.token
  · rw [htree]
    exact h.around
  · rw [htree]
    exact h.first

/-- The variable is the definition. -/
theorem definition_eq (h : w.VariableAt f p x e d) (hw : w.Current) :
    answer (definition f p) w = some d := by
  obtain ⟨-, hlater, hanswer⟩ := hw.resolve_eq f p
  have hv := h.later hlater
  have hresolves : (after (resolve f p) w).Resolves f p (.found d) :=
    .token hv.token (.ofVariable hv.around hv.first)
  rw [answer_definition, hanswer, ← resolves_iff.1 hresolves]
  rfl

/-- The uses at the position are those of the variable. -/
theorem references_eq (h : w.VariableAt f p x e d) (hw : w.Current) :
    answer (references f p) w = answer (referencesTo d) w := by
  obtain ⟨-, hlater, -⟩ := hw.resolve_eq f p
  obtain ⟨entry, hentry, -⟩ := h.isVariableOf.exists_entry
  rw [answer_references_of_some (h.definition_eq hw), h.isVariableOf.answer_referencesTo hentry,
    (h.later hlater).isVariableOf.answer_referencesTo hentry]

end VariableAt

/-- A variable that is the definition has the token as its name. -/
theorem Current.token_of_definition (h : w.Current) (hd : answer (definition f p) w = some d)
    (hkind : d.symbol.kind = .var) : w.tokenOf f p = some d.symbol.name := by
  obtain ⟨v, x, name, -, -, htoken, hcomes⟩ := h.comesTo_of_definition hd
  rw [htoken]
  rcases hcomes.cases_found (w.isParsed_treeOf f) rfl with ⟨e, -, hfirst⟩ | ⟨-, houtside⟩
  · rw [(hfirst.2.1.symbol_eq hfirst.get?).2]
  · rw [(houtside hkind).1]

/-- A position with uses stands for a variable of the overlay around it. -/
theorem Current.exists_variableAt (h : w.Current) {u : Location}
    (hu : u ∈ answer (references f p) w) : ∃ x e d, w.VariableAt f p x e d := by
  cases hd : answer (definition f p) w with
  | none =>
      rw [answer_references_of_none hd] at hu
      cases hu
  | some d =>
      rw [answer_references_of_some hd] at hu
      obtain ⟨v, x, name, -, hx, htoken, hcomes⟩ := h.comesTo_of_definition hd
      rcases hcomes.cases_found (w.isParsed_treeOf f) rfl with ⟨e, haround, hfirst⟩ | ⟨-, houtside⟩
      · have hname := (hfirst.2.1.symbol_eq hfirst.get?).2
        rw [← hname] at htoken hfirst
        exact ⟨x, e, d, hx, htoken, haround, hfirst⟩
      · rw [answer_referencesTo_of_outside fun hkind => (houtside hkind).2] at hu
        cases hu

/-- A definition that the overlay around the position declares in a data area is the variable
there. -/
theorem Current.variableAt_of_definition (h : w.Current)
    (hd : answer (definition f p) w = some d) (haround : (w.treeOf f).Around p e)
    (htree : d.tree = w.treeOf f)
    (hwithin : (w.treeOf f).StandsWithin e .dataArea [.var] d.symbol.name d.id) :
    ∃ x, w.VariableAt f p x e d := by
  obtain ⟨v, x, name, -, hx, -, hcomes⟩ := h.comesTo_of_definition hd
  have hkind : d.symbol.kind = .var :=
    List.mem_singleton.1 (hwithin.symbol_eq (by rw [← htree]; exact d.isAt)).1
  refine ⟨x, hx, h.token_of_definition hd hkind, haround, ?_⟩
  have hparsed := w.isParsed_treeOf f
  rcases hcomes.cases_found hparsed rfl with ⟨e', haround', hfirst⟩ | ⟨hnone, houtside⟩
  · rw [hparsed.around_unique haround haround', (hfirst.2.1.symbol_eq hfirst.get?).2]
    exact hfirst
  · rw [(houtside hkind).1] at hwithin
    exact absurd hwithin (hnone e d.id haround)

end Workspace

end OverlayIndex
