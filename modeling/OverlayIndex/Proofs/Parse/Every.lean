/-
Facts about every symbol of a forest.

What is to be shown of a symbol often depends on the constructs around it and on the row
below it.  `Every` says such a fact of all symbols of a row, at whatever depth, given the rules
of the constructs around the row.  While a text is read, the closed rows are spread over the
frames of a draft, and `Kept` says the fact of all of them; to keep it, it has to be shown of each
frame when that frame closes.  In terms of numbers it says the fact of every symbol, its ancestors
and its children.
-/
import OverlayIndex.Parse.Line
import OverlayIndex.Proofs.Numbering
import OverlayIndex.Proofs.Parse.Moves
import OverlayIndex.Proofs.Spans

namespace OverlayIndex

/-! ### The rule of a symbol -/

/-- The rule of a mask, which its first letter tells: `C` stands for a list of values, `A` and `X`
for text, and the others for numbers. -/
def maskRule (name : String) : Rule :=
  match name.toList.head? with
  | some 'C' => .codeMask
  | some 'A' => .alnumMask
  | some 'X' => .alnumMask
  | _ => .numericMask

/-- The rule of a symbol.  Its kind tells the rule, and of the masks the name does. -/
def Symbol.rule (s : Symbol) : Rule :=
  match s.kind with
  | .entry => .entry
  | .name => .name
  | .inclusion => .inclusion
  | .ext => .ext
  | .overlayRef => .overlayRef
  | .dataArea => .dataArea
  | .prog => .prog
  | .proc => .proc
  | .var => .var
  | .editMask => maskRule s.name
  | .codeValue => .codeValue

@[simp] theorem Symbol.rule_extendTo (s : Symbol) (p : Position) :
    (s.extendTo p).rule = s.rule := rfl

theorem Symbol.kind_rule (s : Symbol) : s.rule.kind = s.kind := by
  have hmask : ∀ name, (maskRule name).kind = .editMask := by
    intro name
    rw [maskRule]
    split <;> rfl
  rw [rule]
  split <;> simp_all [Rule.kind]

namespace Shape

/-- What the shape reads starts with a character that satisfies `p`. -/
def StartsWith (a : Shape) (p : Char → Bool) : Prop :=
  ∀ ⦃s t r : List Char⦄, a.read s = some (t, r) → ∃ c cs, t = c :: cs ∧ p c = true

theorem startsWith_one (p : Char → Bool) : (one p).StartsWith p := by
  intro s t r h
  cases s with
  | nil => simp [one] at h
  | cons c cs =>
      simp only [one, Option.ite_none_right_eq_some, Option.some.injEq, Prod.mk.injEq] at h
      exact ⟨c, [], h.2.1.symm, h.1⟩

theorem startsWith_literal (c : Char) (cs : List Char) :
    (literal (c :: cs)).StartsWith (· = c) := by
  intro s t r h
  simp only [literal, Option.ite_none_right_eq_some, Option.some.injEq, Prod.mk.injEq] at h
  exact ⟨c, cs, h.2.1.symm, by simp⟩

theorem StartsWith.andThen {a : Shape} {p : Char → Bool} (ha : a.StartsWith p) (b : Shape) :
    (a.andThen b).StartsWith p := by
  intro s t r h
  simp only [Shape.andThen, Option.bind_eq_some_iff, Option.map_eq_some_iff, Prod.mk.injEq] at h
  obtain ⟨x, hx, y, -, rfl, rfl⟩ := h
  obtain ⟨c, cs, hc, hp⟩ := ha hx
  exact ⟨c, cs ++ y.1, by rw [hc, List.cons_append], hp⟩

theorem StartsWith.orElse {a b : Shape} {p : Char → Bool} (ha : a.StartsWith p)
    (hb : b.StartsWith p) : (a.orElse b).StartsWith p := by
  intro s t r h
  simp only [Shape.orElse, Option.or_eq_some_iff] at h
  rcases h with h | ⟨-, h⟩
  · exact ha h
  · exact hb h

theorem StartsWith.followedBy {a : Shape} {p : Char → Bool} (ha : a.StartsWith p)
    (q : List Char → Bool) : (a.followedBy q).StartsWith p := by
  intro s t r h
  exact ha (Option.filter_eq_some_iff.1 h).1

theorem startsWith_alnumMask : alnumMask.StartsWith fun c => c = 'A' || c = 'X' :=
  ((startsWith_one _).andThen _).followedBy _

theorem startsWith_numericMask :
    numericMask.StartsWith fun c => ['N', 'U', 'S', 'F', 'Z'].contains c :=
  ((((startsWith_one _).andThen _).andThen _).followedBy _).orElse
    (((startsWith_one _).andThen _).followedBy _)

theorem startsWith_codeMask : codeMask.StartsWith (· = 'C') :=
  (startsWith_literal 'C' []).followedBy _

end Shape

/-- The name of a mark is what the shape of the name reads. -/
theorem Opening.read_name_of_find {o : Opening} {c : Cursor} {m : Mark} (h : o.find c = some m) :
    ∃ s rest, o.name.read s = some (m.name.text, rest) := by
  have hread : ∀ {c : Cursor}, o.readAt c = some m →
      ∃ s rest, o.name.read s = some (m.name.text, rest) := by
    intro c hr
    simp only [readAt, Option.bind_eq_some_iff, Option.map_eq_some_iff] at hr
    obtain ⟨x, -, n, hn, t, -, rfl⟩ := hr
    exact ⟨x.2, n.2, hn⟩
  obtain ⟨skipped, rest, -, hf⟩ := tryAt_of_find h
  rcases readAt_of_tryAt hf with ⟨hr, -, -⟩ | ⟨p, x, right, -, -, -, hr⟩
  · exact hread hr
  · exact hread hr

/-- The rule of a symbol is the one that opened it. -/
theorem LineContext.rule_symbol {ctx : LineContext} {r : Rule} {c : Cursor} {m : Mark}
    (h : r.opening.find c = some m) : (ctx.symbol r m).rule = r := by
  obtain ⟨s, rest, hread⟩ := Opening.read_name_of_find h
  have hmask : r.kind = .editMask → (ctx.symbol r m).rule = maskRule (String.ofList m.name.text) := by
    intro hkind
    simp only [Symbol.rule, LineContext.symbol, hkind]
  cases r with
  | alnumMask =>
      obtain ⟨a, cs, htext, ha⟩ := Shape.startsWith_alnumMask hread
      rw [hmask rfl, maskRule, htext]
      simp only [Bool.or_eq_true, decide_eq_true_eq] at ha
      rcases ha with rfl | rfl <;> simp
  | numericMask =>
      obtain ⟨a, cs, htext, ha⟩ := Shape.startsWith_numericMask hread
      rw [hmask rfl, maskRule, htext]
      simp only [List.contains_eq_mem, List.mem_cons, List.not_mem_nil, or_false,
        decide_eq_true_eq] at ha
      rcases ha with rfl | rfl | rfl | rfl | rfl <;> simp
  | codeMask =>
      obtain ⟨a, cs, htext, ha⟩ := Shape.startsWith_codeMask hread
      rw [hmask rfl, maskRule, htext]
      simp only [decide_eq_true_eq] at ha
      subst ha
      simp
  | entry | name | dataArea | var | codeValue | ext | overlayRef | prog | proc | inclusion => rfl

/-! ### Every symbol of a forest -/

namespace Forest

variable {α : Type}

/-- The roots of the trees in the row. -/
def heads : Forest α → List α
  | nil => []
  | node a _ beside => a :: beside.heads

@[simp] theorem heads_append (f g : Forest α) : (f ++ g).heads = f.heads ++ g.heads := by
  induction f with
  | nil => rfl
  | node a below beside _ ih => simp [heads, ih]

@[simp] theorem toList_append (f g : Forest α) : (f ++ g).toList = f.toList ++ g.toList := by
  induction f with
  | nil => rfl
  | node a below beside _ ih => simp [toList, ih]

theorem heads_sublist (f : Forest α) : f.heads.Sublist f.toList := by
  induction f with
  | nil => exact List.Sublist.refl _
  | node a below beside _ ih => exact (ih.trans (List.sublist_append_right _ _)).cons_cons a

@[simp] theorem length_heads (f : Forest α) : f.heads.length = f.width := by
  induction f with
  | nil => rfl
  | node a below beside _ ih => simp [heads, width, ih]

@[simp] theorem width_append (f g : Forest α) : (f ++ g).width = f.width + g.width := by
  rw [← length_heads, heads_append, List.length_append, length_heads, length_heads]

/-- Every symbol of the row, at whatever depth, has the property: `Φ` holds of the rules of the
constructs around it, innermost first, of the symbol itself and of the row below it. -/
def Every (Φ : List Rule → Symbol → Forest Symbol → Prop) : List Rule → Forest Symbol → Prop
  | _, nil => True
  | outer, node s below beside =>
    Φ outer s below ∧ below.Every Φ (s.rule :: outer) ∧ beside.Every Φ outer

variable {Φ : List Rule → Symbol → Forest Symbol → Prop}

theorem Every.append {outer : List Rule} {f g : Forest Symbol} (hf : f.Every Φ outer)
    (hg : g.Every Φ outer) : (f ++ g).Every Φ outer := by
  induction f with
  | nil => exact hg
  | node s below beside _ ih => exact ⟨hf.1, hf.2.1, ih hf.2.2⟩

theorem Every.and {Ψ : List Rule → Symbol → Forest Symbol → Prop} {outer : List Rule}
    {f : Forest Symbol} (hΦ : f.Every Φ outer) (hΨ : f.Every Ψ outer) :
    f.Every (fun outer s below => Φ outer s below ∧ Ψ outer s below) outer := by
  induction f generalizing outer with
  | nil => trivial
  | node s below beside ih₁ ih₂ =>
      exact ⟨⟨hΦ.1, hΨ.1⟩, ih₁ hΦ.2.1 hΨ.2.1, ih₂ hΦ.2.2 hΨ.2.2⟩

end Forest

/-! ### Every closed symbol of a draft -/

namespace Draft

variable {Φ : List Rule → Symbol → Forest Symbol → Prop}

/-- Every symbol that is closed has the property. -/
def Kept (Φ : List Rule → Symbol → Forest Symbol → Prop) (roots : Forest Symbol) :
    List Frame → Prop
  | [] => roots.Every Φ []
  | f :: frames => f.below.Every Φ (f.rule :: rules frames) ∧ Kept Φ roots frames

/-- A row whose symbols have the property may be hung below the innermost frame. -/
theorem hang_kept {d : Draft} (h : Kept Φ d.roots d.frames) {done : Forest Symbol}
    (hdone : done.Every Φ (rules d.frames)) :
    Kept Φ (d.hang done).roots (d.hang done).frames := by
  obtain ⟨frames, roots⟩ := d
  cases frames with
  | nil => exact Forest.Every.append h hdone
  | cons f frames => exact ⟨h.1.append hdone, h.2⟩

/-- A frame may close if it has the property then. -/
theorem pop_kept {d : Draft} {stop : Position} (h : Kept Φ d.roots d.frames)
    (hpop : ∀ f frames, d.frames = f :: frames →
      f.symbol.rule = f.rule ∧ Φ (rules frames) (f.symbol.extendTo stop) f.below) :
    Kept Φ (d.pop stop).roots (d.pop stop).frames := by
  obtain ⟨frames, roots⟩ := d
  cases frames with
  | nil => exact h
  | cons f frames =>
      obtain ⟨hrule, hΦ⟩ := hpop f frames rfl
      refine hang_kept (d := ⟨frames, roots⟩) h.2 ⟨hΦ, ?_, trivial⟩
      rw [Symbol.rule_extendTo, hrule]
      exact h.1

end Draft

/-! ### Every symbol of a tree, by number -/

namespace SymbolTree

variable {t : SymbolTree}

/-- The rules of the symbols that hold this one, innermost first. -/
def outerRules (t : SymbolTree) (id : SymbolId) : List Rule :=
  (t.ancestors id).filterMap fun a => (t.get? a).map Symbol.rule

/-- The rules around a row that hangs below the given symbol. -/
def rulesAround (t : SymbolTree) : Option SymbolId → List Rule
  | none => []
  | some p => ((t.get? p).map Symbol.rule).toList ++ t.outerRules p

theorem outerRules_eq (t : SymbolTree) (id : SymbolId) :
    t.outerRules id = t.rulesAround (t.parent? id) := by
  rw [outerRules, ancestors_eq]
  cases h : t.parent? id with
  | none => rfl
  | some p =>
      rw [Option.map_some, Option.getD_some, List.filterMap_cons, rulesAround]
      cases (t.get? p).map Symbol.rule <;> rfl

theorem head_of_sits {first : Nat} {parent : Option Nat} {a : Symbol} {below beside : Forest Symbol}
    (h : t.forest.Sits first parent (.node a below beside)) :
    t.get? first = some a ∧ t.parent? first = parent := by
  have hhead : t.node? first = some ⟨a, parent, below.rootIds (first + 1)⟩ := h.head
  rw [get?, parent?, hhead]
  exact ⟨rfl, rfl⟩

/-- The numbers of a row are those of its symbols. -/
theorem get?_rootIds :
    ∀ (g : Forest Symbol) (first : Nat) (parent : Option Nat), t.forest.Sits first parent g →
      (g.rootIds first).map t.get? = g.heads.map some := by
  intro g
  induction g with
  | nil => intro first parent _; rfl
  | node a below beside _ ih =>
      intro first parent hsits
      rw [Forest.rootIds, Forest.heads, List.map_cons, List.map_cons, (head_of_sits hsits).1,
        ih _ parent hsits.beside]

/-- A fact about every symbol of the forest, read off for the symbol of a number. -/
theorem row_of_every {Φ : List Rule → Symbol → Forest Symbol → Prop} :
    ∀ (g : Forest Symbol) (first : Nat) (parent : Option Nat), t.forest.Sits first parent g →
      g.Every Φ (t.rulesAround parent) → ∀ j n, j < g.size → t.node? (first + j) = some n →
      ∃ below, t.forest.Sits (first + j + 1) (some (first + j)) below ∧
        n.children = below.rootIds (first + j + 1) ∧
        Φ (t.outerRules (first + j)) n.value below := by
  intro g
  induction g with
  | nil => intro first parent _ _ j n hj; exact absurd hj (Nat.not_lt_zero j)
  | node a below beside ih₁ ih₂ =>
      intro first parent hsits hall j n hj hn
      obtain ⟨hget, hparent⟩ := head_of_sits hsits
      have hbelow : t.rulesAround (some first) = a.rule :: t.rulesAround parent := by
        rw [rulesAround, hget, outerRules_eq, hparent]
        rfl
      cases j with
      | zero =>
          have hhead : t.node? first = some ⟨a, parent, below.rootIds (first + 1)⟩ := hsits.head
          rw [Nat.add_zero, hhead] at hn
          cases hn
          refine ⟨below, hsits.below, rfl, ?_⟩
          rw [Nat.add_zero, outerRules_eq, hparent]
          exact hall.1
      | succ k =>
          by_cases hk : k < below.size
          · have heq : first + (k + 1) = first + 1 + k := by omega
            rw [heq] at hn ⊢
            exact ih₁ (first + 1) (some first) hsits.below (hbelow ▸ hall.2.1) k n hk hn
          · have heq : first + (k + 1) = first + below.size + 1 + (k - below.size) := by omega
            have hlt : k - below.size < beside.size := by
              rw [Forest.size] at hj
              omega
            rw [heq] at hn ⊢
            exact ih₂ (first + below.size + 1) parent hsits.beside hall.2.2 _ n hlt hn

/-- A fact about every symbol of the forest, read off for the symbol of a number: its children are
the numbers of the row below it. -/
theorem every_get? {Φ : List Rule → Symbol → Forest Symbol → Prop} (h : t.forest.Every Φ [])
    {id : SymbolId} {s : Symbol} (hs : t.get? id = some s) :
    ∃ below, t.forest.Sits (id + 1) (some id) below ∧
      t.children id = below.rootIds (id + 1) ∧ Φ (t.outerRules id) s below := by
  obtain ⟨n, hn, rfl⟩ := get?_eq_some_iff.1 hs
  have hrow := row_of_every t.forest 0 none t.forest.sits_self h id n
    (Forest.lt_size_of_nodeAt? hn) (by rwa [Nat.zero_add])
  rw [Nat.zero_add] at hrow
  obtain ⟨below, hsits, hchildren, hΦ⟩ := hrow
  refine ⟨below, hsits, ?_, hΦ⟩
  rw [children, hn, ← hchildren]
  rfl

end SymbolTree

end OverlayIndex
