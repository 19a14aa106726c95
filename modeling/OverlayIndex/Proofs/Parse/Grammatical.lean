/-
Forests that follow the grammar.

Every symbol that is read was opened by a rule that the construct around it permits.  The
forest keeps the kinds of its symbols and not the rules, so to be grammatical means that rules
can be found for them.  While a text is read the rules of the open constructs are at hand, and
each of them was permitted by the frame around it when it opened.
-/
import OverlayIndex.Parse.Document
import OverlayIndex.Proofs.Numbering
import OverlayIndex.Proofs.Parse.Moves
import OverlayIndex.Proofs.Parse.Scan

namespace OverlayIndex

namespace Forest

/-- The symbols of the row are of rules that are allowed, and the row below each is made of what
its rule takes. -/
def Grammatical : List Rule → Forest Symbol → Prop
  | _, nil => True
  | allowed, node s below beside =>
    (∃ r ∈ allowed, s.kind = r.kind ∧ below.Grammatical r.children) ∧ beside.Grammatical allowed

theorem Grammatical.append {allowed : List Rule} {f g : Forest Symbol}
    (hf : f.Grammatical allowed) (hg : g.Grammatical allowed) :
    (f ++ g).Grammatical allowed := by
  induction f with
  | nil => exact hg
  | node s below beside _ ih => exact ⟨hf.1, ih hf.2⟩

end Forest

namespace Draft

/-- Every frame was permitted by the frame around it, and the rows that are collected follow the
grammar. -/
def Conforms (roots : Forest Symbol) : List Frame → Prop
  | [] => roots.Grammatical Rule.topLevel
  | f :: frames =>
    f.symbol.kind = f.rule.kind ∧ f.rule ∈ permitted ⟨frames, roots⟩ ∧
      f.below.Grammatical f.rule.children ∧ Conforms roots frames

/-- The draft follows the grammar. -/
def Grammatical (d : Draft) : Prop :=
  Conforms d.roots d.frames

theorem hang_grammatical {d : Draft} (h : d.Grammatical) {done : Forest Symbol}
    (hdone : done.Grammatical d.permitted) : (d.hang done).Grammatical := by
  obtain ⟨frames, roots⟩ := d
  cases frames with
  | nil => exact Forest.Grammatical.append h hdone
  | cons f frames =>
      obtain ⟨hkind, hperm, hbelow, hrest⟩ := h
      exact ⟨hkind, hperm, hbelow.append hdone, hrest⟩

theorem pop_grammatical (stop : Position) :
    ∀ d : Draft, d.Grammatical → (d.pop stop).Grammatical := by
  rintro ⟨frames, roots⟩ h
  cases frames with
  | nil => exact h
  | cons f frames =>
      obtain ⟨hkind, hperm, hbelow, hrest⟩ := h
      exact hang_grammatical (d := ⟨frames, roots⟩) hrest
        ⟨⟨f.rule, hperm, hkind, hbelow⟩, trivial⟩

theorem ClosesTo.grammatical {stop : Position} {d d' : Draft} (hd : ClosesTo stop d d')
    (h : d.Grammatical) : d'.Grammatical :=
  hd.preserves (pop_grammatical stop) h

/-- A construct that is permitted may be added. -/
theorem add_grammatical {d : Draft} (h : d.Grammatical) {r : Rule} (hr : r ∈ d.permitted)
    {s : Symbol} (hs : s.kind = r.kind) : (d.add r s).Grammatical := by
  rcases d.add_cases r s with ⟨-, hadd⟩ | ⟨-, hadd⟩
  · exact hadd.grammatical (hang_grammatical h ⟨⟨r, hr, hs, trivial⟩, trivial⟩)
  · rw [hadd]
    exact ⟨hs, hr, trivial, h⟩

end Draft

theorem LineContext.step_grammatical {ctx : LineContext} {d : Draft} {c : Cursor}
    (h : d.Grammatical) {x : Draft × Cursor} (hx : ctx.step? d c = some x) :
    x.1.Grammatical := by
  rcases step?_cases hx with ⟨k, -, rfl⟩ | ⟨r, m, he, rfl⟩
  · exact (d.close_closesTo _ _).grammatical h
  · exact Draft.add_grammatical h (Draft.opening?_spec (Draft.next?_add he)).1 rfl

theorem LineContext.scan_grammatical {ctx : LineContext} {d : Draft} {c : Cursor}
    (h : d.Grammatical) : (ctx.scan d c).Grammatical := by
  obtain ⟨-, hscan, -⟩ := ctx.scan_preserves (Q := fun d _ => d.Grammatical)
    (fun _ _ _ hQ hx => step_grammatical hQ hx) d c h
  exact hscan

theorem Draft.readLines_grammatical :
    ∀ (lines : List (List Char)) (d : Draft) (number : Nat) (edge : Position),
      d.Grammatical → (d.readLines number edge lines).1.Grammatical := by
  intro lines
  induction lines with
  | nil => intro d number edge h; exact h
  | cons line lines ih =>
      intro d number edge h
      rw [readLines]
      exact ih _ _ _ (LineContext.scan_grammatical ((d.breakLine_closesTo edge).grammatical h))

/-- **The forest of a text follows the grammar.** -/
theorem parseChars_grammatical (text : List Char) :
    (parseChars text).Grammatical Rule.topLevel :=
  (Draft.finish_closesTo _ _).grammatical (Draft.readLines_grammatical _ .empty 0 ⟨0, 0⟩ trivial)

/-! ### Overlays stand at file level -/

theorem Rule.kind_ne_entry_of_mem_children {r c : Rule} (h : c ∈ r.children) :
    c.kind ≠ .entry := by
  intro hkind
  have hc : c = .entry := by
    cases c <;> simp_all [kind]
  subst hc
  cases r <;> simp [children] at h

/-- In a grammatical forest an overlay hangs below nothing. -/
theorem Forest.Grammatical.parent_of_entry {f : Forest Symbol} (hf : f.Grammatical Rule.topLevel)
    {k : Nat} {n : Node Symbol} (h : f.nodeAt? 0 none k = some n) (hn : n.value.kind = .entry) :
    n.parent = none := by
  let P : Option Nat → Forest Symbol → Prop := fun par g =>
    ∃ allowed, g.Grammatical allowed ∧ (par ≠ none → ∀ r ∈ allowed, r.kind ≠ .entry)
  have hbelow : ∀ first par a below beside, P par (node a below beside) → P (some first) below := by
    rintro first par a below beside ⟨allowed, ⟨⟨r, -, -, hlow⟩, -⟩, -⟩
    exact ⟨r.children, hlow, fun _ c hc => Rule.kind_ne_entry_of_mem_children hc⟩
  have hbeside : ∀ par a below beside, P par (node a below beside) → P par beside := by
    rintro par a below beside ⟨allowed, ⟨-, hside⟩, hpar⟩
    exact ⟨allowed, hside, hpar⟩
  have hself : P none f := ⟨Rule.topLevel, hf, fun hne => absurd rfl hne⟩
  obtain ⟨below, beside, -, -, allowed, ⟨⟨r, hr, hkind, -⟩, -⟩, hpar⟩ :=
    exists_row hbelow hbeside hself h
  cases hp : n.parent with
  | none => rfl
  | some q => exact absurd (hkind ▸ hn) (hpar (by simp [hp]) r hr)

end OverlayIndex
