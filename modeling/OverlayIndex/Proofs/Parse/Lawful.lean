/-
Drafts that obey the rules.

In every state of the reader, each open construct is one that the construct around it takes, and
so is each closed one.  A construct that takes a limited number of others is closed as soon as it
holds that many, so between two events there is room in every frame.  Only the frame of a
variable ends with its line, and it is innermost on its own line or has the frame of a list of
values right inside it.
-/
import OverlayIndex.Proofs.Parse.Every
import OverlayIndex.Proofs.Parse.Reached

namespace OverlayIndex

namespace Rule

/-- The constructs that may stand inside these open ones, of which the first is the innermost. -/
def permittedIn : List Rule → List Rule
  | [] => topLevel
  | r :: _ => r.children

/-- Of the constructs that open a frame, only variables end with their line. -/
theorem eq_var_of_isImplicit {r : Rule} (hleaf : r.isLeaf = false) (h : r.isImplicit = true) :
    r = .var := by
  cases r <;> simp_all [isLeaf, isImplicit, children, terminators]

/-- Only variables take a limited number of constructs, namely one. -/
theorem maxChildren_eq_some_iff {r : Rule} {n : Nat} :
    r.maxChildren = some n ↔ r = .var ∧ n = 1 := by
  cases r <;> simp [maxChildren, eq_comm]

/-- Variables stand in constructs that something ends. -/
theorem isImplicit_of_var_mem {r : Rule} (h : .var ∈ r.children) :
    r.isImplicit = false ∧ r.maxChildren = none := by
  cases r <;> simp_all [children, isImplicit, terminators, maxChildren]

end Rule

/-! ### Frames -/

namespace Frame

theorem add_nil (f : Frame) : f.add .nil = f := by
  simp [add]

@[simp] theorem width_close (f : Frame) (stop : Position) : (f.close stop).width = 1 := rfl

/-- The construct holds no more than it may. -/
def Fits (f : Frame) : Prop :=
  ∀ n, f.rule.maxChildren = some n → f.below.width ≤ n

theorem isFull_eq_false_iff {f : Frame} :
    f.isFull = false ↔ ∀ n, f.rule.maxChildren = some n → f.below.width < n := by
  rw [isFull]
  cases f.rule.maxChildren with
  | none => simp
  | some n => simp

/-- A frame with room takes one more. -/
theorem fits_add_close {f g : Frame} (h : f.isFull = false) (stop : Position) :
    (f.add (g.close stop)).Fits := by
  intro n hn
  have hlt := isFull_eq_false_iff.1 h n hn
  simp only [add, Forest.width_append, width_close]
  omega

end Frame

/-- The symbol is one that the construct around it takes, and holds no more than it may. -/
def Symbol.Lawful (outer : List Rule) (s : Symbol) (below : Forest Symbol) : Prop :=
  s.rule ∈ Rule.permittedIn outer ∧ ∀ n, s.rule.maxChildren = some n → below.width ≤ n

/-! ### Drafts -/

namespace Draft

theorem permitted_eq (d : Draft) : d.permitted = Rule.permittedIn (rules d.frames) := by
  obtain ⟨frames, roots⟩ := d
  cases frames <;> rfl

/-- Each frame is that of a symbol of its rule, which the frame around it takes. -/
def Chained : List Frame → Prop
  | [] => True
  | f :: frames =>
    f.symbol.rule = f.rule ∧ f.rule ∈ Rule.permittedIn (rules frames) ∧ f.rule.isLeaf = false ∧
      Chained frames

/-- There is room in every frame. -/
def Roomy (frames : List Frame) : Prop :=
  ∀ f ∈ frames, f.isFull = false

/-- The draft obeys the rules.  While frames close, the innermost one may be full. -/
structure Lawful (d : Draft) : Prop where
  chained : Chained d.frames
  fits : ∀ f frames, d.frames = f :: frames → f.Fits ∧ Roomy frames
  kept : Kept Symbol.Lawful d.roots d.frames

theorem lawful_empty : empty.Lawful :=
  ⟨trivial, fun f frames h => by simp [empty] at h, trivial⟩

theorem chained_hang {d : Draft} (h : Chained d.frames) (done : Forest Symbol) :
    Chained (d.hang done).frames := by
  obtain ⟨frames, roots⟩ := d
  cases frames with
  | nil => trivial
  | cons f frames => exact h

theorem pop_lawful (stop : Position) : ∀ d : Draft, d.Lawful → (d.pop stop).Lawful := by
  rintro ⟨frames, roots⟩ h
  cases frames with
  | nil => exact h
  | cons f frames =>
      obtain ⟨hrule, hperm, -, hrest⟩ := h.chained
      obtain ⟨hfits, hroomy⟩ := h.fits f frames rfl
      refine ⟨chained_hang (d := ⟨frames, roots⟩) hrest _, ?_, ?_⟩
      · intro g rest hg
        cases frames with
        | nil => simp [pop, hang] at hg
        | cons g' rest' =>
            simp only [pop, hang, List.cons.injEq] at hg
            obtain ⟨rfl, rfl⟩ := hg
            exact ⟨Frame.fits_add_close (hroomy g' (by simp)) stop,
              fun k hk => hroomy k (by simp [hk])⟩
      · refine pop_kept h.kept fun g rest hg => ?_
        obtain ⟨rfl, rfl⟩ := List.cons.inj hg
        refine ⟨hrule, ?_, ?_⟩
        · rw [Symbol.rule_extendTo, hrule]
          exact hperm
        · rw [Symbol.rule_extendTo, hrule]
          exact hfits

theorem ClosesTo.lawful {stop : Position} {d d' : Draft} (hd : ClosesTo stop d d')
    (h : d.Lawful) : d'.Lawful :=
  hd.preserves (pop_lawful stop) h

/-- A closed construct that is permitted may be hung where there is room. -/
theorem hang_single_lawful {d : Draft} (h : d.Lawful) (hroom : Roomy d.frames) {s : Symbol}
    (hs : s.rule ∈ d.permitted) : (d.hang (.single s)).Lawful := by
  refine ⟨chained_hang h.chained _, ?_, hang_kept h.kept ⟨⟨?_, ?_⟩, trivial, trivial⟩⟩
  · intro g rest hg
    obtain ⟨frames, roots⟩ := d
    cases frames with
    | nil => simp [hang] at hg
    | cons f frames =>
        simp only [hang, List.cons.injEq] at hg
        obtain ⟨rfl, rfl⟩ := hg
        refine ⟨fun n hn => ?_, (h.fits f frames rfl).2⟩
        have hlt := Frame.isFull_eq_false_iff.1 (hroom f (by simp)) n hn
        simp only [Frame.add, Forest.width_append, Forest.single, Forest.width]
        omega
  · rwa [← permitted_eq]
  · intro n hn
    exact Nat.zero_le n

/-- A construct that is permitted may open where there is room. -/
theorem push_lawful {d : Draft} (h : d.Lawful) (hroom : Roomy d.frames) {r : Rule}
    (hleaf : r.isLeaf = false) {s : Symbol} (hs : s.rule = r) (hr : r ∈ d.permitted) :
    (⟨⟨r, s, .nil⟩ :: d.frames, d.roots⟩ : Draft).Lawful := by
  refine ⟨⟨hs, ?_, hleaf, h.chained⟩, ?_, trivial, h.kept⟩
  · rwa [← permitted_eq]
  · intro f frames hf
    obtain ⟨rfl, rfl⟩ := List.cons.inj hf
    exact ⟨fun n _ => Nat.zero_le n, hroom⟩

/-! ### Room in every frame -/

theorem roomy_settle (stop : Position) (roots : Forest Symbol) :
    ∀ (frames : List Frame) (done : Forest Symbol), Roomy frames.tail →
      Roomy (settle Frame.isFull stop roots frames done).frames := by
  intro frames
  induction frames with
  | nil => intro done _ f hf; simp [settle] at hf
  | cons f frames ih =>
      intro done hroom
      rw [settle]
      by_cases hfull : (f.add done).isFull = true
      · rw [if_pos hfull]
        exact ih _ fun g hg => hroom g (List.mem_of_mem_tail hg)
      · rw [if_neg hfull]
        intro g hg
        rcases List.mem_cons.1 hg with rfl | hg
        · simpa using hfull
        · exact hroom g hg

theorem roomy_closeFrames (stop : Position) (roots : Forest Symbol) :
    ∀ (n : Nat) (frames : List Frame) (done : Forest Symbol), Roomy frames →
      Roomy (closeFrames stop roots n frames done).frames := by
  intro n
  induction n with
  | zero =>
      intro frames done hroom
      exact roomy_settle stop roots frames done fun g hg => hroom g (List.mem_of_mem_tail hg)
  | succ n ih =>
      intro frames done hroom
      cases frames with
      | nil => intro f hf; simp [closeFrames] at hf
      | cons f frames => exact ih frames _ fun g hg => hroom g (by simp [hg])

theorem roomy_close {d : Draft} (hroom : Roomy d.frames) (n : Nat) (stop : Position) :
    Roomy (d.close n stop).frames :=
  roomy_closeFrames stop d.roots n d.frames .nil hroom

theorem roomy_add {d : Draft} (hroom : Roomy d.frames) (r : Rule) (s : Symbol) :
    Roomy (d.add r s).frames := by
  rw [add]
  by_cases hleaf : r.isLeaf = true
  · rw [if_pos hleaf]
    exact roomy_settle _ _ _ _ fun g hg => hroom g (List.mem_of_mem_tail hg)
  · rw [if_neg hleaf]
    intro f hf
    rcases List.mem_cons.1 hf with rfl | hf
    · exact Frame.isFull_eq_false_iff.2 fun n hn =>
        (Rule.maxChildren_eq_some_iff.1 hn).2 ▸ Nat.zero_lt_one
    · exact hroom f hf

/-! ### Frames that end with their line -/

/-- At the end of a line the frame of a variable closes if it is innermost, and no other does. -/
theorem breakLine_cases {d : Draft} (h : Chained d.frames) (stop : Position) :
    (d.breakLine stop = d ∧ ∀ f rest, d.frames = f :: rest → f.rule ≠ .var) ∨
      ∃ f rest, d.frames = f :: rest ∧ f.rule = .var ∧ d.breakLine stop = d.pop stop ∧
        ∀ g ∈ rest.head?, g.rule.isImplicit = false ∧ g.rule.maxChildren = none := by
  obtain ⟨frames, roots⟩ := d
  cases frames with
  | nil => exact Or.inl ⟨breakLine_of_frames_nil rfl stop, fun f rest hf => by simp at hf⟩
  | cons f frames =>
      obtain ⟨-, hperm, hleaf, hrest⟩ := h
      by_cases himp : f.isImplicit = true
      · have hvar := Rule.eq_var_of_isImplicit hleaf himp
        have houter : ∀ g ∈ frames.head?,
            g.rule.isImplicit = false ∧ g.rule.maxChildren = none := by
          intro g hg
          obtain ⟨rest, rfl⟩ := List.head?_eq_some_iff.1 hg
          exact Rule.isImplicit_of_var_mem (hvar ▸ hperm)
        refine Or.inr ⟨f, frames, rfl, hvar, ?_, houter⟩
        rw [breakLine, settle, Frame.add_nil, if_pos himp]
        cases frames with
        | nil => rfl
        | cons g rest =>
            have hg : (g.add (f.close stop)).isImplicit = false := (houter g rfl).1
            rw [settle, hg]
            rfl
      · refine Or.inl ⟨?_, ?_⟩
        · rw [breakLine, settle, Frame.add_nil, if_neg himp]
        · intro g rest hg hvar
          obtain ⟨rfl, rfl⟩ := List.cons.inj hg
          exact himp (by rw [Frame.isImplicit, hvar]; rfl)

theorem roomy_breakLine {d : Draft} (h : Chained d.frames) (hroom : Roomy d.frames)
    (stop : Position) : Roomy (d.breakLine stop).frames := by
  rcases breakLine_cases h stop with ⟨hsame, -⟩ | ⟨f, rest, hframes, -, hpop, houter⟩
  · rw [hsame]
    exact hroom
  · rw [hpop]
    obtain ⟨frames, roots⟩ := d
    cases hframes
    cases rest with
    | nil => intro g hg; simp [pop, hang] at hg
    | cons g rest =>
        intro k hk
        rcases List.mem_cons.1 hk with rfl | hk
        · refine Frame.isFull_eq_false_iff.2 fun n hn => ?_
          have hnone : (g.add (f.close stop)).rule.maxChildren = none := (houter g rfl).2
          rw [hnone] at hn
          cases hn
        · exact hroom k (by simp [hk])

/-! ### The innermost frame after something has closed -/

theorem innermost_settle (p : Frame → Bool) (stop : Position) (roots : Forest Symbol) :
    ∀ (frames : List Frame) (done : Forest Symbol), 0 < done.width → ∀ f rest,
      (settle p stop roots frames done).frames = f :: rest → 0 < f.below.width := by
  intro frames
  induction frames with
  | nil => intro done _ f rest hf; simp [settle] at hf
  | cons g frames ih =>
      intro done hdone f rest hf
      rw [settle] at hf
      by_cases hp : p (g.add done) = true
      · rw [if_pos hp] at hf
        exact ih _ (by simp) f rest hf
      · rw [if_neg hp] at hf
        obtain ⟨rfl, rfl⟩ := List.cons.inj hf
        simp only [Frame.add, Forest.width_append]
        omega

theorem innermost_closeFrames (stop : Position) (roots : Forest Symbol) :
    ∀ (n : Nat) (frames : List Frame) (done : Forest Symbol), 0 < n ∨ 0 < done.width → ∀ f rest,
      (closeFrames stop roots n frames done).frames = f :: rest → 0 < f.below.width := by
  intro n
  induction n with
  | zero =>
      intro frames done hdone
      exact innermost_settle _ stop roots frames done (hdone.resolve_left (Nat.lt_irrefl 0))
  | succ n ih =>
      intro frames done _ f rest hf
      cases frames with
      | nil => simp [closeFrames] at hf
      | cons g frames => exact ih frames _ (Or.inr (by simp)) f rest hf

/-- A frame with room that holds something is not that of a variable. -/
theorem ne_var_of_roomy {frames : List Frame} {f : Frame} {rest : List Frame}
    (hroom : Roomy frames) (hf : frames = f :: rest) (hpos : 0 < f.below.width) :
    f.rule ≠ .var := by
  intro hvar
  have hlt := Frame.isFull_eq_false_iff.1 (hroom f (by simp [hf])) 1
    (Rule.maxChildren_eq_some_iff.2 ⟨hvar, rfl⟩)
  omega

end Draft

/-! ### Every state -/

theorem LineContext.step_lawful {ctx : LineContext} {d : Draft} {c : Cursor} (h : d.Lawful)
    (hroom : Draft.Roomy d.frames) {x : Draft × Cursor} (hx : ctx.step? d c = some x) :
    x.1.Lawful ∧ Draft.Roomy x.1.frames := by
  rcases step?_cases hx with ⟨k, -, rfl⟩ | ⟨r, m, he, rfl⟩
  · exact ⟨(d.close_closesTo _ _).lawful h, Draft.roomy_close hroom _ _⟩
  · obtain ⟨hr, hfind⟩ := Draft.opening?_spec (Draft.next?_add he)
    refine ⟨?_, Draft.roomy_add hroom _ _⟩
    rcases d.add_cases r (ctx.symbol r m) with ⟨-, hadd⟩ | ⟨hleaf, hadd⟩
    · exact hadd.lawful (Draft.hang_single_lawful h hroom (by rwa [rule_symbol hfind]))
    · simp only [hadd]
      exact Draft.push_lawful h hroom hleaf (rule_symbol hfind) hr

namespace Reached

variable {lines : List (List Char)} {n : Nat} {d : Draft} {c : Cursor}

/-- In every state the draft obeys the rules, and there is room in every frame. -/
theorem lawful_roomy (h : Reached lines n d c) : d.Lawful ∧ Draft.Roomy d.frames := by
  induction h with
  | first => exact ⟨Draft.lawful_empty, fun f hf => by simp [Draft.empty] at hf⟩
  | event _ hx ih => exact LineContext.step_lawful ih.1 ih.2 hx
  | line _ _ _ ih =>
      exact ⟨(Draft.breakLine_closesTo _ _).lawful ih.1,
        Draft.roomy_breakLine ih.1.chained ih.2 _⟩

theorem lawful (h : Reached lines n d c) : d.Lawful :=
  h.lawful_roomy.1

theorem roomy (h : Reached lines n d c) : Draft.Roomy d.frames :=
  h.lawful_roomy.2

/-- A variable whose frame is innermost stands on the line that is read. -/
theorem var_line (h : Reached lines n d c) :
    ∀ f rest, d.frames = f :: rest → f.rule = .var → f.symbol.extent.start.line = n := by
  induction h with
  | first => intro f rest hf; simp [Draft.empty] at hf
  | @event n d c x h hx ih =>
      intro f rest hf hvar
      have hroom := (h.event hx).roomy
      -- A frame that holds something has just got it, so only a frame that has just opened counts.
      have hholds : 0 < f.below.width → f.symbol.extent.start.line = n :=
        fun hpos => absurd hvar (Draft.ne_var_of_roomy hroom hf hpos)
      rcases LineContext.step?_cases hx with ⟨k, hk, rfl⟩ | ⟨r, m, -, rfl⟩
      · have hcount := (Draft.closing?_spec hk).1
        exact hholds (Draft.innermost_closeFrames _ _ _ _ _ (Or.inl hcount) f rest hf)
      · rw [Draft.add] at hf
        by_cases hleaf : r.isLeaf = true
        · rw [if_pos hleaf] at hf
          have hone : 0 < (Forest.single ((contextOf lines n).symbol r m)).width := Nat.zero_lt_one
          exact hholds (Draft.innermost_settle _ _ _ _ _ hone f rest hf)
        · rw [if_neg hleaf] at hf
          obtain ⟨rfl, rfl⟩ := List.cons.inj hf
          rfl
  | @line n d c line h _ _ _ =>
      intro f rest hf hvar
      rcases Draft.breakLine_cases h.lawful.chained (edgeBefore lines (n + 1)) with
        ⟨hsame, hnot⟩ | ⟨g, outer, hframes, -, hpop, houter⟩
      · rw [hsame] at hf
        exact absurd hvar (hnot f rest hf)
      · rw [hpop, Draft.pop, hframes] at hf
        cases outer with
        | nil => simp [Draft.hang] at hf
        | cons k outer =>
            obtain ⟨rfl, rfl⟩ := List.cons.inj hf
            have himp := (houter k rfl).1
            rw [show k.rule = .var from hvar] at himp
            cases himp

/-- In column zero, the innermost frame started on an earlier line. -/
theorem start_line_lt (h : Reached lines n d c) (hleft : c.left = []) {f : Frame}
    {frames : List Frame} (hf : d.frames = f :: frames) : f.symbol.extent.start.line < n := by
  have hwithin := h.within_base hleft
  rw [Draft.Within, hf] at hwithin
  obtain ⟨hplaced, hstop, -⟩ := hwithin
  exact line_lt_of_lt_base (lt_trans hplaced.start_lt_stop hstop)

/-- In column zero, the innermost frame is not that of a variable. -/
theorem ne_var_of_left_nil (h : Reached lines n d c) (hleft : c.left = []) {f : Frame}
    {frames : List Frame} (hf : d.frames = f :: frames) : f.rule ≠ .var := by
  intro hvar
  have hlt := h.start_line_lt hleft hf
  rw [h.var_line f frames hf hvar] at hlt
  exact Nat.lt_irrefl n hlt

end Reached

/-! ### What opened a symbol -/

/-- A mark of the symbol's rule stands on the line on which the symbol starts, and the symbol has
its start, its name, its text and its selection from there. -/
def Symbol.Marked (lines : List (List Char)) (s : Symbol) : Prop :=
  ∃ line c m, lines[s.extent.start.line]? = some line ∧ c.line = visible line ∧
    s.rule.opening.readAt c = some m ∧ s.extent.start.col = m.whole.start ∧
    s.name = String.ofList m.name.text ∧ s.detail = String.ofList m.whole.text ∧
    s.selection = m.name.extent s.extent.start.line

theorem Opening.readAt_of_find {o : Opening} {c : Cursor} {m : Mark} (h : o.find c = some m) :
    ∃ c', c'.line = c.line ∧ o.readAt c' = some m := by
  obtain ⟨skipped, rest, hright, hf⟩ := tryAt_of_find h
  rcases readAt_of_tryAt hf with ⟨hr, -, -⟩ | ⟨p, x, right, -, hc, -, hr⟩
  · exact ⟨_, by simp [Cursor.line, ← hright], hr⟩
  · exact ⟨_, by simp [Cursor.line, ← hright, show rest = x :: right from hc], hr⟩

namespace Draft

variable {P : Symbol → Prop}

/-- Every symbol of the draft, closed or open, satisfies `P`. -/
def All (P : Symbol → Prop) (d : Draft) : Prop :=
  (∀ s ∈ d.roots.toList, P s) ∧ ∀ f ∈ d.frames, P f.symbol ∧ ∀ s ∈ f.below.toList, P s

theorem hang_all {d : Draft} (h : d.All P) {done : Forest Symbol} (hdone : ∀ s ∈ done.toList, P s) :
    (d.hang done).All P := by
  have hrow : ∀ {row : Forest Symbol}, (∀ s ∈ row.toList, P s) →
      ∀ s ∈ (row ++ done).toList, P s := by
    intro row hrow s hs
    rw [Forest.toList_append, List.mem_append] at hs
    exact hs.elim (hrow s) (hdone s)
  obtain ⟨frames, roots⟩ := d
  cases frames with
  | nil => exact ⟨hrow h.1, fun f hf => by simp [hang] at hf⟩
  | cons f frames =>
      refine ⟨h.1, fun g hg => ?_⟩
      rcases List.mem_cons.1 hg with rfl | hg
      · exact ⟨(h.2 f (by simp)).1, hrow (h.2 f (by simp)).2⟩
      · exact h.2 g (by simp [hg])

/-- What does not depend on where a symbol ends is kept when frames close. -/
theorem pop_all (hext : ∀ s p, P s → P (s.extendTo p)) (stop : Position) :
    ∀ d : Draft, d.All P → (d.pop stop).All P := by
  rintro ⟨frames, roots⟩ h
  cases frames with
  | nil => exact h
  | cons f frames =>
      have hf := h.2 f (by simp)
      refine hang_all (d := ⟨frames, roots⟩) ⟨h.1, fun g hg => h.2 g (by simp [hg])⟩ ?_
      intro s hs
      simp only [Frame.close, Forest.toList, List.append_nil, List.mem_cons] at hs
      rcases hs with rfl | hs
      · exact hext _ _ hf.1
      · exact hf.2 s hs

theorem add_all (hext : ∀ s p, P s → P (s.extendTo p)) {d : Draft} (h : d.All P) {s : Symbol}
    (hs : P s) (r : Rule) : (d.add r s).All P := by
  rcases d.add_cases r s with ⟨-, hadd⟩ | ⟨-, hadd⟩
  · refine hadd.preserves (pop_all hext _) (hang_all h fun u hu => ?_)
    simp only [Forest.single, Forest.toList, List.append_nil, List.mem_singleton] at hu
    exact hu ▸ hs
  · rw [hadd]
    refine ⟨h.1, fun f hf => ?_⟩
    rcases List.mem_cons.1 hf with rfl | hf
    · exact ⟨hs, fun u hu => by simp [Forest.toList] at hu⟩
    · exact h.2 f hf

end Draft

/-- In every state, all symbols of the draft satisfy what every symbol satisfies as it opens and
what does not depend on where the symbol ends. -/
theorem Reached.all {lines : List (List Char)} {P : Symbol → Prop}
    (hext : ∀ s p, P s → P (s.extendTo p))
    (hopen : ∀ n d c r m, Reached lines n d c → r.opening.find c = some m →
      P ((contextOf lines n).symbol r m))
    {n : Nat} {d : Draft} {c : Cursor} (h : Reached lines n d c) : d.All P := by
  induction h with
  | first => exact ⟨fun s hs => by simp [Draft.empty, Forest.toList] at hs, fun f hf => by
      simp [Draft.empty] at hf⟩
  | @event n d c x h hx ih =>
      rcases LineContext.step?_cases hx with ⟨k, -, rfl⟩ | ⟨r, m, he, rfl⟩
      · exact (d.close_closesTo _ _).preserves (Draft.pop_all hext _) ih
      · have hfind := (Draft.opening?_spec (Draft.next?_add he)).2
        exact Draft.add_all hext ih (hopen n d c r m h hfind) r
  | line _ _ _ ih => exact (Draft.breakLine_closesTo _ _).preserves (Draft.pop_all hext _) ih

/-- **Every symbol of a text is that of a mark of its rule.** -/
theorem parseChars_marked (text : List Char) :
    ∀ s ∈ (parseChars text).toList, s.Marked (contentLines text) := by
  obtain ⟨n, d, c, h, -, -, hparse⟩ := parseChars_reached text
  have hext : ∀ (s : Symbol) (p : Position), s.Marked (contentLines text) →
      (s.extendTo p).Marked (contentLines text) := fun _ _ hs => hs
  have hall := h.all hext fun n d c r m h hfind => by
    obtain ⟨line, hline, hc⟩ := h.exists_line
    obtain ⟨c', hc', hread⟩ := Opening.readAt_of_find hfind
    refine ⟨line, c', m, hline, hc'.trans hc, ?_, rfl, rfl, rfl, rfl⟩
    rw [LineContext.rule_symbol hfind]
    exact hread
  rw [hparse]
  exact ((d.finish_closesTo _).preserves (Draft.pop_all hext _) hall).1

/-- **Every symbol of a text is one that the construct around it takes.** -/
theorem parseChars_lawful (text : List Char) : (parseChars text).Every Symbol.Lawful [] := by
  obtain ⟨n, d, c, h, -, -, hparse⟩ := parseChars_reached text
  rw [hparse]
  exact ((Draft.finish_closesTo d _).lawful h.lawful).kept

end OverlayIndex
