/-
What a pattern matches.

`Matches` gives the texts of a pattern constructor by constructor.  The matcher computes something
else: from the places at which the rest of a pattern matches, the places at which the pattern with
one more part in front does.  `Marks` says what such a list of truth values stands for, and every
part of a pattern takes marks of a set of suffixes to marks of the suffixes from which this part
leads into the set.  Started with the mark of the end alone, this decides `Matches`.
-/
import OverlayIndex.Glob.Piece

namespace OverlayIndex

namespace Pattern

/-- The pattern matches the whole text. -/
def Matches : Pattern → List UInt8 → Prop
  | empty, text => text = []
  | byte p, text => ∃ b, text = [b] ∧ p b = true
  | star, _ => True
  | seq first second, text => ∃ x y, text = x ++ y ∧ first.Matches x ∧ second.Matches y
  | alt first second, text => first.Matches text ∨ second.Matches text

/-- The pattern leads from the front of the text to a suffix in the set. -/
def LeadsTo (p : Pattern) (goal : List UInt8 → Prop) (text : List UInt8) : Prop :=
  ∃ x y, text = x ++ y ∧ p.Matches x ∧ goal y

/-- One truth value for each suffix of the text, longest first: whether it is in the set. -/
def Marks (goal : List UInt8 → Prop) : List UInt8 → List Bool → Prop
  | [], good => ∃ g, good = [g] ∧ (g = true ↔ goal [])
  | b :: text, good =>
    ∃ g rest, good = g :: rest ∧ (g = true ↔ goal (b :: text)) ∧ Marks goal text rest

variable {goal other : List UInt8 → Prop} {text : List UInt8} {good : List Bool}

theorem Marks.congr (h : ∀ s, goal s ↔ other s) (hgood : Marks goal text good) :
    Marks other text good := by
  induction text generalizing good with
  | nil =>
      obtain ⟨g, rfl, hg⟩ := hgood
      exact ⟨g, rfl, hg.trans (h _)⟩
  | cons b text ih =>
      obtain ⟨g, rest, rfl, hg, hrest⟩ := hgood
      exact ⟨g, rest, rfl, hg.trans (h _), ih hrest⟩

/-- The first mark is that of the whole text. -/
theorem Marks.exists_first (h : Marks goal text good) :
    ∃ g rest, good = g :: rest ∧ (g = true ↔ goal text) := by
  cases text with
  | nil =>
      obtain ⟨g, rfl, hg⟩ := h
      exact ⟨g, [], rfl, hg⟩
  | cons b text =>
      obtain ⟨g, rest, rfl, hg, -⟩ := h
      exact ⟨g, rest, rfl, hg⟩

theorem Marks.head (h : Marks goal text good) : good.head?.getD false = true ↔ goal text := by
  obtain ⟨g, rest, rfl, hg⟩ := h.exists_first
  exact hg

theorem marks_onlyEnd (text : List UInt8) : Marks (· = []) text (onlyEnd text) := by
  unfold onlyEnd
  induction text with
  | nil => exact ⟨true, rfl, by simp⟩
  | cons b text ih => exact ⟨false, _, rfl, by simp, ih⟩

/-! ### Each part of a pattern -/

theorem leadsTo_empty : empty.LeadsTo goal text ↔ goal text := by
  unfold LeadsTo
  constructor
  · rintro ⟨x, y, rfl, rfl, hy⟩
    exact hy
  · intro h
    exact ⟨[], text, rfl, rfl, h⟩

theorem leadsTo_byte_nil {p : UInt8 → Bool} : ¬(byte p).LeadsTo goal [] := by
  rintro ⟨x, y, hxy, ⟨b, rfl, -⟩, -⟩
  cases hxy

theorem leadsTo_byte_cons {p : UInt8 → Bool} {b : UInt8} :
    (byte p).LeadsTo goal (b :: text) ↔ p b = true ∧ goal text := by
  constructor
  · rintro ⟨x, y, hxy, ⟨a, rfl, ha⟩, hy⟩
    cases hxy
    exact ⟨ha, hy⟩
  · rintro ⟨hb, h⟩
    exact ⟨[b], text, rfl, ⟨b, rfl, hb⟩, h⟩

theorem leadsTo_star_nil : star.LeadsTo goal [] ↔ goal [] := by
  constructor
  · rintro ⟨x, y, hxy, -, hy⟩
    obtain ⟨-, rfl⟩ := List.append_eq_nil_iff.1 hxy.symm
    exact hy
  · intro h
    exact ⟨[], [], rfl, trivial, h⟩

/-- A star leads on from where the text is, or from further on. -/
theorem leadsTo_star_cons {b : UInt8} :
    star.LeadsTo goal (b :: text) ↔ goal (b :: text) ∨ star.LeadsTo goal text := by
  constructor
  · rintro ⟨x, y, hxy, -, hy⟩
    cases x with
    | nil =>
        rw [List.nil_append] at hxy
        rw [hxy]
        exact Or.inl hy
    | cons a x =>
        cases hxy
        exact Or.inr ⟨x, y, rfl, trivial, hy⟩
  · rintro (h | ⟨x, y, rfl, -, hy⟩)
    · exact ⟨[], b :: text, rfl, trivial, h⟩
    · exact ⟨b :: x, y, rfl, trivial, hy⟩

theorem leadsTo_seq {first second : Pattern} :
    (seq first second).LeadsTo goal text ↔ first.LeadsTo (second.LeadsTo goal) text := by
  constructor
  · rintro ⟨x, y, rfl, ⟨x₁, x₂, rfl, h₁, h₂⟩, hy⟩
    exact ⟨x₁, x₂ ++ y, List.append_assoc _ _ _, h₁, x₂, y, rfl, h₂, hy⟩
  · rintro ⟨x₁, y', rfl, h₁, x₂, y, rfl, h₂, hy⟩
    exact ⟨x₁ ++ x₂, y, (List.append_assoc _ _ _).symm, ⟨x₁, x₂, rfl, h₁, h₂⟩, hy⟩

theorem leadsTo_alt {first second : Pattern} :
    (alt first second).LeadsTo goal text ↔ first.LeadsTo goal text ∨ second.LeadsTo goal text := by
  constructor
  · rintro ⟨x, y, hxy, h | h, hy⟩
    · exact Or.inl ⟨x, y, hxy, h, hy⟩
    · exact Or.inr ⟨x, y, hxy, h, hy⟩
  · rintro (⟨x, y, hxy, h, hy⟩ | ⟨x, y, hxy, h, hy⟩)
    · exact ⟨x, y, hxy, Or.inl h, hy⟩
    · exact ⟨x, y, hxy, Or.inr h, hy⟩

/-! ### The matcher -/

theorem Marks.stepByte (p : UInt8 → Bool) (h : Marks goal text good) :
    Marks ((byte p).LeadsTo goal) text (stepByte p text good) := by
  induction text generalizing good with
  | nil => exact ⟨false, rfl, by simp [leadsTo_byte_nil]⟩
  | cons b text ih =>
      obtain ⟨g, rest, rfl, -, hrest⟩ := h
      refine ⟨_, _, rfl, ?_, ih hrest⟩
      rw [Bool.and_eq_true, hrest.head, leadsTo_byte_cons]

theorem Marks.stepStar (h : Marks goal text good) :
    Marks (star.LeadsTo goal) text (stepStar good) := by
  induction text generalizing good with
  | nil =>
      obtain ⟨g, rfl, hg⟩ := h
      exact ⟨g, rfl, hg.trans leadsTo_star_nil.symm⟩
  | cons b text ih =>
      obtain ⟨g, rest, rfl, hg, hrest⟩ := h
      have hlater := ih hrest
      obtain ⟨later, more, hstep, hfirst⟩ := hlater.exists_first
      unfold Pattern.stepStar
      rw [hstep] at hlater ⊢
      refine ⟨g || later, later :: more, rfl, ?_, hlater⟩
      rw [Bool.or_eq_true, hg, hfirst, leadsTo_star_cons]

theorem Marks.or {good' : List Bool} (h : Marks goal text good) (h' : Marks other text good') :
    Marks (fun s => goal s ∨ other s) text (good.zipWith (· || ·) good') := by
  induction text generalizing good good' with
  | nil =>
      obtain ⟨g, rfl, hg⟩ := h
      obtain ⟨g', rfl, hg'⟩ := h'
      exact ⟨g || g', rfl, by rw [Bool.or_eq_true, hg, hg']⟩
  | cons b text ih =>
      obtain ⟨g, rest, rfl, hg, hrest⟩ := h
      obtain ⟨g', rest', rfl, hg', hrest'⟩ := h'
      exact ⟨g || g', _, rfl, by rw [Bool.or_eq_true, hg, hg'], ih hrest hrest'⟩

/-- **One step of the matcher marks the places from which the pattern leads to a marked one.** -/
theorem Marks.step (p : Pattern) (h : Marks goal text good) :
    Marks (p.LeadsTo goal) text (p.step text good) := by
  induction p generalizing goal good with
  | empty => exact h.congr fun s => leadsTo_empty.symm
  | byte p => exact h.stepByte p
  | star => exact h.stepStar
  | seq first second ih₁ ih₂ => exact (ih₁ (ih₂ h)).congr fun s => leadsTo_seq.symm
  | alt first second ih₁ ih₂ => exact ((ih₁ h).or (ih₂ h)).congr fun s => leadsTo_alt.symm

/-- **The matcher decides what a pattern matches.** -/
theorem accepts_iff (p : Pattern) (text : List UInt8) : p.accepts text = true ↔ p.Matches text := by
  unfold accepts
  rw [((marks_onlyEnd text).step p).head]
  constructor
  · rintro ⟨x, y, rfl, hx, rfl⟩
    rw [List.append_nil]
    exact hx
  · intro h
    exact ⟨text, [], (List.append_nil text).symm, h, rfl⟩

/-! ### Several patterns -/

/-- The patterns match the text one after the other. -/
def Row : List Pattern → List UInt8 → Prop
  | [], text => text = []
  | p :: ps, text => ∃ x y, text = x ++ y ∧ p.Matches x ∧ Row ps y

theorem matches_foldl_seq (ps : List Pattern) (p : Pattern) (text : List UInt8) :
    (ps.foldl seq p).Matches text ↔ Row (p :: ps) text := by
  induction ps generalizing p with
  | nil =>
      constructor
      · intro h
        exact ⟨text, [], (List.append_nil text).symm, h, rfl⟩
      · rintro ⟨x, y, rfl, h, rfl⟩
        rw [List.append_nil]
        exact h
  | cons q ps ih =>
      rw [List.foldl_cons, ih]
      constructor
      · rintro ⟨x', z, rfl, ⟨x, y, rfl, hx, hy⟩, hz⟩
        exact ⟨x, y ++ z, List.append_assoc _ _ _, hx, y, z, rfl, hy, hz⟩
      · rintro ⟨x, y', rfl, hx, y, z, rfl, hy, hz⟩
        exact ⟨x ++ y, z, (List.append_assoc _ _ _).symm, ⟨x, y, rfl, hx, hy⟩, hz⟩

theorem row_append {ps qs : List Pattern} :
    Row (ps ++ qs) text ↔ ∃ x y, text = x ++ y ∧ Row ps x ∧ Row qs y := by
  induction ps generalizing text with
  | nil =>
      constructor
      · intro h
        exact ⟨[], text, rfl, rfl, h⟩
      · rintro ⟨x, y, rfl, rfl, h⟩
        exact h
  | cons p ps ih =>
      constructor
      · rintro ⟨x, y, rfl, hx, hy⟩
        obtain ⟨y₁, y₂, rfl, h₁, h₂⟩ := ih.1 hy
        exact ⟨x ++ y₁, y₂, (List.append_assoc _ _ _).symm, ⟨x, y₁, rfl, hx, h₁⟩, h₂⟩
      · rintro ⟨z, y₂, rfl, ⟨x, y₁, rfl, hx, h₁⟩, h₂⟩
        exact ⟨x, y₁ ++ y₂, List.append_assoc _ _ _, hx, ih.2 ⟨y₁, y₂, rfl, h₁, h₂⟩⟩

theorem matches_foldl_alt (ps : List Pattern) (p : Pattern) (text : List UInt8) :
    (ps.foldl alt p).Matches text ↔ ∃ q ∈ p :: ps, q.Matches text := by
  induction ps generalizing p with
  | nil => simp
  | cons q ps ih =>
      rw [List.foldl_cons, ih]
      simp only [List.mem_cons, exists_eq_or_imp, Matches, or_assoc]

end Pattern

end OverlayIndex
