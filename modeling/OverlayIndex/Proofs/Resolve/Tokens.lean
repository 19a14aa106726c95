/-
The token at a column of a line.

Going out from the column over all token characters gives a run, and the token is the run without
the points at its ends.  So the line is cut in five: what stands before the run, points, the token,
points, what stands behind the run.  `RunAt` says this of a column, and there is a token exactly if
the line can be cut so.  From it follows what the token in a given word is: the word itself, unless
behind it, past any number of points, an identifier goes on.
-/
import Mathlib.Data.List.Basic
import Mathlib.Data.List.TakeWhile
import OverlayIndex.Proofs.Resolve.Occurrences

namespace OverlayIndex

/-! ### Points -/

/-- A run of points. -/
def points (n : Nat) : List Char :=
  List.replicate n '.'

theorem isPoint_of_mem_points {n : Nat} {c : Char} (h : c ∈ points n) : isPoint c = true := by
  rw [List.eq_of_mem_replicate h]
  rfl

theorem isTokenChar_of_isPoint {c : Char} (h : isPoint c = true) : isTokenChar c = true := by
  unfold isTokenChar
  rw [Bool.or_eq_true]
  exact Or.inl h

theorem isIdentifier_of_isTokenChar {c : Char} (h : isTokenChar c = true) (hc : isPoint c = false) :
    isIdentifier c = true := by
  unfold isTokenChar at h
  rw [Bool.or_eq_true] at h
  rcases h with h | h
  · exact absurd (show isPoint c = true from h) (by rw [hc]; exact Bool.false_ne_true)
  · exact h

theorem isTokenChar_of_isIdentifier {c : Char} (h : isIdentifier c = true) :
    isTokenChar c = true := by
  unfold isTokenChar
  rw [h, Bool.or_true]

/-- Where no token goes on, nothing that belongs to tokens does. -/
theorem any_head?_of_stops {q : Char → Bool} (hq : ∀ c, q c = true → isTokenChar c = true)
    {right : List Char} (h : right.head?.any isTokenChar = false) : right.head?.any q = false := by
  cases right with
  | nil => rfl
  | cons c right =>
      have hstops : isTokenChar c = false := h
      show q c = false
      by_contra hc
      rw [hq c (by simpa using hc)] at hstops
      cases hstops

theorem eq_points {cs : List Char} (h : ∀ c ∈ cs, isPoint c = true) : cs = points cs.length :=
  List.eq_replicate_of_mem fun c hc => of_decide_eq_true (h c hc)

theorem reverse_points (n : Nat) : (points n).reverse = points n :=
  List.reverse_replicate

/-- A point takes one byte. -/
theorem byteLength_points (n : Nat) : byteLength (points n) = n := by
  induction n with
  | zero => rfl
  | succ n ih =>
      show byteLength ('.' :: points n) = n + 1
      rw [byteLength_cons, ih, Nat.add_comm]
      rfl

/-! ### Runs of a class of characters -/

section Runs

variable {q : Char → Bool} {cs run rest : List Char}

theorem takeWhile_of_run (hrun : ∀ c ∈ run, q c = true) (hrest : rest.head?.any q = false) :
    (run ++ rest).takeWhile q = run := by
  rw [List.takeWhile_append_of_pos hrun]
  cases rest with
  | nil => simp
  | cons c rest =>
      have hc : q c = false := hrest
      simp [hc]

theorem dropWhile_of_run (hrun : ∀ c ∈ run, q c = true) (hrest : rest.head?.any q = false) :
    (run ++ rest).dropWhile q = rest := by
  rw [List.dropWhile_append_of_pos hrun]
  cases rest with
  | nil => rfl
  | cons c rest =>
      have hc : q c = false := hrest
      simp [hc]

/-- Where a run stops, no character of it is left. -/
theorem eq_nil_of_stops (hrun : ∀ c ∈ run, q c = true) (h : (run ++ rest).head?.any q = false) :
    run = [] := by
  cases run with
  | nil => rfl
  | cons c run =>
      have hc : q c = false := h
      rw [hrun c List.mem_cons_self] at hc
      cases hc

/-- A run at the front. -/
theorem exists_run (q : Char → Bool) (cs : List Char) :
    ∃ run rest, cs = run ++ rest ∧ (∀ c ∈ run, q c = true) ∧ rest.head?.any q = false := by
  refine ⟨cs.takeWhile q, cs.dropWhile q, List.takeWhile_append_dropWhile.symm,
    fun c hc => List.mem_takeWhile_imp hc, ?_⟩
  have hhead := List.head?_dropWhile_not q cs
  cases hc : (cs.dropWhile q).head? with
  | none => rfl
  | some c =>
      rw [hc] at hhead
      simpa using hhead

/-- A run at the back. -/
theorem exists_run_back (q : Char → Bool) (cs : List Char) :
    ∃ rest run, cs = rest ++ run ∧ (∀ c ∈ run, q c = true) ∧ rest.getLast?.any q = false := by
  obtain ⟨run, rest, hcs, hrun, hrest⟩ := exists_run q cs.reverse
  refine ⟨rest.reverse, run.reverse, ?_, fun c hc => hrun c (List.mem_reverse.1 hc), ?_⟩
  · rw [← List.reverse_append, ← hcs, List.reverse_reverse]
  · rw [List.getLast?_reverse]
    exact hrest

end Runs

/-! ### Tokens -/

/-- The text could be a token. -/
structure IsToken (word : List Char) : Prop where
  nonempty : word ≠ []
  chars : ∀ c ∈ word, isTokenChar c = true
  first : word.head?.any isPoint = false
  last : word.getLast?.any isPoint = false

/-- Token characters that are not all points are a token between points. -/
theorem exists_isToken {cs : List Char} (hchars : ∀ c ∈ cs, isTokenChar c = true)
    (hpoints : ¬∀ c ∈ cs, isPoint c = true) :
    ∃ lead word trail, cs = points lead ++ (word ++ points trail) ∧ IsToken word := by
  obtain ⟨first, inner, rfl, hfirst, hfront⟩ := exists_run isPoint cs
  obtain ⟨word, last, rfl, hlast, hback⟩ := exists_run_back isPoint inner
  have hne : word ≠ [] := by
    rintro rfl
    rw [List.nil_append] at hpoints
    exact hpoints fun c hc => (List.mem_append.1 hc).elim (hfirst c) (hlast c)
  rw [List.head?_append_of_ne_nil _ hne] at hfront
  refine ⟨first.length, word, last.length, by rw [← eq_points hfirst, ← eq_points hlast], hne,
    fun c hc => hchars c ?_, hfront, hback⟩
  exact List.mem_append_right _ (List.mem_append_left _ hc)

/-- The line is cut around the run of token characters at the column: `left` and `right` stand
outside of it, and it is `word` between points. -/
structure RunAt (line : List Char) (col : Nat) (left : List Char) (lead : Nat) (word : List Char)
    (trail : Nat) (right : List Char) : Prop where
  join : line = left ++ (points lead ++ (word ++ points trail)) ++ right
  isToken : IsToken word
  left_stops : left.getLast?.any isTokenChar = false
  right_stops : right.head?.any isTokenChar = false
  within : ∃ a b, points lead ++ (word ++ points trail) = a ++ b ∧ col = byteLength (left ++ a)

theorem cursorAt?_append (left right : List Char) :
    cursorAt? (left ++ right) (byteLength left) = some ⟨left.reverse, right⟩ := by
  have hmin : min (byteLength left) (byteLength (left ++ right)) = byteLength left := by
    rw [byteLength_append]
    omega
  rw [cursorAt?, hmin, cutAtByte_append]
  rfl

theorem Cursor.tokenRun_eq {left right a b : List Char}
    (hleft : left.getLast?.any isTokenChar = false)
    (hright : right.head?.any isTokenChar = false) (ha : ∀ c ∈ a, isTokenChar c = true)
    (hb : ∀ c ∈ b, isTokenChar c = true) :
    Cursor.tokenRun ⟨(left ++ a).reverse, b ++ right⟩ = ⟨left.reverse, a ++ b, right⟩ := by
  rw [← List.head?_reverse] at hleft
  have ha' : ∀ c ∈ a.reverse, isTokenChar c = true := fun c hc => ha c (List.mem_reverse.1 hc)
  unfold Cursor.tokenRun
  simp only [List.reverse_append, dropWhile_of_run ha' hleft, takeWhile_of_run ha' hleft,
    dropWhile_of_run hb hright, takeWhile_of_run hb hright, List.reverse_reverse]

theorem Span.trimPoints_eq {left right word : List Char} {lead trail : Nat} (h : IsToken word) :
    Span.trimPoints ⟨left, points lead ++ (word ++ points trail), right⟩ =
      ⟨points lead ++ left, word, points trail ++ right⟩ := by
  have hfirst : (word ++ points trail).head?.any isPoint = false := by
    rw [List.head?_append_of_ne_nil _ h.nonempty]
    exact h.first
  have hlast : word.reverse.head?.any isPoint = false := by
    rw [List.head?_reverse]
    exact h.last
  have hinner : (word ++ points trail).reverse = points trail ++ word.reverse := by
    rw [List.reverse_append, reverse_points]
  unfold Span.trimPoints
  simp only [dropWhile_of_run (fun _ => isPoint_of_mem_points) hfirst,
    takeWhile_of_run (fun _ => isPoint_of_mem_points) hfirst, hinner,
    dropWhile_of_run (fun _ => isPoint_of_mem_points) hlast,
    takeWhile_of_run (fun _ => isPoint_of_mem_points) hlast, reverse_points, List.reverse_reverse]

/-- Trimming leaves nothing exactly if there are points only. -/
theorem Span.text_trimPoints_eq_nil_iff {s : Span} :
    s.trimPoints.text = [] ↔ ∀ c ∈ s.text, isPoint c = true := by
  unfold Span.trimPoints
  simp only [List.reverse_eq_nil_iff, List.dropWhile_eq_nil_iff, List.mem_reverse]
  constructor
  · intro hinner c hc
    rw [← List.takeWhile_append_dropWhile (p := isPoint) (l := s.text), List.mem_append] at hc
    exact hc.elim List.mem_takeWhile_imp (hinner c)
  · intro hall c hc
    exact hall c ((List.dropWhile_sublist _).subset hc)

theorem IsToken.isTokenChar_of_mem {word : List Char} (h : IsToken word) {lead trail : Nat}
    {c : Char} (hc : c ∈ points lead ++ (word ++ points trail)) : isTokenChar c = true := by
  rcases List.mem_append.1 hc with hc | hc
  · exact isTokenChar_of_isPoint (isPoint_of_mem_points hc)
  · rcases List.mem_append.1 hc with hc | hc
    · exact h.chars c hc
    · exact isTokenChar_of_isPoint (isPoint_of_mem_points hc)

namespace RunAt

variable {line left word right : List Char} {col lead trail : Nat}

/-- The token at a column of the run. -/
theorem tokenAt?_eq (h : RunAt line col left lead word trail right) :
    tokenAt? line col = some ⟨points lead ++ left.reverse, word, points trail ++ right⟩ := by
  obtain ⟨a, b, hrun, hcol⟩ := h.within
  have hmem : ∀ c ∈ a ++ b, isTokenChar c = true := by
    intro c hc
    rw [← hrun] at hc
    exact h.isToken.isTokenChar_of_mem hc
  have hline : line = (left ++ a) ++ (b ++ right) := by
    rw [h.join, hrun]
    simp
  rw [tokenAt?, hline, hcol, cursorAt?_append, Option.bind_some,
    Cursor.tokenRun_eq h.left_stops h.right_stops (fun c hc => hmem c (List.mem_append_left b hc))
      (fun c hc => hmem c (List.mem_append_right a hc)), ← hrun, Span.trimPoints_eq h.isToken]
  exact if_neg h.isToken.nonempty

end RunAt

/-- Where there is a token, the line is cut around its run; a column past the end of the line stands
for the end. -/
theorem exists_runAt {line : List Char} {col : Nat} {s : Span} (h : tokenAt? line col = some s) :
    ∃ left lead word trail right,
      RunAt line (min col (byteLength line)) left lead word trail right ∧
      s = ⟨points lead ++ left.reverse, word, points trail ++ right⟩ := by
  have hmin : tokenAt? line (min col (byteLength line)) = some s := by
    rw [tokenAt?, cursorAt?, Nat.min_assoc, Nat.min_self]
    exact h
  obtain ⟨c, hc, htoken⟩ := Option.bind_eq_some_iff.1 h
  obtain ⟨⟨before, after⟩, hcut, rfl⟩ := Option.map_eq_some_iff.1 hc
  obtain ⟨hline, hcol⟩ := cutAtByte_spec hcut
  rw [← hcol] at hmin ⊢
  subst hline
  -- The run, from the column to either side, and the points at its ends.
  obtain ⟨left, a, rfl, ha, hleft⟩ := exists_run_back isTokenChar before
  obtain ⟨b, right, rfl, hb, hright⟩ := exists_run isTokenChar after
  have hmem : ∀ c ∈ a ++ b, isTokenChar c = true := fun c hc =>
    (List.mem_append.1 hc).elim (ha c) (hb c)
  have hpoints : ¬∀ c ∈ a ++ b, isPoint c = true := by
    intro hall
    simp only [Cursor.tokenRun_eq hleft hright ha hb] at htoken
    rw [if_pos (Span.text_trimPoints_eq_nil_iff.2 hall)] at htoken
    cases htoken
  obtain ⟨lead, word, trail, hinner, hword⟩ := exists_isToken hmem hpoints
  have hrun : RunAt ((left ++ a) ++ (b ++ right)) (byteLength (left ++ a)) left lead word trail
      right := by
    refine ⟨?_, hword, hleft, hright, a, b, hinner.symm, rfl⟩
    rw [← hinner]
    simp
  refine ⟨left, lead, word, trail, right, hrun, ?_⟩
  rw [hrun.tokenAt?_eq] at hmin
  exact (Option.some_inj.1 hmin).symm

/-! ### The token in a word -/

/-- Behind any number of points an identifier goes on. -/
def goesOn (right : List Char) : Bool :=
  (right.dropWhile isPoint).head?.any isIdentifier

/-- What belongs to the run that a line begins with, up to the points at its end. -/
theorem exists_more (rest : List Char) : ∃ more trail right, rest = more ++ points trail ++ right ∧
    (∀ c ∈ more, isTokenChar c = true) ∧ more.getLast?.any isPoint = false ∧
    right.head?.any isTokenChar = false := by
  obtain ⟨run, right, hrest, hrun, hright⟩ := exists_run isTokenChar rest
  obtain ⟨more, last, rfl, hlast, hback⟩ := exists_run_back isPoint run
  rw [eq_points hlast] at hrest
  exact ⟨more, last.length, right, hrest, fun c hc => hrun c (List.mem_append_left _ hc), hback,
    hright⟩

theorem goesOn_iff {more right : List Char} {trail : Nat} (hmore : ∀ c ∈ more, isTokenChar c = true)
    (hback : more.getLast?.any isPoint = false) (hright : right.head?.any isTokenChar = false) :
    goesOn (more ++ points trail ++ right) = true ↔ more ≠ [] := by
  unfold goesOn
  constructor
  · intro hgoes hnil
    have hpoint := any_head?_of_stops (fun _ => isTokenChar_of_isPoint) hright
    rw [hnil, List.nil_append, dropWhile_of_run (fun _ => isPoint_of_mem_points) hpoint,
      any_head?_of_stops (fun _ => isTokenChar_of_isIdentifier) hright] at hgoes
    cases hgoes
  · intro hne
    obtain ⟨first, rest, rfl, hfirst, hrest⟩ := exists_run isPoint more
    cases rest with
    | nil =>
        -- The last character of `more` is not a point.
        rw [List.append_nil] at hback hne
        rw [List.getLast?_eq_some_getLast hne] at hback
        have hlast : isPoint (first.getLast hne) = false := hback
        rw [hfirst _ (List.getLast_mem hne)] at hlast
        cases hlast
    | cons c rest =>
        have hc : isPoint c = false := hrest
        have hdrop : (first ++ c :: rest ++ points trail ++ right).dropWhile isPoint =
            c :: (rest ++ points trail ++ right) := by
          have hjoin : first ++ c :: rest ++ points trail ++ right =
              first ++ (c :: (rest ++ points trail ++ right)) := by simp
          rw [hjoin]
          exact dropWhile_of_run hfirst hc
        rw [hdrop]
        exact isIdentifier_of_isTokenChar (hmore c (by simp)) hc

/-- **The token in a word** that no token character stands before: it starts where the word starts,
and it is the word unless an identifier goes on behind it. -/
theorem IsToken.exists_tokenAt? {word : List Char} (h : IsToken word) {left x y : List Char}
    (right : List Char) (hleft : left.getLast?.any isTokenChar = false) (hword : word = x ++ y) :
    ∃ s, tokenAt? (left ++ (word ++ right)) (byteLength (left ++ x)) = some s ∧
      s.left = left.reverse ∧ (s.text = word ↔ goesOn right = false) := by
  obtain ⟨more, trail, rest, rfl, hmore, hback, hrest⟩ := exists_more right
  have hne : word ++ more ≠ [] := fun hnil => h.nonempty (List.append_eq_nil_iff.1 hnil).1
  have htoken : IsToken (word ++ more) := by
    refine ⟨hne, fun c hc => ?_, ?_, ?_⟩
    · rcases List.mem_append.1 hc with hc | hc
      · exact h.chars c hc
      · exact hmore c hc
    · rw [List.head?_append_of_ne_nil _ h.nonempty]
      exact h.first
    · cases more with
      | nil => simpa using h.last
      | cons c more =>
          rw [List.getLast?_append_of_ne_nil _ (List.cons_ne_nil c more)]
          exact hback
  have hrun : RunAt (left ++ (word ++ (more ++ points trail ++ rest))) (byteLength (left ++ x))
      left 0 (word ++ more) trail rest := by
    refine ⟨?_, htoken, hleft, hrest, x, y ++ (more ++ points trail), ?_, rfl⟩
    · simp [points]
    · rw [hword]
      simp [points]
  refine ⟨_, hrun.tokenAt?_eq, rfl, ?_⟩
  have hgoes : goesOn (more ++ points trail ++ rest) = true ↔ more ≠ [] :=
    goesOn_iff hmore hback hrest
  constructor
  · intro htext
    have hnil : more = [] := List.append_right_eq_self.1 htext
    by_contra hgo
    exact hgoes.1 (by simpa using hgo) hnil
  · intro hgo
    by_contra htext
    have hmore' : more ≠ [] := fun hnil => htext (by rw [hnil, List.append_nil])
    rw [hgoes.2 hmore'] at hgo
    cases hgo

/-! ### Tokens as whole identifiers -/

theorem isToken_of_tokenAt? {line : List Char} {col : Nat} {s : Span}
    (h : tokenAt? line col = some s) : IsToken s.text := by
  obtain ⟨left, lead, word, trail, right, hrun, rfl⟩ := exists_runAt h
  exact hrun.isToken

theorem startsIdentifier_reverse {left : List Char} :
    startsIdentifier left.reverse = true ↔ left.getLast?.any isTokenChar = false := by
  unfold startsIdentifier
  rw [List.head?_reverse, Bool.not_eq_true']

theorem isIdentifier_point : isIdentifier '.' = false := by
  decide +kernel

/-- What ends a line is no part of a token. -/
theorem isTokenChar_lineEnd : isTokenChar '\n' = false ∧ isTokenChar '\r' = false := by
  decide +kernel

/-- Behind the points that a token is followed by, no identifier goes on. -/
theorem endsIdentifier_points {right : List Char} (h : right.head?.any isTokenChar = false)
    (trail : Nat) : endsIdentifier (points trail ++ right) = true := by
  have hright := any_head?_of_stops (fun _ => isTokenChar_of_isIdentifier) h
  rcases trail with _ | _ | trail
  · cases right with
    | nil => rfl
    | cons c right =>
        have hc : isIdentifier c = false := hright
        have hpoint : c ≠ '.' := by
          intro heq
          rw [heq] at h
          cases h
        show endsIdentifier (c :: right) = true
        simp [endsIdentifier, hc]
  · show (!right.head?.any isIdentifier) = true
    rw [hright]
    rfl
  · show (!('.' :: (points trail ++ right)).head?.any isIdentifier) = true
    rw [List.head?_cons, Option.any_some, isIdentifier_point]
    rfl

theorem head?_any_of_endsLine {right rest : List Char} (h : right.head?.any isTokenChar = false)
    (hrest : EndsLine rest) : (right ++ rest).head?.any isTokenChar = false := by
  cases right with
  | cons c right => exact h
  | nil =>
      rw [List.nil_append]
      rcases hrest with rfl | hhead | hhead
      · rfl
      · rw [hhead, Option.any_some, isTokenChar_lineEnd.1]
      · rw [hhead, Option.any_some, isTokenChar_lineEnd.2]

/-- A token that no point stands before is a whole identifier of its line. -/
theorem exists_whole {line : List Char} {col : Nat} {s : Span} (hcol : col ≤ byteLength line)
    (hs : tokenAt? line col = some s) (hstarts : startsIdentifier s.left = true) :
    ∃ left, s.left = left.reverse ∧ line = left ++ (s.text ++ s.right) ∧ byteLength left ≤ col ∧
      ∀ rest, EndsLine rest → endsIdentifier (s.right ++ rest) = true := by
  obtain ⟨left, lead, word, trail, right, hrun, rfl⟩ := exists_runAt hs
  have hlead : lead = 0 := by
    by_contra hne
    obtain ⟨n, rfl⟩ := Nat.exists_eq_succ_of_ne_zero hne
    cases hstarts
  subst hlead
  obtain ⟨a, b, -, hcola⟩ := hrun.within
  refine ⟨left, rfl, ?_, ?_, fun rest hrest => ?_⟩
  · rw [hrun.join]
    simp [points]
  · rw [Nat.min_eq_left hcol, byteLength_append] at hcola
    omega
  · rw [List.append_assoc]
    exact endsIdentifier_points (head?_any_of_endsLine hrun.right_stops hrest) trail

end OverlayIndex
