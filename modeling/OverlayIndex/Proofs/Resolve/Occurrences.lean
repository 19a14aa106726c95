/-
The occurrences of a name in a stretch of a text.

The search goes from the front and passes over what it has matched.  All it finds are places where
the name stands as a whole identifier, one after the other with room between them.  It could miss
such a place only behind an earlier match that reaches into it, and then the character before the
place would be part of the name.
-/
import OverlayIndex.Proofs.Text.Places
import OverlayIndex.Resolve.References

namespace OverlayIndex

variable {name after left searched : List Char} {skip : Nat}

/-- Two characters tell whether an identifier goes on. -/
theorem endsIdentifier_take (cs after : List Char) :
    endsIdentifier (cs.take 2 ++ after) = endsIdentifier (cs ++ after) := by
  rcases cs with _ | ⟨c, _ | ⟨d, rest⟩⟩
  · rfl
  · rfl
  · by_cases hc : c = '.'
    · subst hc
      rfl
    · simp [endsIdentifier]

/-- At the name: it counts if it is a whole identifier, and the search goes on behind it. -/
theorem occurrenceOffsets_match {c : Char} {cs rest : List Char} (h : c :: cs = name ++ rest) :
    occurrenceOffsets name after 0 left (c :: cs) =
      (if startsIdentifier left && endsIdentifier (rest ++ after) then [byteLength left] else []) ++
        occurrenceOffsets name after (name.length - 1) (c :: left) cs := by
  have hprefix : name.isPrefixOf (c :: cs) = true := List.isPrefixOf_iff_prefix.2 ⟨rest, h.symm⟩
  rw [occurrenceOffsets, if_pos hprefix, h, List.drop_left, endsIdentifier_take]

theorem occurrenceOffsets_pass {c : Char} {cs : List Char} (h : ¬name <+: c :: cs) :
    occurrenceOffsets name after 0 left (c :: cs) = occurrenceOffsets name after 0 (c :: left) cs := by
  rw [occurrenceOffsets, if_neg fun hprefix => h (List.isPrefixOf_iff_prefix.1 hprefix)]

/-- What is found is the name as a whole identifier, behind what is passed over. -/
theorem mem_occurrenceOffsets {offset : Nat} :
    ∀ {searched left : List Char} {skip : Nat},
      offset ∈ occurrenceOffsets name after skip left searched →
      ∃ between rest, searched = between ++ (name ++ rest) ∧ skip ≤ between.length ∧
        offset = byteLength left + byteLength between ∧
        startsIdentifier (between.reverse ++ left) = true ∧
        endsIdentifier (rest ++ after) = true := by
  intro searched
  induction searched with
  | nil =>
      intro left skip h
      simp [occurrenceOffsets] at h
  | cons c cs ih =>
      -- What is found further on is found from here, one character more to the right.
      have hfurther : ∀ {left : List Char} {skip : Nat},
          offset ∈ occurrenceOffsets name after skip (c :: left) cs →
          ∃ between rest, c :: cs = between ++ (name ++ rest) ∧ skip + 1 ≤ between.length ∧
            offset = byteLength left + byteLength between ∧
            startsIdentifier (between.reverse ++ left) = true ∧
            endsIdentifier (rest ++ after) = true := by
        intro left skip h
        obtain ⟨between, rest, hcs, hskip, hoffset, hstarts, hends⟩ := ih h
        refine ⟨c :: between, rest, by rw [hcs]; rfl, by simp [hskip], ?_, ?_, hends⟩
        · rw [hoffset, byteLength_cons, byteLength_cons]
          omega
        · simpa using hstarts
      intro left skip h
      cases skip with
      | succ skip => exact hfurther h
      | zero =>
          by_cases hname : name <+: c :: cs
          · obtain ⟨rest, hrest⟩ := hname
            rw [occurrenceOffsets_match hrest.symm, List.mem_append] at h
            rcases h with h | h
            · by_cases hwhole : (startsIdentifier left && endsIdentifier (rest ++ after)) = true
              · rw [if_pos hwhole, List.mem_singleton] at h
                rw [Bool.and_eq_true] at hwhole
                exact ⟨[], rest, hrest.symm, Nat.zero_le _, by simpa using h, hwhole.1, hwhole.2⟩
              · rw [if_neg hwhole] at h
                cases h
            · obtain ⟨between, rest, hcs, -, hfound⟩ := hfurther h
              exact ⟨between, rest, hcs, Nat.zero_le _, hfound⟩
          · rw [occurrenceOffsets_pass hname] at h
            obtain ⟨between, rest, hcs, -, hfound⟩ := hfurther h
            exact ⟨between, rest, hcs, Nat.zero_le _, hfound⟩

/-- A name that begins with an identifier character does not stand whole right before itself. -/
theorem endsIdentifier_name (hname : name.head?.any isIdentifier = true) (rest : List Char) :
    endsIdentifier (name ++ rest) = false := by
  cases name with
  | nil => cases hname
  | cons c name =>
      have hc : isIdentifier c = true := hname
      have hpoint : c ≠ '.' := by
        intro heq
        rw [heq] at hc
        revert hc
        decide +kernel
      simp [endsIdentifier, hc]

/-- Between two occurrences there is something. -/
theorem occurrenceOffsets_apart (hname : name.head?.any isIdentifier = true) :
    ∀ (searched left : List Char) (skip : Nat),
      (occurrenceOffsets name after skip left searched).Pairwise fun a b =>
        a + byteLength name < b := by
  intro searched
  induction searched with
  | nil => intro left skip; simp [occurrenceOffsets]
  | cons c cs ih =>
      intro left skip
      cases skip with
      | succ skip => exact ih (c :: left) skip
      | zero =>
          by_cases hprefix : name <+: c :: cs
          · obtain ⟨rest, hrest⟩ := hprefix
            rw [occurrenceOffsets_match hrest.symm]
            by_cases hwhole : (startsIdentifier left && endsIdentifier (rest ++ after)) = true
            · rw [if_pos hwhole, List.singleton_append, List.pairwise_cons]
              refine ⟨fun offset hoffset => ?_, ih _ _⟩
              obtain ⟨between, rest', hcs, hskip, rfl, -, -⟩ := mem_occurrenceOffsets hoffset
              -- The next occurrence begins behind this one, and not right behind it.
              obtain ⟨gap, hgap⟩ : name <+: c :: between := by
                refine List.prefix_of_prefix_length_le ⟨rest, hrest⟩ ⟨name ++ rest', ?_⟩ ?_
                · rw [hcs]; rfl
                · simp; omega
              have hne : gap ≠ [] := by
                intro hnil
                rw [hnil, List.append_nil] at hgap
                rw [hcs, ← List.cons_append, ← hgap] at hrest
                rw [List.append_cancel_left hrest, List.append_assoc, endsIdentifier_name hname,
                  Bool.and_false] at hwhole
                cases hwhole
              have hpos := byteLength_pos hne
              have hlength := congrArg byteLength hgap
              simp only [byteLength_append, byteLength_cons] at hlength ⊢
              omega
            · rw [if_neg hwhole]
              exact ih _ _
          · rw [occurrenceOffsets_pass hprefix]
            exact ih _ _

/-- A whole identifier is found if the character before it is not part of the name. -/
theorem mem_occurrenceOffsets_of_whole {rest : List Char} (hname : name ≠ [])
    (hends : endsIdentifier (rest ++ after) = true) :
    ∀ {between left : List Char} {skip : Nat}, skip ≤ between.length →
      startsIdentifier (between.reverse ++ left) = true →
      (∀ c, (between.reverse ++ left).head? = some c → c ∉ name) →
      byteLength left + byteLength between ∈
        occurrenceOffsets name after skip left (between ++ (name ++ rest)) := by
  intro between
  induction between with
  | nil =>
      intro left skip hskip hstarts _
      obtain ⟨c, cs, hcs⟩ := List.exists_cons_of_ne_nil hname
      have hzero : skip = 0 := by simpa using hskip
      have hstarts' : startsIdentifier left = true := hstarts
      subst hzero
      have hmatch : c :: (cs ++ rest) = name ++ rest := by rw [hcs]; rfl
      rw [List.nil_append, ← hmatch, occurrenceOffsets_match hmatch, hstarts', hends]
      simp
  | cons c between ih =>
      intro left skip hskip hstarts hbefore
      have hleft : (c :: between).reverse ++ left = between.reverse ++ (c :: left) := by simp
      rw [hleft] at hstarts hbefore
      have hoffset : byteLength left + byteLength (c :: between) =
          byteLength (c :: left) + byteLength between := by
        rw [byteLength_cons, byteLength_cons]
        omega
      rw [hoffset]
      cases skip with
      | succ skip => exact ih (by simpa using hskip) hstarts hbefore
      | zero =>
          rw [List.cons_append]
          by_cases hprefix : name <+: c :: (between ++ (name ++ rest))
          · obtain ⟨rest', hrest'⟩ := hprefix
            rw [occurrenceOffsets_match hrest'.symm]
            refine List.mem_append_right _ (ih ?_ hstarts hbefore)
            -- A match that reached further would hold the character before the place.
            by_contra hlong
            have hinside : c :: between <+: name := by
              refine List.prefix_of_prefix_length_le ⟨name ++ rest, rfl⟩ ⟨rest', hrest'⟩ ?_
              simp only [List.length_cons]
              omega
            obtain ⟨x, xs, hx⟩ := List.exists_cons_of_ne_nil
              (List.reverse_ne_nil_iff.2 (List.cons_ne_nil c between))
            have hmem : x ∈ c :: between := List.mem_reverse.1 (by simp [hx])
            refine hbefore x ?_ (hinside.subset hmem)
            rw [← hleft, hx]
            rfl
          · rw [occurrenceOffsets_pass hprefix]
            exact ih (Nat.zero_le _) hstarts hbefore

/-! ### Occurrences as stretches of the text -/

theorem cutAtByte_append (before after : List Char) :
    cutAtByte (byteLength before) (before ++ after) = some (before, after) := by
  induction before with
  | nil =>
      rw [byteLength_nil, List.nil_append]
      cases after <;> rfl
  | cons c before ih =>
      obtain ⟨n, hn⟩ : ∃ n, c.utf8Size = n + 1 :=
        Nat.exists_eq_succ_of_ne_zero (Nat.pos_iff_ne_zero.1 (Char.utf8Size_pos c))
      have hsize : byteLength (c :: before) = n + byteLength before + 1 := by
        rw [byteLength_cons]
        omega
      have hrest : n + byteLength before + 1 - c.utf8Size = byteLength before := by omega
      rw [hsize, List.cons_append, cutAtByte, if_pos (by omega), hrest, ih]
      rfl

theorem cutBetween?_append (before searched after : List Char) :
    cutBetween? (before ++ (searched ++ after)) (byteLength before)
      (byteLength (before ++ searched)) = some (before, searched, after) := by
  have hlength : byteLength (before ++ searched) - byteLength before = byteLength searched := by
    rw [byteLength_append]
    omega
  rw [cutBetween?, if_pos (by rw [byteLength_append]; omega), cutAtByte_append, Option.bind_some,
    hlength, cutAtByte_append]
  rfl

/-- The occurrences in a scope whose ends cut the text. -/
theorem occurrences_of_cut {text before : List Char} {scope : Extent}
    (hjoin : before ++ (searched ++ after) = text)
    (hstart : (LineIndex.ofChars text).offset? scope.start = some (byteLength before))
    (hstop : (LineIndex.ofChars text).offset? scope.stop = some (byteLength (before ++ searched)))
    (hname : name ≠ []) :
    occurrences text scope name = (occurrenceOffsets name after 0 before.reverse searched).map
      fun offset => .onLine ((LineIndex.ofChars text).position offset).line
        ((LineIndex.ofChars text).position offset).col
        (((LineIndex.ofChars text).position offset).col + byteLength name) := by
  have hcut := cutBetween?_append before searched after
  rw [hjoin] at hcut
  unfold occurrences
  simp only [hstart, hstop, hcut, if_neg hname]

/-- The text in a stretch, by the line index. -/
def textAt? (text : List Char) (e : Extent) : Option (List Char) :=
  ((LineIndex.ofChars text).offset? e.start).bind fun start =>
    ((LineIndex.ofChars text).offset? e.stop).bind fun stop =>
      (cutBetween? text start stop).map (·.2.1)

/-- The stretch of `word`, which stands behind `before` in the text. -/
def stretch (before word : List Char) : Extent :=
  ⟨placeAfter before, placeAfter (before ++ word)⟩

/-- The word stays on its line and is not empty. -/
structure IsWordOfLine (word : List Char) : Prop where
  nonempty : word ≠ []
  noNewline : '\n' ∉ word
  noReturn : word.getLast? ≠ some '\r'

namespace IsWordOfLine

variable {before rest word : List Char}

theorem stretch_eq (h : IsWordOfLine word) (before : List Char) :
    stretch before word = .onLine (placeAfter before).line (placeAfter before).col
      ((placeAfter before).col + byteLength word) := by
  rw [stretch, placeAfter_append_of_not_mem before h.noNewline]
  rfl

/-- The text in the stretch of a word is the word. -/
theorem textAt?_stretch (h : IsWordOfLine word) (before rest : List Char) :
    textAt? (before ++ (word ++ rest)) (stretch before word) = some word := by
  obtain ⟨left, right, hcut⟩ := CutAt.exists_of_text before rest h.nonempty h.noNewline h.noReturn
  obtain ⟨after, hafter, hmoved⟩ := hcut.move
  have hstop := hmoved.isPlace
  rw [← hmoved.place] at hstop
  rw [textAt?, stretch, LineIndex.offset?_placeAfter hcut.join hcut.isPlace,
    LineIndex.offset?_placeAfter hmoved.join hstop, Option.bind_some, Option.bind_some,
    cutBetween?_append]
  rfl

end IsWordOfLine

/-- The text is cut at the ends of the scope. -/
structure Scoped (text : List Char) (scope : Extent) (before searched after : List Char) : Prop where
  join : before ++ (searched ++ after) = text
  start : placeAfter before = scope.start
  stop : placeAfter (before ++ searched) = scope.stop
  start_isPlace : IsPlace text scope.start
  stop_isPlace : IsPlace text scope.stop

namespace Scoped

variable {text before : List Char} {scope : Extent}

theorem occurrences_eq (h : Scoped text scope before searched after) (hname : IsWordOfLine name) :
    occurrences text scope name = (occurrenceOffsets name after 0 before.reverse searched).map
      fun offset => .onLine ((LineIndex.ofChars text).position offset).line
        ((LineIndex.ofChars text).position offset).col
        (((LineIndex.ofChars text).position offset).col + byteLength name) := by
  have hjoin : (before ++ searched) ++ after = text := by rw [List.append_assoc, h.join]
  refine occurrences_of_cut h.join ?_ ?_ hname.nonempty
  · rw [← h.start]
    exact LineIndex.offset?_placeAfter h.join (h.start ▸ h.start_isPlace)
  · rw [← h.stop]
    exact LineIndex.offset?_placeAfter hjoin (h.stop ▸ h.stop_isPlace)

/-- The place of what was found. -/
theorem onLine_position (h : Scoped text scope before searched after) (hname : IsWordOfLine name)
    {between rest : List Char} (hsearched : searched = between ++ rest) :
    Extent.onLine ((LineIndex.ofChars text).position (byteLength (before ++ between))).line
        ((LineIndex.ofChars text).position (byteLength (before ++ between))).col
        (((LineIndex.ofChars text).position (byteLength (before ++ between))).col + byteLength name) =
      stretch (before ++ between) name := by
  have hjoin : (before ++ between) ++ (rest ++ after) = text := by
    rw [← h.join, hsearched]
    simp
  have hposition := LineIndex.position_byteLength (before ++ between) (rest ++ after)
  rw [hjoin] at hposition
  rw [hposition, hname.stretch_eq]

/-- Occurrences are the name as a whole identifier in the scope. -/
theorem mem_occurrences (h : Scoped text scope before searched after) (hname : IsWordOfLine name)
    {e : Extent} (he : e ∈ occurrences text scope name) :
    ∃ between rest, searched = between ++ (name ++ rest) ∧ e = stretch (before ++ between) name ∧
      startsIdentifier (before ++ between).reverse = true ∧ endsIdentifier (rest ++ after) = true := by
  rw [h.occurrences_eq hname, List.mem_map] at he
  obtain ⟨offset, hoffset, rfl⟩ := he
  obtain ⟨between, rest, hsearched, -, rfl, hstarts, hends⟩ := mem_occurrenceOffsets hoffset
  refine ⟨between, rest, hsearched, ?_, ?_, hends⟩
  · rw [byteLength_reverse, ← byteLength_append, h.onLine_position hname hsearched]
  · rw [List.reverse_append]
    exact hstarts

/-- The name as a whole identifier in the scope is an occurrence, if the character before it is not
part of the name. -/
theorem stretch_mem_occurrences (h : Scoped text scope before searched after)
    (hname : IsWordOfLine name) {between rest : List Char}
    (hsearched : searched = between ++ (name ++ rest))
    (hstarts : startsIdentifier (before ++ between).reverse = true)
    (hends : endsIdentifier (rest ++ after) = true)
    (hbefore : ∀ c, (before ++ between).getLast? = some c → c ∉ name) :
    stretch (before ++ between) name ∈ occurrences text scope name := by
  rw [h.occurrences_eq hname, List.mem_map]
  refine ⟨byteLength (before ++ between), ?_, h.onLine_position hname hsearched⟩
  rw [List.reverse_append] at hstarts
  rw [byteLength_append, ← byteLength_reverse before, hsearched]
  refine mem_occurrenceOffsets_of_whole hname.nonempty hends (Nat.zero_le _) hstarts fun c hc => ?_
  apply hbefore c
  rw [← List.reverse_append, List.head?_reverse] at hc
  exact hc

/-- An occurrence lies in the scope. -/
theorem encloses_stretch (h : Scoped text scope before searched after) {between rest : List Char}
    (hsearched : searched = between ++ (name ++ rest)) :
    scope.encloses (stretch (before ++ between) name) = true := by
  refine Extent.encloses_iff.2 ⟨?_, ?_⟩
  · rw [← h.start]
    exact placeAfter_le_append before between
  · rw [← h.stop, hsearched]
    have hle := placeAfter_le_append (before ++ between ++ name) rest
    simpa [stretch] using hle

/-- Occurrences follow one another, and something stands between them. -/
theorem occurrences_apart (h : Scoped text scope before searched after) (hname : IsWordOfLine name)
    (hfirst : name.head?.any isIdentifier = true) :
    (occurrences text scope name).Pairwise fun a b => a.stop < b.start := by
  rw [h.occurrences_eq hname, List.pairwise_map]
  refine (occurrenceOffsets_apart hfirst searched before.reverse 0).imp_of_mem ?_
  intro a b ha hb hab
  obtain ⟨between, rest, hsearched, -, rfl, -⟩ := mem_occurrenceOffsets ha
  obtain ⟨between', rest', hsearched', -, rfl, -⟩ := mem_occurrenceOffsets hb
  rw [byteLength_reverse] at hab ⊢
  rw [← byteLength_append before between, ← byteLength_append before between',
    h.onLine_position hname hsearched, h.onLine_position hname hsearched']
  show placeAfter (before ++ between ++ name) < placeAfter (before ++ between')
  have hjoin : (before ++ between ++ name) ++ rest = (before ++ between') ++ (name ++ rest') := by
    simp only [List.append_assoc, ← hsearched, ← hsearched']
  exact placeAfter_lt_of_byteLength_lt hjoin (by simpa only [byteLength_append] using hab)

end Scoped

end OverlayIndex
