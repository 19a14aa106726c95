/-
All occurrences of a name in any scope.

A scope may be older than the text: its lines may be gone, its ends may have changed places or stand
inside a character.  If the offsets of its ends cut a stretch out of the text, the search finds in
the stretch every place where the name stands as a whole identifier; otherwise it finds nothing.
The offset of an end is that of the end brought back to the content of its line, as long as the sum
of its column and the start of the line fits.

The search goes from match to match, each behind the end of the one before, and so it does not even
look at a match that overlaps an earlier one.  It loses nothing by that: what stands before the
overlapping match is part of the earlier one, hence a token character if the name has no others, and
an identifier that a token character runs into is not whole.
-/
import OverlayIndex.Proofs.Resolve.Occurrences
import OverlayIndex.Proofs.Resolve.Tokens
import OverlayIndex.Proofs.Text.Conversions
import Mathlib.Data.List.Sort

namespace OverlayIndex

variable {text name before searched after left word : List Char} {scope : Extent}
  {start stop skip offset : Nat} {offset? : Position → Option Nat}

/-! ### Places and identifiers by their bytes -/

/-- The offset is between two characters, or at an end of the text. -/
def IsCharBoundary (text : List Char) (offset : Nat) : Prop :=
  ∃ before after, before ++ after = text ∧ byteLength before = offset

/-- The text has the name at this offset. -/
def standsAt (text name : List Char) (offset : Nat) : Bool :=
  (cutAtByte offset text).any fun x => name.isPrefixOf x.2

/-- No identifier runs into the stretch between the two offsets, and none goes on behind it. -/
def isWholeIdentifier (text : List Char) (start stop : Nat) : Bool :=
  (cutAtByte start text).any fun x => (cutAtByte stop text).any fun y =>
    startsIdentifier x.1.reverse && endsIdentifier y.2

/-- The offsets between `start` and `stop` at which the name stands as a whole identifier. -/
def wholeOffsets (text name : List Char) (start stop : Nat) : List Nat :=
  (List.range (stop + 1)).filter fun p =>
    start ≤ p && p + byteLength name ≤ stop && standsAt text name p &&
      isWholeIdentifier text p (p + byteLength name)

/-- The range between two offsets. -/
def byteRange (text : List Char) (start stop : Nat) : Extent :=
  ⟨(LineIndex.ofChars text).position start, (LineIndex.ofChars text).position stop⟩

theorem standsAt_iff :
    standsAt text name offset = true ↔
      ∃ before rest, before ++ (name ++ rest) = text ∧ byteLength before = offset := by
  rw [standsAt, Option.any_eq_true]
  constructor
  · rintro ⟨⟨before, after⟩, hcut, hprefix⟩
    obtain ⟨hjoin, hlength⟩ := cutAtByte_spec hcut
    obtain ⟨rest, hrest⟩ := List.isPrefixOf_iff_prefix.1 hprefix
    exact ⟨before, rest, by rw [hrest, hjoin], hlength⟩
  · rintro ⟨before, rest, rfl, rfl⟩
    exact ⟨_, cutAtByte_append before (name ++ rest), List.isPrefixOf_iff_prefix.2 ⟨rest, rfl⟩⟩

theorem isWholeIdentifier_append (before word after : List Char) :
    isWholeIdentifier (before ++ (word ++ after)) (byteLength before)
        (byteLength before + byteLength word) =
      (startsIdentifier before.reverse && endsIdentifier after) := by
  have hstop := cutAtByte_append (before ++ word) after
  rw [byteLength_append, List.append_assoc] at hstop
  rw [isWholeIdentifier, cutAtByte_append, hstop]
  rfl

/-! ### What the search visits -/

/-- The offsets of the matches of the name, from the front and each behind the end of the one
before.  `offset` bytes are passed already, and `skip` characters belong to the match before. -/
def matchOffsets (name : List Char) : Nat → Nat → List Char → List Nat
  | _, _, [] => []
  | skip + 1, offset, c :: rest => matchOffsets name skip (offset + c.utf8Size) rest
  | 0, offset, c :: rest =>
    if name.isPrefixOf (c :: rest) then
      offset :: matchOffsets name (name.length - 1) (offset + c.utf8Size) rest
    else matchOffsets name 0 (offset + c.utf8Size) rest

/-- A match that is visited is the name, behind what is passed over. -/
theorem mem_matchOffsets {p : Nat} :
    ∀ {searched : List Char} {offset skip : Nat}, p ∈ matchOffsets name skip offset searched →
      ∃ between rest, searched = between ++ (name ++ rest) ∧ skip ≤ between.length ∧
        p = offset + byteLength between := by
  intro searched
  induction searched with
  | nil => intro offset skip h; simp [matchOffsets] at h
  | cons c cs ih =>
      have hfurther : ∀ {offset skip : Nat}, p ∈ matchOffsets name skip (offset + c.utf8Size) cs →
          ∃ between rest, c :: cs = between ++ (name ++ rest) ∧ skip + 1 ≤ between.length ∧
            p = offset + byteLength between := by
        intro offset skip h
        obtain ⟨between, rest, hcs, hskip, hp⟩ := ih h
        refine ⟨c :: between, rest, by rw [hcs]; rfl, by simp [hskip], ?_⟩
        rw [hp, byteLength_cons]
        omega
      intro offset skip h
      cases skip with
      | succ skip => exact hfurther h
      | zero =>
          rw [matchOffsets] at h
          split at h
          · rename_i hprefix
            rcases List.mem_cons.1 h with rfl | h
            · obtain ⟨rest, hrest⟩ := List.isPrefixOf_iff_prefix.1 hprefix
              exact ⟨[], rest, hrest.symm, Nat.zero_le _, rfl⟩
            · obtain ⟨between, rest, hcs, -, hp⟩ := hfurther h
              exact ⟨between, rest, hcs, Nat.zero_le _, hp⟩
          · obtain ⟨between, rest, hcs, -, hp⟩ := hfurther h
            exact ⟨between, rest, hcs, Nat.zero_le _, hp⟩

/-- Matches that are visited do not overlap. -/
theorem matchOffsets_apart :
    ∀ (searched : List Char) (offset skip : Nat),
      (matchOffsets name skip offset searched).Pairwise fun a b => a + byteLength name ≤ b := by
  intro searched
  induction searched with
  | nil => intro offset skip; simp [matchOffsets]
  | cons c cs ih =>
      intro offset skip
      cases skip with
      | succ skip => exact ih _ _
      | zero =>
          rw [matchOffsets]
          split
          · rename_i hprefix
            obtain ⟨rest, hrest⟩ := List.isPrefixOf_iff_prefix.1 hprefix
            refine List.pairwise_cons.2 ⟨fun p hp => ?_, ih _ _⟩
            obtain ⟨between, rest', hcs, hskip, rfl⟩ := mem_matchOffsets hp
            -- The name that was matched is over before the next match begins.
            obtain ⟨gap, hgap⟩ : name <+: c :: between := by
              refine List.prefix_of_prefix_length_le ⟨rest, hrest⟩ ⟨name ++ rest', ?_⟩ ?_
              · rw [hcs]; rfl
              · simp only [List.length_cons]; omega
            have hlength := congrArg byteLength hgap
            rw [byteLength_append, byteLength_cons] at hlength
            omega
          · exact ih _ _

/-- **What is found are the matches that are whole identifiers.** -/
theorem occurrenceOffsets_eq_filter (name after : List Char) :
    ∀ (searched left : List Char) (skip : Nat),
      occurrenceOffsets name after skip left searched =
        (matchOffsets name skip (byteLength left) searched).filter fun p =>
          isWholeIdentifier (left.reverse ++ (searched ++ after)) p (p + byteLength name) := by
  intro searched
  induction searched with
  | nil => intro left skip; simp [occurrenceOffsets, matchOffsets]
  | cons c cs ih =>
      intro left skip
      have htext : left.reverse ++ (c :: cs ++ after) = (c :: left).reverse ++ (cs ++ after) := by
        simp
      have hsize : byteLength left + c.utf8Size = byteLength (c :: left) := by
        rw [byteLength_cons, Nat.add_comm]
      rw [htext]
      cases skip with
      | succ skip =>
          rw [matchOffsets, hsize]
          exact ih (c :: left) skip
      | zero =>
          by_cases hprefix : name <+: c :: cs
          · obtain ⟨rest, hrest⟩ := hprefix
            have hwhole : isWholeIdentifier ((c :: left).reverse ++ (cs ++ after))
                (byteLength left) (byteLength left + byteLength name) =
                (startsIdentifier left && endsIdentifier (rest ++ after)) := by
              have happend := isWholeIdentifier_append left.reverse name (rest ++ after)
              rwa [byteLength_reverse, List.reverse_reverse, ← List.append_assoc name, hrest,
                htext] at happend
            rw [occurrenceOffsets_match hrest.symm, matchOffsets,
              if_pos (List.isPrefixOf_iff_prefix.2 ⟨rest, hrest⟩), List.filter_cons, hwhole, hsize,
              ih (c :: left)]
            split <;> rfl
          · rw [occurrenceOffsets_pass hprefix, matchOffsets,
              if_neg fun h => hprefix (List.isPrefixOf_iff_prefix.1 h), hsize]
            exact ih (c :: left) 0

/-! ### Completeness -/

/-- The offsets of whole identifiers in a stretch that the text is cut into. -/
theorem mem_wholeOffsets (hjoin : before ++ (searched ++ after) = text) :
    offset ∈ wholeOffsets text name (byteLength before) (byteLength (before ++ searched)) ↔
      ∃ between rest, searched = between ++ (name ++ rest) ∧
        offset = byteLength before + byteLength between ∧
        startsIdentifier (between.reverse ++ before.reverse) = true ∧
        endsIdentifier (rest ++ after) = true := by
  simp only [wholeOffsets, List.mem_filter, List.mem_range, Bool.and_eq_true, decide_eq_true_eq]
  constructor
  · rintro ⟨-, ⟨⟨hstart, hstop⟩, hstands⟩, hwhole⟩
    obtain ⟨front, behind, hfront, rfl⟩ := standsAt_iff.1 hstands
    obtain ⟨between, rfl, hrest⟩ :=
      exists_between_of_byteLength_le (hjoin.trans hfront.symm) hstart
    have hcut : (before ++ between ++ name) ++ behind = (before ++ searched) ++ after := by
      rw [List.append_assoc _ name, hfront, List.append_assoc, hjoin]
    obtain ⟨rest, hsearched, rfl⟩ :=
      exists_between_of_byteLength_le hcut (by rw [byteLength_append _ name]; exact hstop)
    rw [← hfront, isWholeIdentifier_append, Bool.and_eq_true, List.reverse_append] at hwhole
    refine ⟨between, rest, ?_, byteLength_append before between, hwhole⟩
    simpa only [List.append_assoc, List.append_cancel_left_eq] using hsearched
  · rintro ⟨between, rest, rfl, rfl, hstarts, hends⟩
    have htext : (before ++ between) ++ (name ++ (rest ++ after)) = text := by
      rw [← hjoin]
      simp
    have hwhole := isWholeIdentifier_append (before ++ between) name (rest ++ after)
    rw [htext, List.reverse_append, hstarts, hends, byteLength_append] at hwhole
    refine ⟨?_, ⟨⟨by omega, ?_⟩, ?_⟩, hwhole⟩
    · simp only [byteLength_append]; omega
    · simp only [byteLength_append]; omega
    · exact standsAt_iff.2 ⟨_, _, htext, byteLength_append before between⟩

/-- The search finds every whole identifier, for the character before one is no token character and
so not part of an earlier match. -/
theorem mem_occurrenceOffsets_iff (hname : name ≠ []) (htoken : ∀ c ∈ name, isTokenChar c = true) :
    offset ∈ occurrenceOffsets name after 0 left searched ↔
      ∃ between rest, searched = between ++ (name ++ rest) ∧
        offset = byteLength left + byteLength between ∧
        startsIdentifier (between.reverse ++ left) = true ∧
        endsIdentifier (rest ++ after) = true := by
  constructor
  · intro h
    obtain ⟨between, rest, hsearched, -, hoffset, hwhole⟩ := mem_occurrenceOffsets h
    exact ⟨between, rest, hsearched, hoffset, hwhole⟩
  · rintro ⟨between, rest, rfl, rfl, hstarts, hends⟩
    refine mem_occurrenceOffsets_of_whole hname hends (Nat.zero_le _) hstarts fun c hc hmem => ?_
    rw [startsIdentifier, hc, Option.any_some, htoken c hmem] at hstarts
    cases hstarts

/-- **The search finds the whole identifiers, in order.** -/
theorem occurrenceOffsets_eq_wholeOffsets (hjoin : before ++ (searched ++ after) = text)
    (hname : name ≠ []) (htoken : ∀ c ∈ name, isTokenChar c = true) :
    occurrenceOffsets name after 0 before.reverse searched =
      wholeOffsets text name (byteLength before) (byteLength (before ++ searched)) := by
  have hincrease : (occurrenceOffsets name after 0 before.reverse searched).Pairwise (· < ·) := by
    rw [occurrenceOffsets_eq_filter]
    refine ((matchOffsets_apart searched _ 0).imp fun hab => ?_).filter _
    have hpos := byteLength_pos hname
    omega
  refine List.Pairwise.eq_of_mem_iff hincrease (List.pairwise_lt_range.filter _) fun p => ?_
  rw [mem_occurrenceOffsets_iff hname htoken, byteLength_reverse]
  exact (mem_wholeOffsets hjoin).symm

/-! ### The stretch of a scope -/

/-- The scope covers these bytes of the text, if `offset?` says where a position is: the lines of its
ends exist, and its ends are in order and between characters. -/
structure Covers (text : List Char) (offset? : Position → Option Nat) (scope : Extent)
    (start stop : Nat) : Prop where
  start_eq : offset? scope.start = some start
  stop_eq : offset? scope.stop = some stop
  le : start ≤ stop
  start_boundary : IsCharBoundary text start
  stop_boundary : IsCharBoundary text stop

/-- The text cut at the ends of what a scope covers. -/
theorem Covers.exists_cut (h : Covers text offset? scope start stop) :
    ∃ before searched after, before ++ (searched ++ after) = text ∧ byteLength before = start ∧
      byteLength (before ++ searched) = stop := by
  obtain ⟨before, rest, hjoin, rfl⟩ := h.start_boundary
  obtain ⟨front, after, hjoin', rfl⟩ := h.stop_boundary
  obtain ⟨searched, rfl, rfl⟩ :=
    exists_between_of_byteLength_le (hjoin.trans hjoin'.symm) h.le
  exact ⟨before, searched, after, hjoin, rfl, rfl⟩

/-- The range of a name that stays on its line. -/
theorem onLine_eq_byteRange (hname : '\n' ∉ name) (h : standsAt text name offset = true) :
    Extent.onLine ((LineIndex.ofChars text).position offset).line
        ((LineIndex.ofChars text).position offset).col
        (((LineIndex.ofChars text).position offset).col + byteLength name) =
      byteRange text offset (offset + byteLength name) := by
  obtain ⟨before, rest, rfl, rfl⟩ := standsAt_iff.1 h
  have hstop := LineIndex.position_byteLength (before ++ name) rest
  rw [List.append_assoc, byteLength_append, placeAfter_append_of_not_mem before hname] at hstop
  rw [byteRange, hstop, LineIndex.position_byteLength]
  rfl

/-- The occurrences in a scope that covers a stretch of the text. -/
theorem Covers.occurrences_eq
    (h : Covers text (LineIndex.ofChars text).offset? scope start stop) (hname : name ≠ [])
    (htoken : ∀ c ∈ name, isTokenChar c = true) :
    occurrences text scope name = (wholeOffsets text name start stop).map
      fun p => byteRange text p (p + byteLength name) := by
  have hline : '\n' ∉ name := fun hmem => by
    simpa [isTokenChar_lineEnd.1] using htoken '\n' hmem
  obtain ⟨before, searched, after, hjoin, hstart, hstop⟩ := h.exists_cut
  rw [occurrences_of_cut hjoin (hstart ▸ h.start_eq) (hstop ▸ h.stop_eq) hname,
    occurrenceOffsets_eq_wholeOffsets hjoin hname htoken, hstart, hstop]
  refine List.map_congr_left fun p hp => onLine_eq_byteRange hline ?_
  simp only [wholeOffsets, List.mem_filter, Bool.and_eq_true] at hp
  exact hp.2.1.2

/-- The sum of the largest column and the start of the second line wraps around to the end of the
first line, and the search does not come to the second. -/
example : occurrences "AMT\nAMT".toList ⟨⟨0, 0⟩, ⟨1, 4294967295⟩⟩ "AMT".toList =
    [.onLine 0 0 3] := by
  decide +kernel

end OverlayIndex
