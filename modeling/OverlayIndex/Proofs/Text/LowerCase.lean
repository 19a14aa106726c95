/-
Lower case of a stretch of a text.

All but one of the capitals have the same small letter everywhere.  A capital sigma has two forms, and
which one it takes depends on its nearest neighbours that are not passed over, wherever they stand.
So the lower case of a text holds the lower case of a stretch of it if every capital sigma of the
stretch has the same form in the text as by itself.

A stretch is steady if this is so in every text.  That a sigma at its edge has a neighbour in the text
can give it the final form or take the final form from it, and nothing else can change, so it is
enough to look at the sigmas that have nothing with a case on one side.
-/
import OverlayIndex.Text.LowerCase
import Mathlib.Data.List.Infix
import Mathlib.Data.List.TakeWhile

namespace OverlayIndex

variable {before after left left' after' cs : List Char}

/-! ### Neighbours -/

theorem reachesCased_of_all (h : cs.all isCaseIgnorable = true) : reachesCased cs = false := by
  rw [reachesCased, List.dropWhile_eq_nil_iff.2 (List.all_eq_true.1 h)]
  rfl

/-- What follows counts only behind characters that are all passed over. -/
theorem reachesCased_append (cs after : List Char) :
    reachesCased (cs ++ after) =
      if cs.all isCaseIgnorable then reachesCased after else reachesCased cs := by
  induction cs with
  | nil => rfl
  | cons c cs ih =>
      by_cases hc : isCaseIgnorable c = true
      · simpa [reachesCased, hc] using ih
      · simp [reachesCased, hc]

theorem reachesCased_append_of_reaches (h : reachesCased cs = true) (after : List Char) :
    reachesCased (cs ++ after) = true := by
  rw [reachesCased_append]
  split
  · rename_i hall
    rw [reachesCased_of_all hall] at h
    cases h
  · exact h

theorem reachesCased_append_capital (h : cs.all isCaseIgnorable = true) :
    reachesCased (cs ++ ['A']) = true := by
  rw [reachesCased_append, if_pos h]
  decide +kernel

/-! ### A stretch and what stands around it -/

/-- A capital sigma between the two has its final form; what stands to the left comes nearest
first. -/
def isFinalSigma (left right : List Char) : Bool :=
  reachesCased left && !reachesCased right

/-- The small form of a capital sigma. -/
def sigmaForm (final : Bool) : Char :=
  if final then 'ς' else 'σ'

/-- Lower case of a stretch between what stands to its left, nearest first, and what follows it. -/
def lowerWithin (after : List Char) : List Char → List Char → List Char
  | _, [] => []
  | left, c :: cs =>
    (if c = 'Σ' then [sigmaForm (isFinalSigma left (cs ++ after))] else lowerChar c) ++
      lowerWithin after (c :: left) cs

/-- The lower case of a text, from stretch to stretch. -/
theorem lowerFrom_append (after cs left : List Char) :
    lowerFrom left (cs ++ after) =
      lowerWithin after left cs ++ lowerFrom (cs.reverse ++ left) after := by
  induction cs generalizing left with
  | nil => rfl
  | cons c cs ih =>
      have hleft : (c :: cs).reverse ++ left = cs.reverse ++ (c :: left) := by simp
      rw [List.cons_append, lowerFrom, lowerWithin, ih, hleft]
      by_cases hc : c = 'Σ'
      · rw [if_pos hc, if_pos hc]
        rfl
      · rw [if_neg hc, if_neg hc, List.append_assoc]

theorem lowerCase_eq (cs : List Char) : lowerCase cs = lowerWithin [] [] cs := by
  have happend := lowerFrom_append [] cs []
  rwa [List.append_nil, lowerFrom, List.append_nil] at happend

theorem lowerWithin_append (after more cs left : List Char) :
    lowerWithin after left (cs ++ more) =
      lowerWithin (more ++ after) left cs ++ lowerWithin after (cs.reverse ++ left) more := by
  induction cs generalizing left with
  | nil => rfl
  | cons c cs ih =>
      have hleft : (c :: cs).reverse ++ left = cs.reverse ++ (c :: left) := by simp
      rw [List.cons_append, lowerWithin, lowerWithin, ih, hleft]
      simp only [List.append_assoc]

/-- Lower case depends on the forms of the sigmas only. -/
theorem lowerWithin_congr :
    ∀ {cs left left' : List Char},
      (∀ l r, cs = l ++ 'Σ' :: r → isFinalSigma (l.reverse ++ left) (r ++ after) =
        isFinalSigma (l.reverse ++ left') (r ++ after')) →
      lowerWithin after left cs = lowerWithin after' left' cs := by
  intro cs
  induction cs with
  | nil => intros; rfl
  | cons c cs ih =>
      intro left left' h
      have hrest : lowerWithin after (c :: left) cs = lowerWithin after' (c :: left') cs :=
        ih fun l r hcs => by simpa using h (c :: l) r (by rw [hcs]; rfl)
      rw [lowerWithin, lowerWithin, hrest]
      by_cases hc : c = 'Σ'
      · have hform : isFinalSigma left (cs ++ after) = isFinalSigma left' (cs ++ after') :=
          h [] cs (by rw [hc]; rfl)
        rw [hform]
      · rw [if_neg hc, if_neg hc]

/-- Every capital sigma of the stretch has the same form in the text as by itself. -/
def KeepsSigmas (before cs after : List Char) : Prop :=
  ∀ l r, cs = l ++ 'Σ' :: r →
    isFinalSigma (l.reverse ++ before.reverse) (r ++ after) = isFinalSigma l.reverse r

/-- **Where the sigmas keep their form, lower case keeps the stretch.** -/
theorem KeepsSigmas.infix_lowerCase (h : KeepsSigmas before cs after) :
    lowerCase cs <:+: lowerCase (before ++ (cs ++ after)) := by
  have hkeep : lowerWithin after before.reverse cs = lowerWithin [] [] cs :=
    lowerWithin_congr fun l r hcs => by simpa using h l r hcs
  refine ⟨lowerWithin (cs ++ after) [] before, lowerFrom (cs.reverse ++ before.reverse) after, ?_⟩
  rw [lowerCase_eq cs, lowerCase, lowerFrom_append, List.append_nil, lowerFrom_append, hkeep,
    List.append_assoc]

/-! ### Steady stretches -/

/-- No text around the stretch changes the form of a capital sigma in it: one that has only characters
before it that are passed over has one with a case behind it, and one that has only such characters
behind it has none with a case before it. -/
def Steady (cs : List Char) : Prop :=
  ∀ l r, cs = l ++ 'Σ' :: r →
    (l.all isCaseIgnorable = true → reachesCased r = true) ∧
      (r.all isCaseIgnorable = true → reachesCased l.reverse = false)

/-- The same, sigma by sigma. -/
theorem steady_iff_forall_lt :
    (∀ n < cs.length, cs[n]? = some 'Σ' →
      ((cs.take n).all isCaseIgnorable = true → reachesCased (cs.drop (n + 1)) = true) ∧
        ((cs.drop (n + 1)).all isCaseIgnorable = true →
          reachesCased (cs.take n).reverse = false)) ↔ Steady cs := by
  constructor
  · intro h l r hcs
    have hsigma := h l.length (by simp [hcs]) (by simp [hcs])
    simpa [hcs] using hsigma
  · intro h n hn hsigma
    refine h (cs.take n) (cs.drop (n + 1)) ?_
    obtain ⟨hlt, hget⟩ := List.getElem?_eq_some_iff.1 hsigma
    rw [← hget, ← List.drop_eq_getElem_cons hlt, List.take_append_drop]

instance (cs : List Char) : Decidable (Steady cs) :=
  decidable_of_iff _ steady_iff_forall_lt

theorem Steady.keepsSigmas (h : Steady cs) (before after : List Char) :
    KeepsSigmas before cs after := by
  intro l r hcs
  obtain ⟨hleft, hright⟩ := h l r hcs
  rw [isFinalSigma, isFinalSigma, reachesCased_append, reachesCased_append, List.all_reverse]
  by_cases hl : l.all isCaseIgnorable = true
  · -- Nothing with a case before the sigma, so it is not final, and there is one behind it.
    have hr : r.all isCaseIgnorable = false := by
      by_contra hall
      rw [reachesCased_of_all (by simpa using hall)] at hleft
      cases hleft hl
    simp [hl, hr, hleft hl]
  · by_cases hr : r.all isCaseIgnorable = true
    · simp [hl, hr, hright hr]
    · simp [hl, hr]

/-- A small sigma of one form that is one of that form elsewhere too. -/
theorem count_sigmaForm_le {final form form' : Bool} (h : form' = final → form = final) :
    [sigmaForm form'].count (sigmaForm final) ≤ [sigmaForm form].count (sigmaForm final) := by
  revert h
  cases final <;> cases form <;> cases form' <;> decide

/-- Where fewer capital sigmas have a form, there are no more small sigmas of that form. -/
theorem count_lowerWithin_le (final : Bool) :
    ∀ {cs left left' : List Char},
      (∀ l r, cs = l ++ 'Σ' :: r → isFinalSigma (l.reverse ++ left') (r ++ after') = final →
        isFinalSigma (l.reverse ++ left) (r ++ after) = final) →
      (lowerWithin after' left' cs).count (sigmaForm final) ≤
        (lowerWithin after left cs).count (sigmaForm final) := by
  intro cs
  induction cs with
  | nil => intros; exact Nat.le_refl _
  | cons c cs ih =>
      intro left left' h
      have hrest := @ih (c :: left) (c :: left') fun l r hcs => by
        simpa using h (c :: l) r (by rw [hcs]; rfl)
      rw [lowerWithin, lowerWithin, List.count_append, List.count_append]
      refine Nat.add_le_add ?_ hrest
      by_cases hc : c = 'Σ'
      · rw [if_pos hc, if_pos hc]
        exact count_sigmaForm_le (h [] cs (by rw [hc]; rfl))
      · rw [if_neg hc, if_neg hc]

/-- If one of them has lost the form, there are fewer. -/
theorem count_lowerWithin_lt {final : Bool} {l r : List Char}
    (h : ∀ l r, cs = l ++ 'Σ' :: r → isFinalSigma (l.reverse ++ left') (r ++ after') = final →
      isFinalSigma (l.reverse ++ left) (r ++ after) = final)
    (hcs : cs = l ++ 'Σ' :: r) (hform : isFinalSigma (l.reverse ++ left) (r ++ after) = final)
    (hlost : isFinalSigma (l.reverse ++ left') (r ++ after') ≠ final) :
    (lowerWithin after' left' cs).count (sigmaForm final) <
      (lowerWithin after left cs).count (sigmaForm final) := by
  have hone : [sigmaForm (isFinalSigma (l.reverse ++ left') (r ++ after'))].count
      (sigmaForm final) < [sigmaForm (isFinalSigma (l.reverse ++ left) (r ++ after))].count
      (sigmaForm final) := by
    rw [hform, (Bool.eq_not_of_ne hlost)]
    cases final <;> decide
  have hfront : (lowerWithin ('Σ' :: r ++ after') left' l).count (sigmaForm final) ≤
      (lowerWithin ('Σ' :: r ++ after) left l).count (sigmaForm final) :=
    count_lowerWithin_le final fun l' r' hl => by
      have hsplit := h l' (r' ++ 'Σ' :: r) (by rw [hcs, hl]; simp)
      simpa using hsplit
  have hback : (lowerWithin after' ('Σ' :: (l.reverse ++ left')) r).count (sigmaForm final) ≤
      (lowerWithin after ('Σ' :: (l.reverse ++ left)) r).count (sigmaForm final) :=
    count_lowerWithin_le final fun l' r' hr => by
      have hsplit := h (l ++ 'Σ' :: l') r' (by rw [hcs, hr]; simp)
      simpa using hsplit
  rw [hcs, lowerWithin_append, lowerWithin_append, lowerWithin, lowerWithin, if_pos rfl, if_pos rfl]
  simp only [List.count_append]
  omega

/-- Behind a capital, a sigma may become final that was not. -/
theorem not_infix_behind_capital {l r : List Char} (hcs : cs = l ++ 'Σ' :: r)
    (hl : l.all isCaseIgnorable = true) (hr : reachesCased r = false) :
    ¬ lowerCase cs <:+: lowerCase ('A' :: cs) := by
  intro hinfix
  have hlower : lowerCase ('A' :: cs) = 'a' :: lowerWithin [] ['A'] cs := by
    rw [lowerCase_eq, lowerWithin, if_neg (by decide)]
    rfl
  have hle := hinfix.sublist.count_le 'σ'
  rw [lowerCase_eq cs, hlower, List.count_cons_of_ne (by decide)] at hle
  have hlt : (lowerWithin [] ['A'] cs).count (sigmaForm false) <
      (lowerWithin [] [] cs).count (sigmaForm false) := by
    refine count_lowerWithin_lt (fun l r _ hform => ?_) hcs ?_ ?_
    · by_contra hfinal
      simp only [List.append_nil, isFinalSigma, Bool.not_eq_false, Bool.and_eq_true] at hfinal
      simp [isFinalSigma, reachesCased_append_of_reaches hfinal.1, hfinal.2] at hform
    · have hnone : reachesCased l.reverse = false := reachesCased_of_all (by rwa [List.all_reverse])
      simp [isFinalSigma, hnone]
    · have hreach : reachesCased (l.reverse ++ ['A']) = true :=
        reachesCased_append_capital (by rwa [List.all_reverse])
      simp [isFinalSigma, hreach, hr]
  exact absurd hle (Nat.not_le_of_gt hlt)

/-- Before a capital, a sigma that was final no longer is. -/
theorem not_infix_before_capital {l r : List Char} (hcs : cs = l ++ 'Σ' :: r)
    (hr : r.all isCaseIgnorable = true) (hl : reachesCased l.reverse = true) :
    ¬ lowerCase cs <:+: lowerCase (cs ++ ['A']) := by
  intro hinfix
  have hlower : lowerCase (cs ++ ['A']) = lowerWithin ['A'] [] cs ++ ['a'] := by
    rw [lowerCase, lowerFrom_append, lowerFrom, if_neg (by decide)]
    rfl
  have hle := hinfix.sublist.count_le 'ς'
  rw [lowerCase_eq cs, hlower, List.count_append] at hle
  have hlt : (lowerWithin ['A'] [] cs).count (sigmaForm true) <
      (lowerWithin [] [] cs).count (sigmaForm true) := by
    refine count_lowerWithin_lt (fun l r _ hform => ?_) hcs ?_ ?_
    · simp only [List.append_nil, isFinalSigma, Bool.and_eq_true, Bool.not_eq_true'] at hform ⊢
      refine ⟨hform.1, ?_⟩
      by_contra hreach
      rw [reachesCased_append_of_reaches (by simpa using hreach)] at hform
      cases hform.2
    · simp [isFinalSigma, hl, reachesCased_of_all hr]
    · simp [isFinalSigma, reachesCased_append_capital hr]
  exact absurd hle (Nat.not_le_of_gt hlt)

/-- **A stretch is steady exactly if the lower case of every text around it holds its own.** -/
theorem steady_iff :
    Steady cs ↔ ∀ before after, lowerCase cs <:+: lowerCase (before ++ (cs ++ after)) := by
  constructor
  · exact fun h before after => (h.keepsSigmas before after).infix_lowerCase
  · intro h l r hcs
    refine ⟨fun hl => ?_, fun hr => ?_⟩
    · by_contra hreach
      refine not_infix_behind_capital hcs hl (by simpa using hreach) ?_
      simpa using h ['A'] []
    · by_contra hreach
      exact not_infix_before_capital hcs hr (by simpa using hreach) (h [] ['A'])

end OverlayIndex
