/-
What can happen to a draft.

However frames come to be closed, by a terminator, by becoming full, with their line or with
the text, it is one frame at a time from the inside, and all at the same position.  `ClosesTo`
says that and nothing about which frames these are, which is all that most facts about drafts
need.  Where it matters why a frame closes, `ClosesBy` gives the reason each time.  The only
other thing that happens is that a construct is added: a closed one is hung below the innermost
frame, an open one becomes the innermost frame.
-/
import OverlayIndex.Parse.Draft

namespace OverlayIndex

namespace Draft

/-- Hangs a row below the innermost frame, or at file level if there is none. -/
def hang (d : Draft) (done : Forest Symbol) : Draft :=
  match d.frames with
  | [] => ⟨[], d.roots ++ done⟩
  | f :: frames => ⟨f.add done :: frames, d.roots⟩

/-- Closes the innermost frame, if there is one. -/
def pop (d : Draft) (stop : Position) : Draft :=
  match d.frames with
  | [] => d
  | f :: frames => hang ⟨frames, d.roots⟩ (f.close stop)

/-- Some of the frames of the first draft, from the inside, are closed at `stop` in the second. -/
inductive ClosesTo (stop : Position) : Draft → Draft → Prop
  | refl (d : Draft) : ClosesTo stop d d
  | step {d d' : Draft} (h : ClosesTo stop (d.pop stop) d') : ClosesTo stop d d'

/-- The same with a reason for every frame that closes: `R` holds of the frames that are open just
before, the closing one in front. -/
inductive ClosesBy (R : List Frame → Prop) (stop : Position) : Draft → Draft → Prop
  | refl (d : Draft) : ClosesBy R stop d d
  | step {d d' : Draft} (hR : R d.frames) (h : ClosesBy R stop (d.pop stop) d') :
      ClosesBy R stop d d'

/-- The rules of open constructs, innermost first. -/
def rules (frames : List Frame) : List Rule :=
  frames.map (·.rule)

@[simp] theorem rules_nil : rules [] = [] := rfl

@[simp] theorem rules_cons (f : Frame) (frames : List Frame) :
    rules (f :: frames) = f.rule :: rules frames := rfl

theorem hang_nil (d : Draft) : d.hang .nil = d := by
  obtain ⟨frames, roots⟩ := d
  cases frames with
  | nil => simp [hang]
  | cons f frames => simp [hang, Frame.add]

@[simp] theorem rules_hang (d : Draft) (done : Forest Symbol) :
    rules (d.hang done).frames = rules d.frames := by
  obtain ⟨frames, roots⟩ := d
  cases frames <;> rfl

/-- What closing one frame keeps, closing any number of them keeps. -/
theorem ClosesTo.preserves {stop : Position} {Q : Draft → Prop}
    (hpop : ∀ d, Q d → Q (d.pop stop)) {d d' : Draft} (h : ClosesTo stop d d') (hd : Q d) :
    Q d' := by
  induction h with
  | refl => exact hd
  | step _ ih => exact ih (hpop _ hd)

namespace ClosesBy

variable {R R' : List Frame → Prop} {stop : Position} {d d' : Draft}

/-- What closing one frame for the reason keeps, closing any number of them keeps. -/
theorem preserves {Q : Draft → Prop} (hpop : ∀ d, R d.frames → Q d → Q (d.pop stop))
    (h : ClosesBy R stop d d') (hd : Q d) : Q d' := by
  induction h with
  | refl => exact hd
  | step hR _ ih => exact ih (hpop _ hR hd)

theorem mono (hR : ∀ frames, R frames → R' frames) (h : ClosesBy R stop d d') :
    ClosesBy R' stop d d' := by
  induction h with
  | refl => exact .refl _
  | step hframes _ ih => exact .step (hR _ hframes) ih

theorem closesTo (h : ClosesBy R stop d d') : ClosesTo stop d d' := by
  induction h with
  | refl => exact .refl _
  | step _ _ ih => exact .step ih

end ClosesBy

/-- The innermost frame satisfies `p`. -/
def Innermost (p : Frame → Bool) (frames : List Frame) : Prop :=
  ∃ f rest, frames = f :: rest ∧ p f = true

/-- The frames are those of the given rules, and fewer than `n` are gone. -/
def FewerGone (all : List Rule) (n : Nat) (frames : List Frame) : Prop :=
  ∃ j < n, rules frames = all.drop j

theorem settle_closesBy (p : Frame → Bool) (stop : Position) (roots : Forest Symbol) :
    ∀ (frames : List Frame) (done : Forest Symbol),
      ClosesBy (Innermost p) stop (hang ⟨frames, roots⟩ done) (settle p stop roots frames done) := by
  intro frames
  induction frames with
  | nil => intro done; exact .refl _
  | cons f frames ih =>
      intro done
      rw [settle]
      by_cases hp : p (f.add done) = true
      · rw [if_pos hp]
        exact .step ⟨f.add done, frames, rfl, hp⟩ (ih ((f.add done).close stop))
      · rw [if_neg hp]
        exact .refl _

theorem closeFrames_closesBy (stop : Position) (roots : Forest Symbol) :
    ∀ (n : Nat) (frames : List Frame) (done : Forest Symbol),
      ClosesBy (fun fs => Innermost Frame.isFull fs ∨ FewerGone (rules frames) n fs) stop
        (hang ⟨frames, roots⟩ done) (closeFrames stop roots n frames done) := by
  intro n
  induction n with
  | zero =>
      intro frames done
      exact (settle_closesBy Frame.isFull stop roots frames done).mono fun _ h => Or.inl h
  | succ n ih =>
      intro frames done
      cases frames with
      | nil => exact .refl _
      | cons f frames =>
          refine .step (Or.inr ⟨0, Nat.succ_pos n, rfl⟩) ?_
          refine (ih frames ((f.add done).close stop)).mono ?_
          rintro fs (hfull | ⟨j, hj, hrules⟩)
          · exact Or.inl hfull
          · exact Or.inr ⟨j + 1, Nat.succ_lt_succ hj, hrules⟩

/-- A terminator closes as many frames as it says, and then those that have become full. -/
theorem close_closesBy (d : Draft) (n : Nat) (stop : Position) :
    ClosesBy (fun fs => Innermost Frame.isFull fs ∨ FewerGone (rules d.frames) n fs) stop d
      (d.close n stop) := by
  have h := closeFrames_closesBy stop d.roots n d.frames .nil
  rwa [hang_nil] at h

theorem breakLine_closesBy (d : Draft) (stop : Position) :
    ClosesBy (Innermost Frame.isImplicit) stop d (d.breakLine stop) := by
  have h := settle_closesBy Frame.isImplicit stop d.roots d.frames .nil
  rwa [hang_nil] at h

/-- What is full ends with its line. -/
theorem isImplicit_of_isFull {f : Frame} (h : f.isFull = true) : f.isImplicit = true := by
  unfold Frame.isFull at h
  unfold Frame.isImplicit
  cases hr : f.rule <;> rw [hr] at h <;> first | rfl | cases h

/-- Closing what is full does not keep anything from ending with the line. -/
theorem breakLine_settle (stop : Position) (roots : Forest Symbol) :
    ∀ (frames : List Frame) (done : Forest Symbol),
      (settle Frame.isFull stop roots frames done).breakLine stop =
        settle Frame.isImplicit stop roots frames done := by
  intro frames
  induction frames with
  | nil => intro done; simp [settle, breakLine]
  | cons f frames ih =>
      intro done
      rw [settle, settle]
      by_cases hfull : (f.add done).isFull = true
      · rw [if_pos hfull, if_pos (isImplicit_of_isFull hfull), ih]
      · have hsame : (f.add done).add .nil = f.add done := by simp [Frame.add]
        rw [if_neg hfull, breakLine, settle, hsame]

/-- **Closing constructs that have become full, each time one ends with the line, makes no
difference.** -/
theorem breakLine_close {d : Draft} {f : Frame} {frames : List Frame} {stop : Position}
    (hframes : d.frames = f :: frames) (himplicit : f.isImplicit = true) :
    (d.close 1 stop).breakLine stop = d.breakLine stop := by
  have hsame : f.add .nil = f := by simp [Frame.add]
  rw [close, hframes, closeFrames, closeFrames, breakLine_settle, breakLine, hframes, settle, hsame,
    if_pos himplicit]

theorem close_closesTo (d : Draft) (n : Nat) (stop : Position) :
    ClosesTo stop d (d.close n stop) :=
  (d.close_closesBy n stop).closesTo

theorem breakLine_closesTo (d : Draft) (stop : Position) :
    ClosesTo stop d (d.breakLine stop) :=
  (d.breakLine_closesBy stop).closesTo

theorem frames_settle_all (stop : Position) (roots : Forest Symbol) :
    ∀ (frames : List Frame) (done : Forest Symbol),
      (settle (fun _ => true) stop roots frames done).frames = [] := by
  intro frames
  induction frames with
  | nil => intro done; rfl
  | cons f frames ih => intro done; exact ih _

/-- Finishing closes all frames. -/
theorem finish_closesTo (d : Draft) (stop : Position) :
    ClosesTo stop d ⟨[], d.finish stop⟩ := by
  have h := (settle_closesBy (fun _ => true) stop d.roots d.frames .nil).closesTo
  rw [hang_nil] at h
  have hnil := frames_settle_all stop d.roots d.frames .nil
  rw [finish]
  rwa [← hnil]

/-- Adding a construct opens a frame for it, or hangs it below the innermost frame and then
closes frames that are full. -/
theorem add_cases_by (d : Draft) (r : Rule) (s : Symbol) :
    (r.isLeaf = true ∧
        ClosesBy (Innermost Frame.isFull) s.extent.stop (d.hang (.single s)) (d.add r s)) ∨
      (r.isLeaf = false ∧ d.add r s = ⟨⟨r, s, .nil⟩ :: d.frames, d.roots⟩) := by
  rw [add]
  by_cases hleaf : r.isLeaf = true
  · rw [if_pos hleaf]
    exact Or.inl ⟨hleaf, settle_closesBy Frame.isFull s.extent.stop d.roots d.frames (.single s)⟩
  · rw [if_neg hleaf]
    exact Or.inr ⟨by simpa using hleaf, rfl⟩

theorem add_cases (d : Draft) (r : Rule) (s : Symbol) :
    (r.isLeaf = true ∧ ClosesTo s.extent.stop (d.hang (.single s)) (d.add r s)) ∨
      (r.isLeaf = false ∧ d.add r s = ⟨⟨r, s, .nil⟩ :: d.frames, d.roots⟩) := by
  rcases d.add_cases_by r s with ⟨hleaf, h⟩ | h
  · exact Or.inl ⟨hleaf, h.closesTo⟩
  · exact Or.inr h

end Draft

end OverlayIndex
