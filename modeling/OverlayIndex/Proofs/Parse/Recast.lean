/-
Drafts under a change of their symbols.

The reader never looks at a symbol again once it has made it, but to let it reach further and to ask
where it ends.  So a change of symbols that goes well with those two passes through everything that
the reader does with a draft, and what happens next on a line does not depend on the symbols at all.
Roots that stand in front of all the others pass through as well.
-/
import OverlayIndex.Parse.Document
import OverlayIndex.Proofs.Numbering

namespace OverlayIndex

/-- A change of symbols that goes with a change of the positions where they end. -/
structure Recasting where
  symbol : Symbol → Symbol
  position : Position → Position
  extendTo : ∀ s p, symbol (s.extendTo p) = (symbol s).extendTo (position p)
  stop : ∀ s, (symbol s).extent.stop = position s.extent.stop

/-- The change that changes nothing. -/
def Recasting.refl : Recasting :=
  ⟨id, id, fun _ _ => rfl, fun _ => rfl⟩

variable (R : Recasting)

/-- The frame with its symbols changed. -/
def Frame.recast (f : Frame) : Frame :=
  ⟨f.rule, R.symbol f.symbol, f.below.map R.symbol⟩

namespace Frame

theorem recast_add (f : Frame) (done : Forest Symbol) :
    (f.recast R).add (done.map R.symbol) = (f.add done).recast R := by
  simp only [add, recast, Forest.map_append]

theorem recast_close (f : Frame) (stop : Position) :
    (f.recast R).close (R.position stop) = (f.close stop).map R.symbol := by
  simp only [close, recast, Forest.map, R.extendTo]

theorem isFull_recast (f : Frame) : (f.recast R).isFull = f.isFull := by
  simp only [isFull, recast, Forest.width_map]

end Frame

namespace Draft

variable (front : Forest Symbol)

/-- The draft with its symbols changed and other roots in front. -/
def recast (d : Draft) : Draft :=
  ⟨d.frames.map (Frame.recast R), front ++ d.roots.map R.symbol⟩

theorem settle_recast {p : Frame → Bool} (hp : ∀ f : Frame, p (f.recast R) = p f) (stop : Position)
    (roots : Forest Symbol) :
    ∀ (frames : List Frame) (done : Forest Symbol),
      settle p (R.position stop) (front ++ roots.map R.symbol) (frames.map (Frame.recast R))
        (done.map R.symbol) = (settle p stop roots frames done).recast R front := by
  intro frames
  induction frames with
  | nil =>
      intro done
      simp only [settle, recast, List.map_nil, Forest.map_append, Forest.append_assoc]
  | cons f frames ih =>
      intro done
      rw [List.map_cons, settle, settle, Frame.recast_add, hp]
      by_cases h : p (f.add done) = true
      · rw [if_pos h, if_pos h, Frame.recast_close]
        exact ih _
      · rw [if_neg h, if_neg h]
        rfl

theorem closeFrames_recast (stop : Position) (roots : Forest Symbol) :
    ∀ (n : Nat) (frames : List Frame) (done : Forest Symbol),
      closeFrames (R.position stop) (front ++ roots.map R.symbol) n
        (frames.map (Frame.recast R)) (done.map R.symbol)
        = (closeFrames stop roots n frames done).recast R front := by
  intro n
  induction n with
  | zero => exact settle_recast R front (Frame.isFull_recast R) stop roots
  | succ n ih =>
      intro frames done
      cases frames with
      | nil => simp only [closeFrames, recast, List.map_nil, Forest.map_append, Forest.append_assoc]
      | cons f frames =>
          rw [List.map_cons, closeFrames, closeFrames, Frame.recast_add, Frame.recast_close]
          exact ih frames _

theorem close_recast (d : Draft) (n : Nat) (stop : Position) :
    (d.recast R front).close n (R.position stop) = (d.close n stop).recast R front :=
  closeFrames_recast R front stop d.roots n d.frames .nil

theorem breakLine_recast (d : Draft) (stop : Position) :
    (d.recast R front).breakLine (R.position stop) = (d.breakLine stop).recast R front :=
  settle_recast R front (fun _ => rfl) stop d.roots d.frames .nil

theorem finish_recast (d : Draft) (stop : Position) :
    (d.recast R front).finish (R.position stop) = front ++ (d.finish stop).map R.symbol :=
  congrArg Draft.roots (settle_recast R front (fun _ => rfl) stop d.roots d.frames .nil)

theorem add_recast (d : Draft) (r : Rule) (s : Symbol) :
    (d.recast R front).add r (R.symbol s) = (d.add r s).recast R front := by
  rw [add, add]
  by_cases hleaf : r.isLeaf = true
  · rw [if_pos hleaf, if_pos hleaf, R.stop]
    exact settle_recast R front (Frame.isFull_recast R) s.extent.stop d.roots d.frames (.single s)
  · rw [if_neg hleaf, if_neg hleaf]
    rfl

theorem permitted_recast (d : Draft) : (d.recast R front).permitted = d.permitted := by
  obtain ⟨frames, roots⟩ := d
  cases frames <;> rfl

theorem closingsFrom_recast (c : Cursor) :
    ∀ (frames : List Frame) (outside : Nat),
      closingsFrom c outside (frames.map (Frame.recast R)) = closingsFrom c outside frames := by
  intro frames
  induction frames with
  | nil => intro outside; rfl
  | cons f frames ih =>
      intro outside
      rw [List.map_cons, closingsFrom, closingsFrom, ih]
      rfl

/-- What happens next depends on the rules of the frames only. -/
theorem next?_recast (d : Draft) (c : Cursor) : (d.recast R front).next? c = d.next? c := by
  have hclosing : (d.recast R front).closing? c = d.closing? c := by
    rw [closing?, closing?, recast, closingsFrom_recast]
  have hopening : (d.recast R front).opening? c = d.opening? c := by
    rw [opening?, opening?, permitted_recast]
  rw [next?, next?, hclosing, hopening]

end Draft

end OverlayIndex
