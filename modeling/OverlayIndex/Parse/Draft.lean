/-
A forest in the making.

While a text is read, some constructs are open, one inside the other, and all others are
closed.  Each open construct has a frame that collects the closed ones directly inside it.
Closing a frame makes a tree of it, which goes to the frame around it or, if there is none,
to the roots.
-/
import OverlayIndex.Grammar.Rule
import OverlayIndex.Symbol.Basic
import OverlayIndex.Symbol.Forest

namespace OverlayIndex

/-- An open construct and the closed constructs directly inside it. -/
structure Frame where
  rule : Rule
  symbol : Symbol
  below : Forest Symbol
  deriving DecidableEq, Repr

namespace Frame

/-- The frame with one more closed row inside it. -/
def add (f : Frame) (done : Forest Symbol) : Frame :=
  { f with below := f.below ++ done }

/-- The tree of a frame that closes at `p`.  A construct never ends before its own mark. -/
def close (f : Frame) (p : Position) : Forest Symbol :=
  .node (f.symbol.extendTo p) f.below .nil

/-- The construct holds as many others as it may. -/
def isFull (f : Frame) : Bool :=
  f.rule.maxChildren.any (· ≤ f.below.width)

/-- The construct ends with its line. -/
def isImplicit (f : Frame) : Bool :=
  f.rule.isImplicit

end Frame

/-- The open constructs, innermost first, and the closed ones at file level. -/
structure Draft where
  frames : List Frame
  roots : Forest Symbol
  deriving DecidableEq, Repr

namespace Draft

/-- Nothing read yet. -/
def empty : Draft :=
  ⟨[], .nil⟩

/-- The constructs that may open now. -/
def permitted (d : Draft) : List Rule :=
  match d.frames with
  | [] => Rule.topLevel
  | f :: _ => f.rule.children

/-- Hangs `done` below the innermost frame, then closes frames from the inside for as long as `p`
holds of them. -/
def settle (p : Frame → Bool) (stop : Position) (roots : Forest Symbol) :
    List Frame → Forest Symbol → Draft
  | [], done => ⟨[], roots ++ done⟩
  | f :: frames, done =>
    if p (f.add done) then settle p stop roots frames ((f.add done).close stop)
    else ⟨f.add done :: frames, roots⟩

/-- Hangs `done` below the innermost frame, closes that many frames, and then those that have
become full. -/
def closeFrames (stop : Position) (roots : Forest Symbol) :
    Nat → List Frame → Forest Symbol → Draft
  | 0, frames, done => settle Frame.isFull stop roots frames done
  | _ + 1, [], done => ⟨[], roots ++ done⟩
  | n + 1, f :: frames, done => closeFrames stop roots n frames ((f.add done).close stop)

/-- Closes the `n` innermost frames, and those that this makes full. -/
def close (d : Draft) (n : Nat) (stop : Position) : Draft :=
  closeFrames stop d.roots n d.frames .nil

/-- Closes the frames that end with their line.  A frame that this makes full ends with the line as
well. -/
def breakLine (d : Draft) (stop : Position) : Draft :=
  settle Frame.isImplicit stop d.roots d.frames .nil

/-- Closes all frames. -/
def finish (d : Draft) (stop : Position) : Forest Symbol :=
  (settle (fun _ => true) stop d.roots d.frames .nil).roots

/-- Opens a construct.  One that is over as soon as it is read may fill the frame around it. -/
def add (d : Draft) (rule : Rule) (symbol : Symbol) : Draft :=
  if rule.isLeaf then settle Frame.isFull symbol.extent.stop d.roots d.frames (.single symbol)
  else { d with frames := ⟨rule, symbol, .nil⟩ :: d.frames }

theorem length_settle (p : Frame → Bool) (stop : Position) (roots : Forest Symbol)
    (frames : List Frame) (done : Forest Symbol) :
    (settle p stop roots frames done).frames.length ≤ frames.length := by
  induction frames generalizing done with
  | nil => simp [settle]
  | cons f frames ih =>
    rw [settle]
    split
    · exact Nat.le_succ_of_le (ih _)
    · simp

theorem length_closeFrames (stop : Position) (roots : Forest Symbol) (n : Nat)
    (frames : List Frame) (done : Forest Symbol) :
    (closeFrames stop roots n frames done).frames.length ≤ frames.length - n := by
  induction n generalizing frames done with
  | zero => exact length_settle ..
  | succ n ih =>
    cases frames with
    | nil => simp [closeFrames]
    | cons f frames =>
      rw [closeFrames, List.length_cons]
      have := ih frames ((f.add done).close stop)
      omega

/-- Closing leaves that many frames less, or fewer still. -/
theorem length_close (d : Draft) (n : Nat) (stop : Position) :
    (d.close n stop).frames.length ≤ d.frames.length - n :=
  length_closeFrames ..

/-- A construct that opens adds at most one frame. -/
theorem length_add (d : Draft) (rule : Rule) (symbol : Symbol) :
    (d.add rule symbol).frames.length ≤ d.frames.length + 1 := by
  rw [add]
  split
  · exact Nat.le_succ_of_le (length_settle ..)
  · simp

end Draft

end OverlayIndex
