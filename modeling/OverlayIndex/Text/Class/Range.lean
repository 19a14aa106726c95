/-
Classes of characters given by ranges of code points.
-/
namespace OverlayIndex

/-- The code point lies in one of the ranges, both ends of a range counting. -/
def inRanges (ranges : List (Nat × Nat)) (n : Nat) : Bool :=
  ranges.any fun r => r.1 ≤ n && n ≤ r.2

end OverlayIndex
