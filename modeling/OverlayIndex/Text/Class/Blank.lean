/-
Blanks: the characters that count as white space.
-/
import OverlayIndex.Text.Class.Range

namespace OverlayIndex

/-- The code points with the property White_Space. -/
def blankRanges : List (Nat × Nat) :=
  [(0x9, 0xd), (0x20, 0x20), (0x85, 0x85), (0xa0, 0xa0), (0x1680, 0x1680), (0x2000, 0x200a),
   (0x2028, 0x2029), (0x202f, 0x202f), (0x205f, 0x205f), (0x3000, 0x3000)]

/-- White space of any kind. -/
def isBlank (c : Char) : Bool :=
  inRanges blankRanges c.toNat

/-- White space that separates words on a line: a space or a tab. -/
def isGap (c : Char) : Bool :=
  c = ' ' || c = '\t'

end OverlayIndex
