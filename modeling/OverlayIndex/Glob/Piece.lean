/-
The pieces of a glob and the patterns they stand for.

A glob is a sequence of pieces.  Each piece is a pattern over the bytes of a path; a piece
whose alternatives are all empty is no pattern at all and leaves no trace.  Where case is
ignored, that goes for the ASCII letters only.
-/
import OverlayIndex.Glob.Pattern

namespace OverlayIndex

/-- The same ASCII letter in the other case; any other byte is left alone. -/
def otherCase (b : UInt8) : UInt8 :=
  if 65 ≤ b ∧ b ≤ 90 then b + 32 else if 97 ≤ b ∧ b ≤ 122 then b - 32 else b

/-- The class of bytes, extended to the other case of its letters if case is ignored. -/
def ignoringCase (ignore : Bool) (p : UInt8 → Bool) (b : UInt8) : Bool :=
  p b || (ignore && p (otherCase b))

/-- The bytes of a text. -/
def utf8Bytes (cs : List Char) : List UInt8 :=
  cs.flatMap String.utf8EncodeChar

/-- A part of a glob. -/
inductive Piece where
  /-- This character. -/
  | literal (c : Char)
  /-- Any one byte. -/
  | any
  /-- Any bytes. -/
  | star
  /-- Any directories in front. -/
  | leadingDirs
  /-- Anything below. -/
  | trailingDirs
  /-- Any directories between. -/
  | innerDirs
  /-- One byte in, or not in, the ranges. -/
  | oneOf (negated : Bool) (ranges : List (Char × Char))
  /-- One of several branches; none if all of them are empty. -/
  | group (branches : Option Pattern)

namespace Piece

/-- The ranges of bytes that a range of characters adds to a class.  A class has bytes for
members: the range runs from the last byte of its first character to the first byte of its
last one, and their other bytes are members by themselves. -/
def byteRanges (r : Char × Char) : List (UInt8 × UInt8) :=
  let single := fun b : UInt8 => (b, b)
  let first := String.utf8EncodeChar r.1
  let last := String.utf8EncodeChar r.2
  if r.1 = r.2 then first.map single
  else
    first.dropLast.map single ++ (first.getLast?.toList.zip last.head?.toList) ++
      last.tail.map single

/-- The byte is in one of the ranges. -/
def inByteRanges (ranges : List (UInt8 × UInt8)) (b : UInt8) : Bool :=
  ranges.any fun r => r.1 ≤ b && b ≤ r.2

/-- The slash between the names of a path. -/
def slash : Pattern :=
  .byte (· = 47)

/-- The pattern that the piece stands for. -/
def pattern? (ignoreCase : Bool) : Piece → Option Pattern
  | literal c =>
    some ((String.utf8EncodeChar c).foldr
      (fun b p => .seq (.byte (ignoringCase ignoreCase (· = b))) p) .empty)
  | any => some (.byte fun _ => true)
  | star => some .star
  | leadingDirs => some (.alt (.alt slash .empty) (.seq .star slash))
  | trailingDirs => some (.seq slash .star)
  | innerDirs => some (.alt slash (.seq slash (.seq .star slash)))
  | oneOf negated ranges =>
    let members := inByteRanges (ranges.flatMap byteRanges)
    some (.byte fun b => negated != ignoringCase ignoreCase members b)
  | group branches => branches

/-- The pattern of a sequence of pieces, unless it is empty. -/
def sequence? (ignoreCase : Bool) (pieces : List Piece) : Option Pattern :=
  match pieces.filterMap (·.pattern? ignoreCase) with
  | [] => none
  | p :: ps => some (ps.foldl .seq p)

/-- One of the branches. -/
def oneBranch : List Pattern → Option Pattern
  | [] => none
  | p :: ps => some (ps.foldl .alt p)

/-- The pattern of a whole glob.  Leading directories alone match everything. -/
def whole (ignoreCase : Bool) : List Piece → Pattern
  | [.leadingDirs] => .star
  | pieces => (sequence? ignoreCase pieces).getD .empty

end Piece

end OverlayIndex
