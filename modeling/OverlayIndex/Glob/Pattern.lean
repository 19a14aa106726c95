/-
Patterns over bytes.

A pattern matches a whole text, byte by byte.  To decide it, the pattern is read from its end:
given the places of the text from which the rest of a pattern matches, one finds the places
from which the pattern with one more part in front does.  A place is a suffix of the text, so
the places are a list of truth values, one for each suffix, longest first.
-/
namespace OverlayIndex

/-- A pattern over bytes. -/
inductive Pattern where
  /-- Matches the empty text. -/
  | empty
  /-- Matches one byte of a class. -/
  | byte (p : UInt8 → Bool)
  /-- Matches any text. -/
  | star
  /-- Matches a text of the first followed by a text of the second. -/
  | seq (first second : Pattern)
  /-- Matches what one of the two matches. -/
  | alt (first second : Pattern)

namespace Pattern

/-- The places with a byte of the class in front of a good place. -/
def stepByte (p : UInt8 → Bool) : List UInt8 → List Bool → List Bool
  | b :: bs, _ :: good => (p b && good.head?.getD false) :: stepByte p bs good
  | _, _ => [false]

/-- The places at or after which there is a good place. -/
def stepStar : List Bool → List Bool
  | [] => []
  | g :: good =>
    match stepStar good with
    | [] => [g]
    | later :: more => (g || later) :: later :: more

/-- The places of `text` from which the pattern leads to a good place. -/
def step (text : List UInt8) : Pattern → List Bool → List Bool
  | empty, good => good
  | byte p, good => stepByte p text good
  | star, good => stepStar good
  | seq first second, good => first.step text (second.step text good)
  | alt first second, good => (first.step text good).zipWith (· || ·) (second.step text good)

/-- Only the end of the text is good. -/
def onlyEnd (text : List UInt8) : List Bool :=
  text.map (fun _ => false) ++ [true]

/-- The pattern matches the whole text. -/
def accepts (p : Pattern) (text : List UInt8) : Bool :=
  (p.step text (onlyEnd text)).head?.getD false

end Pattern

end OverlayIndex
