/-
The token under a position.

A token is a run of identifier characters and points that is as long as it can be, without the
points at its ends.  A cursor right after a token still stands on it.
-/
import OverlayIndex.Text.Class.Identifier
import OverlayIndex.Text.Cursor
import OverlayIndex.Text.Cut

namespace OverlayIndex

/-- A character that tokens are made of. -/
def isTokenChar (c : Char) : Bool :=
  c = '.' || isIdentifier c

/-- A token character at the end of a token. -/
def isPoint (c : Char) : Bool :=
  c = '.'

/-- The span without the points at its ends. -/
def Span.trimPoints (s : Span) : Span :=
  let inner := s.text.dropWhile isPoint
  { left := (s.text.takeWhile isPoint).reverse ++ s.left
    text := (inner.reverse.dropWhile isPoint).reverse
    right := (inner.reverse.takeWhile isPoint) ++ s.right }

/-- The longest run of token characters around the cursor. -/
def Cursor.tokenRun (c : Cursor) : Span where
  left := c.left.dropWhile isTokenChar
  text := (c.left.takeWhile isTokenChar).reverse ++ c.right.takeWhile isTokenChar
  right := c.right.dropWhile isTokenChar

/-- The place on a line at a byte column; a column past the end stands for the end. -/
def cursorAt? (line : List Char) (col : Nat) : Option Cursor :=
  (cutAtByte (min col (byteLength line)) line).map fun x => ⟨x.1.reverse, x.2⟩

/-- The token at a byte column of a line. -/
def tokenAt? (line : List Char) (col : Nat) : Option Span :=
  (cursorAt? line col).bind fun c =>
    let token := c.tokenRun.trimPoints
    if token.text = [] then none else some token

/-- The token at a position of a text. -/
def textTokenAt? (text : List Char) (p : Position) : Option String :=
  ((contentLines text)[p.line]?.bind (tokenAt? · p.col)).map fun s => String.ofList s.text

end OverlayIndex
