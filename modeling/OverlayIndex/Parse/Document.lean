/-
Reading a text.

The text is read line by line.  Comments are not looked at: a star in column zero makes the
whole line a comment, and two angle brackets the rest of it.  Constructs that nothing ends
close with their line, and those that are open after the last line end with the text.  Every
text can be read.
-/
import OverlayIndex.Parse.Line
import OverlayIndex.Symbol.Tree

namespace OverlayIndex

/-- A line up to its comment mark. -/
def beforeComment : List Char → List Char
  | [] => []
  | c :: cs => if c = '<' ∧ cs.head? = some '<' then [] else c :: beforeComment cs

/-- What is looked at of a line. -/
def visible (line : List Char) : List Char :=
  if line.head? = some '*' then [] else beforeComment line

/-- Reads lines, the first of which has this number; `edge` is the end of the line before.
Gives the draft and the end of the last line. -/
def Draft.readLines (d : Draft) (number : Nat) (edge : Position) :
    List (List Char) → Draft × Position
  | [] => (d, edge)
  | line :: lines =>
    readLines (LineContext.scan ⟨number, edge⟩ (d.breakLine edge) (.ofLine (visible line)))
      (number + 1) ⟨number, byteLength line⟩ lines

/-- The forest of symbols of a text. -/
def parseChars (text : List Char) : Forest Symbol :=
  let read := Draft.empty.readLines 0 ⟨0, 0⟩ (contentLines text)
  read.1.finish read.2

/-- The symbol tree of a file with this text. -/
def parse (file : FileId) (text : String) : SymbolTree :=
  ⟨file, parseChars text.toList⟩

end OverlayIndex
