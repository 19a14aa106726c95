/-
Lower case.

Each capital becomes its small letter.  Two capitals need more: the dotted capital I becomes
two characters, and a capital sigma becomes the final sigma at the end of a word, that is
after a letter and not before one.
-/
import OverlayIndex.Text.Class.Case

namespace OverlayIndex

/-- The small form of one character, taken by itself. -/
def lowerChar (c : Char) : List Char :=
  if c.toNat < 0x80 then [c.toLower]
  else if c = '\u0130' then ['i', '\u0307']
  else [((capitalRuns.findSome? (·.lower? c.toNat)).map Char.ofNat).getD c]

/-- The nearest character that is not passed over has a case. -/
def reachesCased (cs : List Char) : Bool :=
  (cs.dropWhile isCaseIgnorable).head?.any isCased

/-- Lower case of what follows `before`, whose nearest character comes first. -/
def lowerFrom (before : List Char) : List Char → List Char
  | [] => []
  | c :: rest =>
    if c = 'Σ' then
      (if reachesCased before && !reachesCased rest then 'ς' else 'σ') :: lowerFrom (c :: before) rest
    else lowerChar c ++ lowerFrom (c :: before) rest

/-- The text in lower case. -/
def lowerCase (cs : List Char) : List Char :=
  lowerFrom [] cs

end OverlayIndex
