/-
The words of the grammar.

A name is a capital followed by word characters, which single points may join: `ORD`,
`CUST.NAME`.  A point that no word character follows is not part of the name.
-/
import OverlayIndex.Grammar.Shape

namespace OverlayIndex

namespace Shape

/-- The text cut after the longest run of word characters and joining points. -/
def cutJoined : List Char → List Char × List Char
  | [] => ([], [])
  | c :: cs =>
    if isWord c then
      match cutJoined cs with
      | (t, r) => (c :: t, r)
    else match cs with
      | [] => ([], [c])
      | d :: ds =>
        if c = '.' ∧ isWord d then
          match cutJoined ds with
          | (t, r) => (c :: d :: t, r)
        else ([], c :: d :: ds)

theorem cutJoined_append (s : List Char) : (cutJoined s).1 ++ (cutJoined s).2 = s := by
  fun_induction cutJoined s <;> simp_all

/-- The rest of a name after its capital. -/
def joined : Shape where
  read s := some (cutJoined s)
  split {s t r} h := by
    have hs := cutJoined_append s
    rw [Option.some.inj h] at hs
    exact hs

/-- A name: a capital, then word characters that single points may join. -/
def ident : Shape :=
  (one Char.isUpper).andThen joined

/-- The word `w`, of which nothing more follows. -/
def keyword (w : String) : Shape :=
  (literal w.toList).followedBy endsWord

/-- The directive `w`, with the white space that must follow it. -/
def directive (w : String) : Shape :=
  (literal w.toList).andThen (many1 isBlank)

/-- A gap between two words: spaces and tabs. -/
def gap : Shape :=
  many1 isGap

/-- Anything in parentheses, up to the last closing one on the line. -/
def arguments : Shape :=
  (literal ['(']).andThen (throughLast (· = ')'))

/-- What starts a procedure after its name. -/
def procKeyword : Shape :=
  gap.andThen (keyword "PROC")

/-- Letters that stand for any text: `A12`, `X5`. -/
def alnumMask : Shape :=
  ((one fun c => c = 'A' || c = 'X').andThen (many1 isDecimal)).followedBy endsWord

/-- The part of a number's format before the point: `N9`, `SBL-7`. -/
def wholeMask : Shape :=
  (one fun c => ['N', 'U', 'S', 'F', 'Z'].contains c).andThen
    ((many fun c => ['B', 'L', 'P', '-'].contains c).andThen (many1 isDecimal))

/-- The format of a number: `N9.2`.  The places after the point count only if no word goes on
behind them. -/
def numericMask : Shape :=
  ((wholeMask.andThen ((literal ['.']).andThen (many1 isDecimal))).followedBy endsWord).orElse
    (wholeMask.followedBy endsWord)

/-- The mark of a variable that takes its values from a list; the list follows. -/
def codeMask : Shape :=
  (literal ['C']).followedBy fun rest => rest.head? = some '^'

/-- What an inclusion names: a file, or a star for the file at hand, and a block in parentheses. -/
def inclusionTarget : Shape :=
  ((many1 fun c => isWord c || c = '.').orElse (literal ['*'])).andThen
    ((literal ['(']).andThen ((many (· != ')')).andThen (literal [')'])))

/-- A gap and then text come next. -/
def gapThenText (rest : List Char) : Bool :=
  rest.head?.any isGap && (rest.dropWhile isGap).head?.any (!isBlank ·)

theorem consumes_ident : ident.Consumes :=
  (consumes_one _).andThen _

theorem consumes_keyword {w : String} (hw : w.toList ≠ []) : (keyword w).Consumes :=
  (consumes_literal hw).followedBy _

theorem consumes_alnumMask : alnumMask.Consumes :=
  ((consumes_one _).andThen _).followedBy _

theorem consumes_wholeMask : wholeMask.Consumes :=
  (consumes_one _).andThen _

theorem consumes_numericMask : numericMask.Consumes :=
  ((consumes_wholeMask.andThen _).followedBy _).orElse (consumes_wholeMask.followedBy _)

theorem consumes_codeMask : codeMask.Consumes :=
  (consumes_literal (by simp)).followedBy _

theorem consumes_inclusionTarget : inclusionTarget.Consumes :=
  ((consumes_many1 _).orElse (consumes_literal (by simp))).andThen _

end Shape

end OverlayIndex
