/-
Reading a glob.

A glob is read character by character, with a look at the character that comes next.  A
question mark stands for any byte and a star for any bytes.  Two stars between slashes, or at
an end next to one, stand for any directories; elsewhere they are two stars.  Brackets hold a
class of bytes, braces hold branches that commas divide, and a backslash makes the next
character stand for itself.
-/
import OverlayIndex.Glob.Error
import OverlayIndex.Glob.Piece

namespace OverlayIndex

/-- A class of bytes that is being read. -/
structure ClassReading where
  negated : Bool
  /-- No member was read yet. -/
  first : Bool
  /-- A dash was read that may make the last member the start of a range. -/
  dashed : Bool
  /-- The ranges read so far, last first. -/
  ranges : List (Char × Char)
  deriving DecidableEq, Repr

namespace ClassReading

/-- Makes the last range reach to `c`. -/
def reach (r : ClassReading) (c : Char) : Except GlobError ClassReading :=
  match r.ranges with
  | [] => .ok { r with first := false, dashed := false, ranges := [(c, c)] }
  | (lo, _) :: ranges =>
    if c < lo then .error (.descendingRange lo c)
    else .ok { r with first := false, dashed := false, ranges := (lo, c) :: ranges }

/-- Reads a member.  A closing bracket comes here only as a first member. -/
def member (r : ClassReading) (c : Char) : Except GlobError ClassReading :=
  if r.dashed then r.reach c
  else if c = '-' ∧ !r.first then .ok { r with dashed := true }
  else .ok { r with first := false, ranges := (c, c) :: r.ranges }

/-- The finished class.  A dash at its end stands for itself. -/
def piece (r : ClassReading) : Piece :=
  .oneOf r.negated (if r.dashed then ('-', '-') :: r.ranges else r.ranges).reverse

end ClassReading

/-- What the next character means. -/
inductive GlobMode where
  | plain
  /-- It follows a backslash. -/
  | escaped
  /-- It is the second of two stars, before which this character stands. -/
  | secondStar (before : Option Char)
  /-- It is a slash that belongs to the stars before it. -/
  | swallowed
  /-- It follows an opening bracket. -/
  | classStart
  | inClass (reading : ClassReading)
  deriving DecidableEq, Repr

/-- A group of branches that is still open. -/
structure OpenGroup where
  /-- The pieces before the group, last first. -/
  outer : List Piece
  /-- The finished branches that are not empty, last first. -/
  branches : List Pattern

/-- A glob, read up to some place. -/
structure GlobReading where
  /-- The last character read. -/
  prev : Option Char
  mode : GlobMode
  /-- The pieces of the branch at hand, last first. -/
  pieces : List Piece
  /-- The open groups, innermost first. -/
  groups : List OpenGroup

namespace GlobReading

/-- Nothing read yet. -/
def start : GlobReading :=
  ⟨none, .plain, [], []⟩

/-- Adds a piece. -/
def push (r : GlobReading) (p : Piece) : GlobReading :=
  { r with mode := .plain, pieces := p :: r.pieces }

/-- Puts stars for directories in the place of the last piece, unless these stand there already. -/
def replaceLast (r : GlobReading) (p : Piece) (mode : GlobMode) : GlobReading :=
  match r.pieces with
  | .leadingDirs :: _ | .trailingDirs :: _ => { r with mode := mode }
  | _ :: pieces => { r with mode := mode, pieces := p :: pieces }
  | [] => { r with mode := mode, pieces := [p] }

/-- Reads the second of two stars. -/
def doubleStar (r : GlobReading) (before next : Option Char) : GlobReading :=
  let inside := !r.groups.isEmpty
  let plainStars := (r.push .star).push .star
  if r.pieces.isEmpty then
    match next with
    | none => r.push .leadingDirs
    | some '/' => { r.push .leadingDirs with mode := .swallowed }
    | some _ => plainStars
  else if before = some '/' ∨ inside ∧ (before = some ',' ∨ before = some '\x7b') then
    match next with
    | none => r.replaceLast .trailingDirs .plain
    | some '/' => r.replaceLast .innerDirs .swallowed
    | some c =>
      if inside ∧ (c = ',' ∨ c = '\x7d') then r.replaceLast .trailingDirs .plain else plainStars
  else plainStars

/-- Opens a group. -/
def openGroup (r : GlobReading) : GlobReading :=
  { r with pieces := [], groups := ⟨r.pieces, []⟩ :: r.groups }

/-- Ends a branch; outside of groups a comma stands for itself. -/
def comma (ignoreCase : Bool) (r : GlobReading) : GlobReading :=
  match r.groups with
  | [] => r.push (.literal ',')
  | g :: groups =>
    { r with
      pieces := []
      groups := ⟨g.outer,
        (Piece.sequence? ignoreCase r.pieces.reverse).toList ++ g.branches⟩ :: groups }

/-- Closes a group. -/
def closeGroup (ignoreCase : Bool) (r : GlobReading) : Except GlobError GlobReading :=
  match r.groups with
  | [] => .error .unopenedGroup
  | g :: groups =>
    let branches := (Piece.sequence? ignoreCase r.pieces.reverse).toList ++ g.branches
    .ok { r with
      pieces := .group (Piece.oneBranch branches.reverse) :: g.outer
      groups := groups }

/-- Reads a character that no earlier one gives a meaning to. -/
def plain (ignoreCase : Bool) (r : GlobReading) (c : Char) (next : Option Char) :
    Except GlobError GlobReading :=
  if c = '?' then .ok (r.push .any)
  else if c = '*' then
    if next = some '*' then .ok { r with mode := .secondStar r.prev } else .ok (r.push .star)
  else if c = '[' then .ok { r with mode := .classStart }
  else if c = '\x7b' then .ok r.openGroup
  else if c = '\x7d' then r.closeGroup ignoreCase
  else if c = ',' then .ok (r.comma ignoreCase)
  else if c = '\\' then .ok { r with mode := .escaped }
  else .ok (r.push (.literal c))

/-- Reads a character of a class. -/
def classChar (r : GlobReading) (k : ClassReading) (c : Char) : Except GlobError GlobReading :=
  if c = ']' ∧ !k.first then .ok (r.push k.piece)
  else (k.member c).map fun k => { r with mode := .inClass k }

/-- Reads one character, with a look at the next. -/
def step (ignoreCase : Bool) (r : GlobReading) (c : Char) (next : Option Char) :
    Except GlobError GlobReading :=
  (match r.mode with
  | .plain => r.plain ignoreCase c next
  | .escaped => .ok (r.push (.literal c))
  | .secondStar before => .ok (r.doubleStar before next)
  | .swallowed => .ok { r with mode := .plain }
  | .classStart =>
    if c = '!' ∨ c = '^' then .ok { r with mode := .inClass ⟨true, true, false, []⟩ }
    else r.classChar ⟨false, true, false, []⟩ c
  | .inClass k => r.classChar k c).map fun s : GlobReading => { s with prev := some c }

/-- Reads to the end. -/
def run (ignoreCase : Bool) (r : GlobReading) : List Char → Except GlobError GlobReading
  | [] => .ok r
  | c :: cs => (r.step ignoreCase c cs.head?).bind fun r => r.run ignoreCase cs

/-- The pattern, if nothing is left open. -/
def finish (ignoreCase : Bool) (r : GlobReading) : Except GlobError Pattern :=
  match r.mode, r.groups with
  | .escaped, _ => .error .danglingEscape
  | .classStart, _ | .inClass _, _ => .error .unclosedClass
  | _, _ :: _ => .error .unclosedGroup
  | _, [] => .ok (Piece.whole ignoreCase r.pieces.reverse)

end GlobReading

/-- The pattern of a glob. -/
def Pattern.ofGlob (ignoreCase : Bool) (glob : List Char) : Except GlobError Pattern :=
  (GlobReading.start.run ignoreCase glob).bind (·.finish ignoreCase)

end OverlayIndex
