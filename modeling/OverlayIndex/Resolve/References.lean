/-
Where a variable is used.

The occurrences of a name are searched for from the front of the scope, each after the end of
the one before, and those that are part of a longer identifier are left out afterwards.  A
point joins what stands around it, but a point that nothing follows ends a name.
-/
import OverlayIndex.Resolve.Locator
import OverlayIndex.Text.LineIndex

namespace OverlayIndex

/-- A stretch of a file. -/
structure Location where
  file : FileId
  range : Extent
  deriving DecidableEq, Repr

/-- No identifier goes on from here: a point counts only if something follows it. -/
def endsIdentifier : List Char → Bool
  | [] => true
  | '.' :: rest => !rest.head?.any isIdentifier
  | c :: _ => !isIdentifier c

/-- No identifier comes up to here; `left` is what stands before, nearest first. -/
def startsIdentifier (left : List Char) : Bool :=
  !left.head?.any isTokenChar

/-- The byte offsets in the text at which `name` occurs as a whole identifier.  The text is what
stands to the left (nearest first), the part that is searched, and what follows it; `skip`
characters belong to the occurrence before.  The next two characters tell whether an identifier
goes on. -/
def occurrenceOffsets (name after : List Char) : Nat → List Char → List Char → List Nat
  | _, _, [] => []
  | skip + 1, left, c :: rest => occurrenceOffsets name after skip (c :: left) rest
  | 0, left, c :: rest =>
    if name.isPrefixOf (c :: rest) then
      (if startsIdentifier left && endsIdentifier (((c :: rest).drop name.length).take 2 ++ after)
        then [byteLength left] else []) ++
        occurrenceOffsets name after (name.length - 1) (c :: left) rest
    else occurrenceOffsets name after 0 (c :: left) rest

/-- The text cut at two byte offsets. -/
def cutBetween? (text : List Char) (start stop : Nat) :
    Option (List Char × List Char × List Char) :=
  if start ≤ stop then
    (cutAtByte start text).bind fun x =>
      (cutAtByte (stop - start) x.2).map fun y => (x.1, y.1, y.2)
  else none

/-- The occurrences of `name` as a whole identifier in a scope of a text. -/
def occurrences (text : List Char) (scope : Extent) (name : List Char) : List Extent :=
  let lines := LineIndex.ofChars text
  match lines.offset? scope.start, lines.offset? scope.stop with
  | some start, some stop =>
    match cutBetween? text start stop with
    | some (before, searched, after) =>
      if name = [] then [] else
        (occurrenceOffsets name after 0 before.reverse searched).map fun offset =>
          let p := lines.position offset
          .onLine p.line p.col (p.col + byteLength name)
    | none => []
  | _, _ => []

namespace Workspace

variable {σ : Type} [Source σ]

/-- The occurrences of a declared variable in the overlay that declares it, the declaration
included.  What is not a variable of an overlay has none. -/
def referencesTo (d : Declaration) : WorkspaceM σ (List Location) := do
  if d.symbol.kind = .var then
    match (d.tree.enclosing? d.id .entry).bind d.tree.get? with
    | none => return []
    | some entry =>
      match ← text d.file with
      | .error _ => return []
      | .ok s =>
        return (occurrences s.toList entry.extent d.symbol.name.toList).map fun e => ⟨d.file, e⟩
  else return []

end Workspace

end OverlayIndex
