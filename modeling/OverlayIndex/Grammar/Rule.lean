/-
The rules of the grammar.

A rule says what a construct is, how it opens, what ends it, which constructs stand directly
in it, and how many of these it takes at most.  The order of the constructs in a list
matters: of two that open at the same place, the first listed wins.
-/
import OverlayIndex.Grammar.Opening
import OverlayIndex.Grammar.Terminator
import OverlayIndex.Symbol.Kind

namespace OverlayIndex

/-- The constructs of the language. -/
inductive Rule where
  | entry
  | name
  | dataArea
  | var
  | alnumMask
  | numericMask
  | codeMask
  | codeValue
  | ext
  | overlayRef
  | prog
  | proc
  | inclusion
  deriving DecidableEq, Repr

namespace Rule

/-- The constructs that stand at file level. -/
def topLevel : List Rule :=
  [entry, name]

/-- The kind of symbol that the construct declares. -/
def kind : Rule → Kind
  | entry => .entry
  | name => .name
  | dataArea => .dataArea
  | var => .var
  | alnumMask | numericMask | codeMask => .editMask
  | codeValue => .codeValue
  | ext => .ext
  | overlayRef => .overlayRef
  | prog => .prog
  | proc => .proc
  | inclusion => .inclusion

/-- How the construct opens. -/
def opening : Rule → Opening
  | entry => ⟨.lineStart, .directive "$ENTRY", .ident, .nothing⟩
  | name => ⟨.lineStart, .directive "$NAME", .ident, .nothing⟩
  | dataArea => ⟨.lineStart, .nothing, .keyword "$DATA", .nothing⟩
  | var => ⟨.lineStart, .nothing, Shape.ident.followedBy Shape.gapThenText, .nothing⟩
  | alnumMask => ⟨.afterBlank, .nothing, .alnumMask, .nothing⟩
  | numericMask => ⟨.afterBlank, .nothing, .numericMask, .nothing⟩
  | codeMask => ⟨.afterBlank, .nothing, .codeMask, .nothing⟩
  | codeValue => ⟨.afterCaret, .nothing, .many1 isWord, .nothing⟩
  | ext => ⟨.lineStart, .nothing, .keyword "$EXT", .nothing⟩
  | overlayRef => ⟨.inList, .nothing, .ident, .nothing⟩
  | prog =>
    ⟨.lineStart, .nothing, (Shape.literal "$PROG".toList).andThen Shape.arguments.optional, .nothing⟩
  | proc =>
    ⟨.lineStart, .nothing, .ident, Shape.procKeyword.andThen Shape.arguments.optional⟩
  | inclusion => ⟨.lineStart, .directive "$INCLUDE", .inclusionTarget, .nothing⟩

/-- What ends the construct. -/
def terminators : Rule → List Terminator
  | entry => [.nextUnit]
  | name | dataArea | ext => [.nextDirective]
  | codeMask => [.doubleCaret]
  | prog => [.leave, .nextProc, .nextInclusion]
  | proc => [.endProc]
  | var | alnumMask | numericMask | codeValue | overlayRef | inclusion => []

/-- The constructs that stand directly in this one. -/
def children : Rule → List Rule
  | entry => [dataArea, ext, prog, proc, inclusion]
  | name => [proc, var]
  | dataArea => [var]
  | var => [alnumMask, numericMask, codeMask]
  | codeMask => [codeValue]
  | ext => [overlayRef]
  | alnumMask | numericMask | codeValue | overlayRef | prog | proc | inclusion => []

/-- The most constructs that this one holds. -/
def maxChildren : Rule → Option Nat
  | var => some 1
  | _ => none

/-- The construct is over as soon as it is read. -/
def isLeaf (r : Rule) : Bool :=
  r.children.isEmpty && r.terminators.isEmpty

/-- Nothing marks the end of the construct, so it ends with its line at the latest. -/
def isImplicit (r : Rule) : Bool :=
  r.terminators.isEmpty

/-- No construct has an empty name. -/
theorem consumes_name (r : Rule) : r.opening.name.Consumes := by
  cases r with
  | entry | name | overlayRef | proc => exact Shape.consumes_ident
  | dataArea | ext => exact Shape.consumes_keyword (by simp)
  | var => exact Shape.consumes_ident.followedBy _
  | alnumMask => exact Shape.consumes_alnumMask
  | numericMask => exact Shape.consumes_numericMask
  | codeMask => exact Shape.consumes_codeMask
  | codeValue => exact Shape.consumes_many1 _
  | prog => exact (Shape.consumes_literal (by simp)).andThen _
  | inclusion => exact Shape.consumes_inclusionTarget

end Rule

end OverlayIndex
