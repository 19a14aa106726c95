/-
The kinds of symbols an overlay source declares.
-/
namespace OverlayIndex

/-- What a symbol is. -/
inductive Kind where
  /-- An overlay, opened by `$ENTRY`. -/
  | entry
  /-- A block of shared declarations, opened by `$NAME`. -/
  | name
  /-- A block pulled in by `$INCLUDE`. -/
  | inclusion
  /-- The list of other overlays, opened by `$EXT`. -/
  | ext
  /-- One overlay named in such a list. -/
  | overlayRef
  /-- The data of an overlay, opened by `$DATA`. -/
  | dataArea
  /-- The main program of an overlay, opened by `$PROG`. -/
  | prog
  /-- A procedure. -/
  | proc
  /-- A declared variable. -/
  | var
  /-- The format of a variable. -/
  | editMask
  /-- One value of a variable that takes its values from a list. -/
  | codeValue
  deriving DecidableEq, Repr

namespace Kind

/-- The name of the kind. -/
def render : Kind → String
  | entry => "Entry"
  | name => "Name"
  | inclusion => "Include"
  | ext => "Ext"
  | overlayRef => "OverlayRef"
  | dataArea => "DataArea"
  | prog => "Prog"
  | proc => "Proc"
  | var => "Variable"
  | editMask => "EditMask"
  | codeValue => "CodeStringValue"

/-- All kinds. -/
def all : List Kind :=
  [entry, name, inclusion, ext, overlayRef, dataArea, prog, proc, var, editMask, codeValue]

/-- The kind of a given name. -/
def ofName? (s : String) : Option Kind :=
  all.find? (·.render = s)

/-- A short label: the directive or keyword that opens the construct, where there is one. -/
def label : Kind → String
  | entry => "$ENTRY"
  | name => "$NAME"
  | inclusion => "$INCLUDE"
  | ext => "$EXT"
  | overlayRef => "overlay"
  | dataArea => "$DATA"
  | prog => "$PROG"
  | proc => "PROC"
  | var => "variable"
  | editMask => "edit mask"
  | codeValue => "code value"

/-- The kind stands at file level. -/
def isUnit : Kind → Bool
  | entry | name => true
  | _ => false

end Kind

end OverlayIndex
