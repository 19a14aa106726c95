/-
Which files belong to a workspace, and which file a name stands for.

A logical name is the name of a file without its directory and extension.  Only names made of
alphanumeric characters, underscores, points and dashes can be one, and none of these means
anything special in a glob.
-/
import OverlayIndex.Glob.FilePattern
import OverlayIndex.Text.Class.Alphanumeric

namespace OverlayIndex

/-- Which files belong to a workspace. -/
structure Config where
  /-- The extensions of source files, without the point. -/
  extensions : List String
  /-- Extensions and logical names match whatever the case of their ASCII letters. -/
  ignoreCase : Bool
  deriving DecidableEq, Repr

namespace Config

/-- Files with the extension `rtm` in any case. -/
def standard : Config :=
  ⟨["rtm"], true⟩

/-- The configuration with these extensions, which may be given with points in front. -/
def withExtensions (c : Config) (extensions : List String) : Config :=
  { c with extensions := extensions.map fun e => String.ofList (e.toList.dropWhile (· = '.')) }

/-- The configuration with case ignored or not. -/
def withIgnoreCase (c : Config) (ignoreCase : Bool) : Config :=
  { c with ignoreCase := ignoreCase }

/-- The files with this stem, in any directory. -/
def stemPattern (c : Config) (stem : String) : FilePattern :=
  let ending := match c.extensions with
    | [single] => single
    | many => "\x7b" ++ ",".intercalate many ++ "\x7d"
  ⟨"**/" ++ stem ++ "." ++ ending, c.ignoreCase⟩

/-- All source files. -/
def sourcePattern (c : Config) : FilePattern :=
  c.stemPattern "*"

/-- The name can be a file's. -/
def isLogicalName (name : String) : Bool :=
  name != "" && name.toList.all fun ch => isAlphanumeric ch || ch = '_' || ch = '.' || ch = '-'

/-- The files that a logical name may stand for. -/
def logicalNamePattern? (c : Config) (name : String) : Option FilePattern :=
  if isLogicalName name then some (c.stemPattern name) else none

end Config

end OverlayIndex
