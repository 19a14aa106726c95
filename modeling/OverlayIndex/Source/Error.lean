/-
What a source of texts can answer instead of a text.
-/
import OverlayIndex.Glob.Error
import OverlayIndex.Source.Path
import OverlayIndex.Symbol.Basic

namespace OverlayIndex

/-- Why a file that is there cannot be read. -/
inductive ReadFault where
  | isDirectory
  | notDirectory
  | tooManyLinks
  | nameTooLong
  /-- Its path holds a character that no path may hold. -/
  | nulInPath
  /-- Its bytes are no text. -/
  | notText
  /-- The source was told to fail. -/
  | injected
  deriving DecidableEq, Repr

/-- The text that tells people. -/
def ReadFault.message : ReadFault → String
  | isDirectory => "Is a directory (os error 21)"
  | notDirectory => "Not a directory (os error 20)"
  | tooManyLinks => "Too many levels of symbolic links (os error 40)"
  | nameTooLong => "File name too long (os error 36)"
  | nulInPath => "file name contained an unexpected NUL byte"
  | notText => "stream did not contain valid UTF-8"
  | injected => "injected"

/-- Why a source cannot answer. -/
inductive SourceError where
  | notFound (path : Path)
  | unreadable (path : Path) (fault : ReadFault)
  | pattern (glob : String) (cause : GlobError)
  | unknownFile (file : FileId)
  deriving DecidableEq, Repr

/-- The text that tells people. -/
def SourceError.message : SourceError → String
  | notFound path => "file not found: " ++ path.text
  | unreadable path fault => "failed to read " ++ path.text ++ ": " ++ fault.message
  | pattern glob cause =>
    "invalid file pattern '" ++ glob ++ "': error parsing glob '" ++ glob ++ "': " ++ cause.message
  | unknownFile file => "unknown file id " ++ file.render

end OverlayIndex
