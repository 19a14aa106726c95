import OverlayIndex.Editor.Navigation
import OverlayIndex.Editor.Outline
import OverlayIndex.Editor.Ranges
import OverlayIndex.Glob.Error
import OverlayIndex.Glob.FilePattern
import OverlayIndex.Glob.Pattern
import OverlayIndex.Glob.Piece
import OverlayIndex.Glob.Reading
import OverlayIndex.Grammar.Opening
import OverlayIndex.Grammar.Rule
import OverlayIndex.Grammar.Shape
import OverlayIndex.Grammar.Terminator
import OverlayIndex.Grammar.Words
import OverlayIndex.Parse.Document
import OverlayIndex.Parse.Draft
import OverlayIndex.Parse.Line
import OverlayIndex.Proofs.Numbering
import OverlayIndex.Proofs.Parse.Extents
import OverlayIndex.Proofs.Parse.Grammatical
import OverlayIndex.Proofs.Parse.Laminar
import OverlayIndex.Proofs.Parse.Moves
import OverlayIndex.Proofs.Parse.Scan
import OverlayIndex.Proofs.Parse.Shift
import OverlayIndex.Proofs.Parse.Units
import OverlayIndex.Proofs.Position
import OverlayIndex.Proofs.Source.Memory
import OverlayIndex.Proofs.Spans
import OverlayIndex.Proofs.Workspace.Alike
import OverlayIndex.Proofs.Workspace.Current
import OverlayIndex.Proofs.Workspace.FileSet
import OverlayIndex.Proofs.Workspace.History
import OverlayIndex.Proofs.Workspace.Interleaving
import OverlayIndex.Proofs.Workspace.Queries
import OverlayIndex.Proofs.Workspace.Runs
import OverlayIndex.Proofs.Workspace.SameAnswers
import OverlayIndex.Proofs.Workspace.TreeCache
import OverlayIndex.Resolve.Declaration
import OverlayIndex.Resolve.InclusionTarget
import OverlayIndex.Resolve.Locator
import OverlayIndex.Resolve.References
import OverlayIndex.Resolve.Token
import OverlayIndex.Source.Basic
import OverlayIndex.Source.Disk
import OverlayIndex.Source.Error
import OverlayIndex.Source.FileSystem
import OverlayIndex.Source.Memory
import OverlayIndex.Source.Path
import OverlayIndex.Source.Staged
import OverlayIndex.Symbol.Basic
import OverlayIndex.Symbol.Forest
import OverlayIndex.Symbol.Kind
import OverlayIndex.Symbol.Tree
import OverlayIndex.Text.Class.Alphanumeric
import OverlayIndex.Text.Class.Blank
import OverlayIndex.Text.Class.Case
import OverlayIndex.Text.Class.Digit
import OverlayIndex.Text.Class.Identifier
import OverlayIndex.Text.Class.Range
import OverlayIndex.Text.Class.Word
import OverlayIndex.Text.Cursor
import OverlayIndex.Text.Cut
import OverlayIndex.Text.LineIndex
import OverlayIndex.Text.Lines
import OverlayIndex.Text.LowerCase
import OverlayIndex.Text.Position
import OverlayIndex.Workspace.Basic
import OverlayIndex.Workspace.Config
import OverlayIndex.Workspace.Editing
import OverlayIndex.Workspace.FileSet
import OverlayIndex.Workspace.TreeCache
import OverlayIndex.Proofs.Parse.Reached
import OverlayIndex.Proofs.Parse.Every
import OverlayIndex.Proofs.Parse.Lawful
import OverlayIndex.Proofs.Parse.Preorder
import OverlayIndex.Proofs.Parse.Roots
import OverlayIndex.Proofs.Parse.Hits
import OverlayIndex.Proofs.Parse.Endings
import OverlayIndex.Proofs.Parse.Declarations
import OverlayIndex.Proofs.Workspace.Readings
import OverlayIndex.Proofs.Resolve.Reading
import OverlayIndex.Proofs.Resolve.Lookup
import OverlayIndex.Proofs.Resolve.Chain
import OverlayIndex.Proofs.Text.Places
import OverlayIndex.Proofs.Resolve.Occurrences
import OverlayIndex.Proofs.Resolve.Uses
import OverlayIndex.Proofs.Resolve.Definition
import OverlayIndex.Proofs.Resolve.Tokens
import OverlayIndex.Proofs.Resolve.RoundTrip
import OverlayIndex.Proofs.Parse.Offsets
import OverlayIndex.Proofs.Parse.Comments
import OverlayIndex.Proofs.Workspace.Outages
import OverlayIndex.Proofs.Text.Returns
import OverlayIndex.Proofs.Resolve.LineEndings
import OverlayIndex.Proofs.Workspace.Twins
import OverlayIndex.Proofs.Resolve.OwnName
import OverlayIndex.Proofs.Workspace.SharedFiles
import OverlayIndex.Proofs.Source.Path
import OverlayIndex.Proofs.Source.FileSystem
import OverlayIndex.Proofs.Source.Disk
import OverlayIndex.Proofs.Resolve.Inclusions
import OverlayIndex.Proofs.Editor.Selections
import OverlayIndex.Proofs.Resolve.PastLineEnd
import OverlayIndex.Proofs.Editor.Links
import OverlayIndex.Proofs.Glob.Matching
import OverlayIndex.Proofs.Glob.Names
import OverlayIndex.Proofs.Workspace.LogicalNames
import OverlayIndex.Proofs.Text.Conversions
import OverlayIndex.Proofs.Resolve.WholeIdentifiers
import OverlayIndex.Proofs.Parse.OverlayLists
import OverlayIndex.Proofs.Text.LowerCase
import OverlayIndex.Proofs.Source.Listing
import OverlayIndex.Proofs.Editor.Search
import OverlayIndex.Proofs.Parse.Ledger
import OverlayIndex.Proofs.Parse.LineScan
import OverlayIndex.Proofs.Source.Edits
import OverlayIndex.Proofs.Parse.StackDiscipline
import OverlayIndex.Proofs.Parse.Arena
import OverlayIndex.Proofs.Resolve.TokenRuns
