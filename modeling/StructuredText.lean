import StructuredText.Casing
import StructuredText.CommandLine.Argument
import StructuredText.CommandLine.Request
import StructuredText.CommandLine.Run
import StructuredText.CommandLine.Usage
import StructuredText.Document
import StructuredText.FileTree.Basic
import StructuredText.FileTree.Path
import StructuredText.FileTree.Text
import StructuredText.Format
import StructuredText.Header
import StructuredText.Host
import StructuredText.Indentation
import StructuredText.Json.Basic
import StructuredText.Json.Parser
import StructuredText.Line
import StructuredText.LineBreak
import StructuredText.Literal.Lookup
import StructuredText.Literal.Mask
import StructuredText.Literal.Scan
import StructuredText.Literal.Span
import StructuredText.Literal.Typed
import StructuredText.Location
import StructuredText.Main
import StructuredText.Notice
import StructuredText.Occurrence
import StructuredText.Pattern.Basic
import StructuredText.Pattern.Fault
import StructuredText.Pattern.Lexeme
import StructuredText.Pattern.Match
import StructuredText.Pattern.Parser
import StructuredText.Pattern.Replace
import StructuredText.Pattern.Template
import StructuredText.Proofs.BlankLines
import StructuredText.Proofs.BlockDepth
import StructuredText.Proofs.BlockEnds
import StructuredText.Proofs.BlockLines
import StructuredText.Proofs.BlockWords
import StructuredText.Proofs.Blocks
import StructuredText.Proofs.Calls
import StructuredText.Proofs.Capitals
import StructuredText.Proofs.CasedLengths
import StructuredText.Proofs.CasedWords
import StructuredText.Proofs.CaselessPatterns
import StructuredText.Proofs.CasingTwice
import StructuredText.Proofs.CharClass
import StructuredText.Proofs.ClosedLiterals
import StructuredText.Proofs.CombinedPatterns
import StructuredText.Proofs.CommentGaps
import StructuredText.Proofs.DepthSums
import StructuredText.Proofs.Describing
import StructuredText.Proofs.FileTrees
import StructuredText.Proofs.Finding
import StructuredText.Proofs.Footprint
import StructuredText.Proofs.GapRules
import StructuredText.Proofs.Gaps
import StructuredText.Proofs.HeaderDepth
import StructuredText.Proofs.HeaderLines
import StructuredText.Proofs.HeaderWords
import StructuredText.Proofs.Hosts
import StructuredText.Proofs.InPlace
import StructuredText.Proofs.Indenting
import StructuredText.Proofs.JoinedHeaders
import StructuredText.Proofs.Joining
import StructuredText.Proofs.Layout
import StructuredText.Proofs.LetterCase
import StructuredText.Proofs.Lexemes
import StructuredText.Proofs.Lexical
import StructuredText.Proofs.LineBlanks
import StructuredText.Proofs.LineBreaks
import StructuredText.Proofs.LineContents
import StructuredText.Proofs.LineEnds
import StructuredText.Proofs.LineKinds
import StructuredText.Proofs.LineMasks
import StructuredText.Proofs.LiteralEdits
import StructuredText.Proofs.Lookup
import StructuredText.Proofs.Marking
import StructuredText.Proofs.MaskedPositions
import StructuredText.Proofs.Matching
import StructuredText.Proofs.Merging
import StructuredText.Proofs.Nesting
import StructuredText.Proofs.OpenLiterals
import StructuredText.Proofs.OperatorSpacing
import StructuredText.Proofs.Operators
import StructuredText.Proofs.Padding
import StructuredText.Proofs.Parentheses
import StructuredText.Proofs.ParenthesisRules
import StructuredText.Proofs.Patching
import StructuredText.Proofs.PatternGroups
import StructuredText.Proofs.Pipeline
import StructuredText.Proofs.Preservation
import StructuredText.Proofs.Reading
import StructuredText.Proofs.Recasing
import StructuredText.Proofs.Reformatting
import StructuredText.Proofs.Reindenting
import StructuredText.Proofs.Respacing
import StructuredText.Proofs.Rewriting
import StructuredText.Proofs.Scanning
import StructuredText.Proofs.Settled
import StructuredText.Proofs.Settling
import StructuredText.Proofs.Skeleton
import StructuredText.Proofs.SpacedOperators
import StructuredText.Proofs.SpacingRules
import StructuredText.Proofs.SpacingTwice
import StructuredText.Proofs.Spelling
import StructuredText.Proofs.SteadyEdits
import StructuredText.Proofs.Strips
import StructuredText.Proofs.Tokens
import StructuredText.Proofs.Totality
import StructuredText.Proofs.Twins
import StructuredText.Proofs.TypedMarking
import StructuredText.Proofs.TypedMoves
import StructuredText.Proofs.TypedReading
import StructuredText.Proofs.TypedScan
import StructuredText.Proofs.VocabularyChanges
import StructuredText.Proofs.VocabularyFields
import StructuredText.Proofs.VocabularyMerging
import StructuredText.Proofs.Warnings
import StructuredText.Proofs.WholeDocument
import StructuredText.Proofs.WordCase
import StructuredText.Replacement
import StructuredText.Spacing
import StructuredText.Spacing.Call
import StructuredText.Spacing.Comment
import StructuredText.Spacing.Edge
import StructuredText.Spacing.Token
import StructuredText.Text.Blank
import StructuredText.Text.Case
import StructuredText.Text.Cursor
import StructuredText.Text.Newline
import StructuredText.Text.Printable
import StructuredText.Text.Quoted
import StructuredText.Text.Ranges
import StructuredText.Text.Slice
import StructuredText.Text.Utf8
import StructuredText.Text.Word
import StructuredText.Vocabulary.Basic
import StructuredText.Vocabulary.Change
import StructuredText.Vocabulary.Combined
import StructuredText.Vocabulary.Load
import StructuredText.Vocabulary.Standard
import StructuredText.Vocabulary.Validation
