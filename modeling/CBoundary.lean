import CBoundary.AdjacentComment
import CBoundary.AlphanumericRanges
import CBoundary.CharacterClass
import CBoundary.CheckOptions
import CBoundary.CheckReport
import CBoundary.Classification
import CBoundary.Codebase
import CBoundary.Codec
import CBoundary.CommandLine
import CBoundary.CommentBlanking
import CBoundary.Cursor
import CBoundary.DecimalNumeral
import CBoundary.Definition
import CBoundary.Extent
import CBoundary.FileAccess
import CBoundary.FileTree
import CBoundary.FunctionDecl
import CBoundary.Keyword
import CBoundary.Lexeme
import CBoundary.LiteralEscape
import CBoundary.MacroDefinition
import CBoundary.MacroExpansion
import CBoundary.MacroTable
import CBoundary.Main
import CBoundary.ModuleConfig
import CBoundary.ProjectScan
import CBoundary.RecordDecl
import CBoundary.ScanCache
import CBoundary.ScanCodec
import CBoundary.Scope
import CBoundary.Sink
import CBoundary.SourcePath
import CBoundary.SourceScan
import CBoundary.Statement
import CBoundary.StatementKind
import CBoundary.Substitution
import CBoundary.TextPosition
import CBoundary.Token
import CBoundary.TokenList
import CBoundary.TokenStream
import CBoundary.Variable
import CBoundary.Visibility
import CBoundary.Warning
import CBoundary.Proofs.TextSlice
import CBoundary.Proofs.TokenCoverage
import CBoundary.Proofs.History
import CBoundary.Proofs.Privacy
import CBoundary.Proofs.ExpansionGuard
import CBoundary.Proofs.TokenPlacement
import CBoundary.Proofs.DefinitionOffset
import CBoundary.Proofs.ByteExtent
import CBoundary.Proofs.CursorPlace
import CBoundary.Proofs.CursorScan
import CBoundary.Proofs.Gathering
import CBoundary.Proofs.MacroRegistration
import CBoundary.Proofs.RecordBody
import CBoundary.Proofs.AnnotationReach
import CBoundary.Proofs.Recognition
import CBoundary.Proofs.ReportOrder
import CBoundary.Proofs.ReportOrigin
import CBoundary.Proofs.ParallelScan
import CBoundary.Proofs.Precedence
import CBoundary.Proofs.SecondReading
import CBoundary.Proofs.DiskEntry
import CBoundary.Proofs.SharedCache
import CBoundary.Proofs.CacheTransparency
import CBoundary.Proofs.TableShape
import CBoundary.Proofs.StatementReader
import CBoundary.Proofs.UnreadableFile
import CBoundary.Proofs.Truncation
import CBoundary.Proofs.TextBehind
import CBoundary.Proofs.TokenTree
import CBoundary.Proofs.InvocationRange
import CBoundary.Proofs.SingleParameter
import CBoundary.Proofs.CallArguments
import CBoundary.Proofs.BodyUnit
import CBoundary.Proofs.ParameterNames
import CBoundary.Proofs.JoinedWords
import CBoundary.Proofs.UnmentionedMacros
import CBoundary.Proofs.Signatures
import CBoundary.Proofs.StatementSplit
import CBoundary.Proofs.DeclaratorList
import CBoundary.Proofs.LeadingVariables
import CBoundary.Proofs.RecordHead
import CBoundary.Proofs.InlineRecord
import CBoundary.Proofs.TypedefList
import CBoundary.Proofs.RecordTree
import CBoundary.Proofs.DefinitionHead
import CBoundary.Proofs.DefinitionSpans
import CBoundary.Proofs.LineContinuation
import CBoundary.Proofs.TokenRole
import CBoundary.Proofs.Relocation
import CBoundary.Proofs.AnnotatedStatement
import CBoundary.Proofs.ConfiguredAnnotation
import CBoundary.Proofs.SpacedText
import CBoundary.Proofs.LexemeSteps
import CBoundary.Proofs.BlankedText
import CBoundary.Proofs.CommentDepth
import CBoundary.Proofs.GivenDefinition
import CBoundary.Proofs.FramedMention
import CBoundary.Proofs.NestedFailure
import CBoundary.Proofs.DirectiveLine
import CBoundary.Proofs.ReplayedReports
import CBoundary.Proofs.SourceOrder
import CBoundary.Proofs.PathParts
import CBoundary.Proofs.FilePlace
import CBoundary.Proofs.CacheEntry
import CBoundary.Proofs.TypedefChain
import CBoundary.Proofs.SinkAccounting
import CBoundary.Proofs.ConflictSymmetry
import CBoundary.Proofs.ResolvedType
import CBoundary.Proofs.AlikeDeclarators
import CBoundary.Proofs.DeclaratorComment
import CBoundary.Proofs.SpelledOptions
import CBoundary.Proofs.ModuleAttribution
import CBoundary.Proofs.LineTable
import CBoundary.Proofs.EscapedLiteral
import CBoundary.Proofs.CursorSlice
import CBoundary.Proofs.CursorSubstitution
import CBoundary.Proofs.CursorDefinition
import CBoundary.Proofs.CursorExpansion
