import LimLang.Text.Blank
import LimLang.Text.Invisible
import LimLang.Text.Quoted
import LimLang.Text.Slice
import LimLang.Text.Numeral
import LimLang.Text.Utf8
import LimLang.Datum
import LimLang.MachineInt
import LimLang.Token
import LimLang.Lexeme
import LimLang.Source
import LimLang.Message
import LimLang.Ansi
import LimLang.Template.Fault
import LimLang.Template.Format
import LimLang.Template.Facet
import LimLang.Template
import LimLang.Fault
import LimLang.Diagnostic
import LimLang.Scan
import LimLang.Tree
import LimLang.Tree.Reach
import LimLang.Tree.Render
import LimLang.Tree.Display
import LimLang.Tree.Same
import LimLang.Parse.Cursor
import LimLang.Parse.Violation
import LimLang.Parse.State
import LimLang.Parse.Expression
import LimLang.Parse.Statement
import LimLang.Parse.Program
import LimLang.Value
import LimLang.Writing
import LimLang.World
import LimLang.Evaluation
import LimLang.Reporter
import LimLang.Session
import LimLang.Shell
import LimLang.Options
import LimLang.Interpreter
import LimLang.Main
import LimLang.Proofs.Outcome
import LimLang.Proofs.Reading
import LimLang.Proofs.Grammar
import LimLang.Proofs.ExpressionSoundness
import LimLang.Proofs.Halting
import LimLang.Proofs.ExpressionCompleteness
import LimLang.Proofs.StatementSoundness
import LimLang.Proofs.SimpleStatements
import LimLang.Proofs.StatementCompleteness
import LimLang.Proofs.Acceptance
import LimLang.Proofs.Relexing
import LimLang.Proofs.WellFormed
import LimLang.Proofs.RoundTrip
import LimLang.Proofs.RenderedExpressions
import LimLang.Proofs.Exits
import LimLang.Proofs.Refinement
import LimLang.Proofs.SoundValues
import LimLang.Proofs.Safety
import LimLang.Proofs.Correspondence
import LimLang.Proofs.Accord
import LimLang.Proofs.FrameLaw
import LimLang.Proofs.ParsedTrees
import LimLang.Proofs.SessionHistory
import LimLang.Proofs.Output
import LimLang.Proofs.Reporting
import LimLang.Proofs.FileMode
import LimLang.Proofs.JoinedText
import LimLang.Proofs.Seam
import LimLang.Proofs.BeforeSeam
import LimLang.Proofs.Concatenation
import LimLang.Proofs.IntegerRange
import LimLang.Proofs.SessionSteps
import LimLang.Proofs.ShellHistory
import LimLang.Proofs.Sight
import LimLang.Proofs.Tandem
import LimLang.Proofs.TandemParsers
import LimLang.Proofs.Pieces
import LimLang.Proofs.RenderedLines
import LimLang.Proofs.StatementCuts
import LimLang.Proofs.ShellLines
import LimLang.Proofs.Strata
import LimLang.Proofs.LexemeShapes
import LimLang.Proofs.Reparsing
import LimLang.Proofs.Pairing
import LimLang.Proofs.Tiling
import LimLang.Proofs.Lockstep
import LimLang.Proofs.TwinRuns
import LimLang.Proofs.Braces
import LimLang.Proofs.Courses
import LimLang.Proofs.CourseParsers
import LimLang.Proofs.ClosedBlocks
import LimLang.Proofs.MalformedLines
import LimLang.Proofs.WholeStream
import LimLang.Proofs.BracketCounts
import LimLang.Proofs.Excerpts
import LimLang.Proofs.Underlining
import LimLang.Proofs.Following
import LimLang.Proofs.LooseTokens
import LimLang.Proofs.LooseParsers
import LimLang.Proofs.LooseGroups
import LimLang.Proofs.MachineArithmetic
import LimLang.Proofs.TokenPlaces
import LimLang.Proofs.Layout
import LimLang.Proofs.Moments
import LimLang.Proofs.Repetition
import LimLang.Proofs.Identity
import LimLang.Proofs.UnmentionedNames
import LimLang.Proofs.InferredTypes
import LimLang.Proofs.Guarding
import LimLang.Proofs.ScopeChains
import LimLang.Proofs.WithoutFunctions
import LimLang.Proofs.Scripts
import LimLang.Proofs.ScriptedParsers
