import Monkey.CommandLine
import Monkey.Computation
import Monkey.Console
import Monkey.Editor
import Monkey.Eval
import Monkey.Eval.Attempt
import Monkey.Eval.Call
import Monkey.Eval.Quote
import Monkey.Fault
import Monkey.FileTree
import Monkey.Highlight
import Monkey.Host
import Monkey.Macros
import Monkey.Main
import Monkey.Node
import Monkey.Node.Equality
import Monkey.Node.Parser
import Monkey.Node.Render
import Monkey.Node.Rebuild
import Monkey.Progress
import Monkey.Progress.Drive
import Monkey.Session
import Monkey.Settings
import Monkey.Source
import Monkey.Store
import Monkey.Table
import Monkey.Text.Blank
import Monkey.Text.Digit
import Monkey.Text.Lines
import Monkey.Text.Numeral
import Monkey.Text.Printable
import Monkey.Text.Quoted
import Monkey.Token
import Monkey.Token.Lexer
import Monkey.Value
import Monkey.Value.Inspect
import Monkey.Value.Operators
import Monkey.Value.Splice
import Monkey.Proofs.Judgement
import Monkey.Proofs.Dialogue
import Monkey.Proofs.Visit
import Monkey.Proofs.Calls
import Monkey.Proofs.Subtrees
import Monkey.Proofs.WellSorted
import Monkey.Proofs.Every
import Monkey.Proofs.Splicing
import Monkey.Proofs.Rebuilding
import Monkey.Proofs.Upkeep
import Monkey.Proofs.Regime
import Monkey.Proofs.Frames
import Monkey.Proofs.Expansion
import Monkey.Proofs.History
import Monkey.Proofs.Markers
import Monkey.Proofs.StoredErrors
import Monkey.Proofs.ErrorContexts
import Monkey.Proofs.Templates
import Monkey.Proofs.Grammar
import Monkey.Proofs.ParserSound
import Monkey.Proofs.ParserComplete
import Monkey.Proofs.Words
import Monkey.Proofs.Legible
import Monkey.Proofs.RoundTrip
import Monkey.Proofs.Literals
import Monkey.Proofs.Discipline
import Monkey.Proofs.Jump
import Monkey.Proofs.MarkerPassing
import Monkey.Proofs.Reporting
import Monkey.Proofs.Conduct
import Monkey.Proofs.Unwritable
import Monkey.Proofs.SortSafety
import Monkey.Proofs.Pointwise
import Monkey.Proofs.Matching
import Monkey.Proofs.Pairing
import Monkey.Proofs.Correspondence
import Monkey.Proofs.Correlation
import Monkey.Proofs.TwinScopes
import Monkey.Proofs.UnquoteFree
import Monkey.Proofs.Cutting
import Monkey.Proofs.ViablePrefix
import Monkey.Proofs.Effects
import Monkey.Proofs.PairedExpansion
import Monkey.Proofs.Renaming
import Monkey.Proofs.Composition
import Monkey.Proofs.DataText
import Monkey.Proofs.Hiding
import Monkey.Proofs.Interruptions
import Monkey.Proofs.Ending
import Monkey.Proofs.FunctionFree
import Monkey.Proofs.ExpansionEnds
import Monkey.Proofs.Veiling
import Monkey.Proofs.VeiledRuns
import Monkey.Proofs.LetBlocks
import Monkey.Proofs.Logging
import Monkey.Proofs.LiteralArgument
import Monkey.Proofs.Inventory
import Monkey.Proofs.Sameness
import Monkey.Proofs.Growth
import Monkey.Proofs.Operations
import Monkey.Proofs.Environment
import Monkey.Proofs.Provenance
import Monkey.Proofs.Forgetting
import Monkey.Proofs.Terminals
import Monkey.Proofs.Partition
import Monkey.Proofs.Bracketing
import Monkey.Proofs.Weight
import Monkey.Proofs.Spelling
import Monkey.Proofs.Cleanup
import Monkey.Proofs.Layout
import Monkey.Proofs.ChildByChild
import Monkey.Proofs.Traversal
import Monkey.Proofs.Refusals
import Monkey.Proofs.Readback
import Monkey.Proofs.Colouring
import Monkey.Proofs.HashLiterals
import Monkey.Proofs.SwappedBranches
import Monkey.Proofs.Keeping
import Monkey.Proofs.Tracing
import Monkey.Proofs.LibraryMap
import Monkey.Proofs.Division
import Monkey.Proofs.DeepLog
import Monkey.Proofs.LogLevel
