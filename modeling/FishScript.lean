import FishScript.CommandLine.Arguments
import FishScript.CommandLine.Failure
import FishScript.CommandLine.Run
import FishScript.Config.Basic
import FishScript.Config.File
import FishScript.Diagnostic.Basic
import FishScript.Diagnostic.Code
import FishScript.Document
import FishScript.Files.Bytes
import FishScript.Files.Scripts
import FishScript.Files.Tree
import FishScript.Grammar.Nesting
import FishScript.Grammar.Parser
import FishScript.Grammar.Phrase
import FishScript.Grammar.Terminal
import FishScript.Ignore.Glob
import FishScript.Ignore.Level
import FishScript.Ignore.Rule
import FishScript.Json.Value
import FishScript.Main
import FishScript.Path
import FishScript.Proofs.CommandLine.Outcome
import FishScript.Proofs.CommandLine.Rendering
import FishScript.Proofs.Config.Files
import FishScript.Proofs.Config.Layers
import FishScript.Proofs.Diagnostic.Naming
import FishScript.Proofs.Files.Autoloading
import FishScript.Proofs.Grammar.Agreement
import FishScript.Proofs.Grammar.BlockScan
import FishScript.Proofs.Grammar.Brackets
import FishScript.Proofs.Grammar.Closing
import FishScript.Proofs.Grammar.Comments
import FishScript.Proofs.Grammar.Depth
import FishScript.Proofs.Grammar.Ends
import FishScript.Proofs.Grammar.FoldedRuns
import FishScript.Proofs.Grammar.Folding
import FishScript.Proofs.Grammar.Headers
import FishScript.Proofs.Grammar.Keeping
import FishScript.Proofs.Grammar.Labels
import FishScript.Proofs.Grammar.Limit
import FishScript.Proofs.Grammar.Lossless
import FishScript.Proofs.Grammar.Neighbours
import FishScript.Proofs.Grammar.OpenBlocks
import FishScript.Proofs.Grammar.Rules
import FishScript.Proofs.Grammar.Runs
import FishScript.Proofs.Grammar.Sequence
import FishScript.Proofs.Grammar.Setting
import FishScript.Proofs.Grammar.Shape
import FishScript.Proofs.Grammar.Spacing
import FishScript.Proofs.Grammar.Starts
import FishScript.Proofs.Lists
import FishScript.Proofs.Program.Branching
import FishScript.Proofs.Program.Drawing
import FishScript.Proofs.Program.Layout
import FishScript.Proofs.Program.Limit
import FishScript.Proofs.Program.Reading
import FishScript.Proofs.Program.RoundTrip
import FishScript.Proofs.Program.Spelling
import FishScript.Proofs.Program.Syntax
import FishScript.Proofs.Rules.Accounting
import FishScript.Proofs.Rules.Anchors
import FishScript.Proofs.Rules.Balance
import FishScript.Proofs.Rules.Chaining
import FishScript.Proofs.Rules.Closing
import FishScript.Proofs.Rules.Comments
import FishScript.Proofs.Rules.Execution
import FishScript.Proofs.Rules.OneWalk
import FishScript.Proofs.Rules.Openings
import FishScript.Proofs.Rules.Printing
import FishScript.Proofs.Rules.Returning
import FishScript.Proofs.Rules.Scripts
import FishScript.Proofs.Rules.Sequence
import FishScript.Proofs.Rules.Setting
import FishScript.Proofs.Rules.SourceOrder
import FishScript.Proofs.Rules.Structure
import FishScript.Proofs.Rules.Trailing
import FishScript.Proofs.Rules.Validation
import FishScript.Proofs.TestFile.Blocks
import FishScript.Proofs.TestFile.Listings
import FishScript.Proofs.TestFile.Wrapping
import FishScript.Proofs.Text.Lines
import FishScript.Proofs.Text.Order
import FishScript.Proofs.Text.Positions
import FishScript.Proofs.Text.Quoting
import FishScript.Proofs.Token.Appending
import FishScript.Proofs.Token.Joining
import FishScript.Proofs.Token.LineEndings
import FishScript.Proofs.Token.Lines
import FishScript.Proofs.Token.Munching
import FishScript.Proofs.Token.Order
import FishScript.Proofs.Token.Patterns
import FishScript.Proofs.Token.Printing
import FishScript.Proofs.Token.Returns
import FishScript.Proofs.Token.Slices
import FishScript.Proofs.Token.Uncommenting
import FishScript.Proofs.Toml.Tables
import FishScript.Proofs.Tree.Dump
import FishScript.Proofs.Tree.Extent
import FishScript.Proofs.Tree.Links
import FishScript.Proofs.Tree.Matching
import FishScript.Proofs.Tree.Numbering
import FishScript.Proofs.Tree.Pieces
import FishScript.Proofs.Tree.Planting
import FishScript.Proofs.Tree.Recording
import FishScript.Proofs.Tree.Shape
import FishScript.Proofs.Tree.Shifting
import FishScript.Proofs.Tree.Sites
import FishScript.Proofs.Tree.Spanning
import FishScript.Proofs.Tree.Walk
import FishScript.Report
import FishScript.Rules.Balance
import FishScript.Rules.Finding
import FishScript.Rules.Names
import FishScript.Rules.Naming
import FishScript.Rules.Pass
import FishScript.Rules.Reachability
import FishScript.Rules.Validator
import FishScript.Rules.Variables
import FishScript.Rules.Wording
import FishScript.Span
import FishScript.TestFile.Block
import FishScript.TestFile.Run
import FishScript.TestFile.Summary
import FishScript.Text.Basic
import FishScript.Text.Quoted
import FishScript.Text.Unprintable
import FishScript.Token.Basic
import FishScript.Token.Lexer
import FishScript.Toml.Reader
import FishScript.Toml.Value
import FishScript.Tree.Arena
import FishScript.Tree.Basic
import FishScript.Tree.Builder
import FishScript.Tree.Dump
import FishScript.Tree.Kind
