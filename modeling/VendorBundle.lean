import VendorBundle.Table
import VendorBundle.Text
import VendorBundle.Text.Utf8
import VendorBundle.Path
import VendorBundle.Digest
import VendorBundle.Json
import VendorBundle.Json.Parser
import VendorBundle.Json.Printer
import VendorBundle.Files
import VendorBundle.Files.Memory
import VendorBundle.Files.Disk
import VendorBundle.Json.Codec
import VendorBundle.Tree.Entry
import VendorBundle.Tree.Patch
import VendorBundle.Tree.Listing
import VendorBundle.Specifier
import VendorBundle.Manifest
import VendorBundle.Resolver
import VendorBundle.Package
import VendorBundle.Version
import VendorBundle.Registry
import VendorBundle.Bundle.Policy
import VendorBundle.Script.Language
import VendorBundle.Script.Token
import VendorBundle.Script.Lexer
import VendorBundle.Script.Outline
import VendorBundle.Script.Parse
import VendorBundle.Script.Target
import VendorBundle.Script.Grammar.Patterns
import VendorBundle.Script.Grammar.Types
import VendorBundle.Script.Grammar.Functions
import VendorBundle.Script.Grammar.Objects
import VendorBundle.Script.Grammar.Classes
import VendorBundle.Script.Grammar.Jsx
import VendorBundle.Script.Grammar.Expressions
import VendorBundle.Script.Grammar.Declarations
import VendorBundle.Script.Grammar.Modules
import VendorBundle.Script.Grammar.Statements
import VendorBundle.Script.Program
import VendorBundle.Import
import VendorBundle.Script.Imports
import VendorBundle.Memo
import VendorBundle.ImportIndex
import VendorBundle.Bundle.Plan
import VendorBundle.Bundle.Split
import VendorBundle.Pipeline
import VendorBundle.Merge.Splice
import VendorBundle.Merge.Options
import VendorBundle.Merge.Overlay
import VendorBundle.Merge.Build
import VendorBundle.Duration
import VendorBundle.Toml.Document
import VendorBundle.Toml.Parser
import VendorBundle.Toml.Printer
import VendorBundle.Text.Blank
import VendorBundle.Config.Basic
import VendorBundle.Config.Form
import VendorBundle.Config.Check
import VendorBundle.Json.Overlay
import VendorBundle.Config.Environment
import VendorBundle.Config.Load
import VendorBundle.Text.Number
import VendorBundle.Command.Basic
import VendorBundle.Command.Arguments
import VendorBundle.Command.Session
import VendorBundle.Command.Run
import VendorBundle.Main
import VendorBundle.Proofs.Table
import VendorBundle.Proofs.Text.Split
import VendorBundle.Proofs.Tree.Order
import VendorBundle.Proofs.Tree.Normal
import VendorBundle.Proofs.Tree.Diff
import VendorBundle.Proofs.Tree.Replay
import VendorBundle.Proofs.Path.Components
import VendorBundle.Proofs.Path.Places
import VendorBundle.Proofs.Effect
import VendorBundle.Proofs.Order
import VendorBundle.Proofs.Memory.Nodes
import VendorBundle.Proofs.Memory.History
import VendorBundle.Proofs.Tree.Listing
import VendorBundle.Proofs.Merge.Feeds
import VendorBundle.Proofs.Merge.Overlay
import VendorBundle.Proofs.Merge.View
import VendorBundle.Proofs.Merge.Content
import VendorBundle.Proofs.Memory.Effect
import VendorBundle.Proofs.Memory.Alters
import VendorBundle.Proofs.Merge.Steps
import VendorBundle.Proofs.Merge.Frame
import VendorBundle.Proofs.Merge.Carry
import VendorBundle.Proofs.Merge.Inputs
import VendorBundle.Proofs.Merge.Unchanged
import VendorBundle.Proofs.Merge.Outcome
import VendorBundle.Proofs.Merge.Evaluate
import VendorBundle.Proofs.Merge.Result
import VendorBundle.Proofs.Merge.Restored
import VendorBundle.Proofs.Merge.Fresh
import VendorBundle.Proofs.Merge.Incremental
import VendorBundle.Proofs.Path.Same
import VendorBundle.Proofs.Resolver.Search
import VendorBundle.Proofs.Resolver.Learning
import VendorBundle.Proofs.Bundle.Repeat
import VendorBundle.Proofs.Index.Collect
import VendorBundle.Proofs.Index.Scratch
import VendorBundle.Proofs.Pipeline.Build
import VendorBundle.Proofs.Pipeline.Incremental
import VendorBundle.Proofs.Index.Incremental
import VendorBundle.Proofs.Bundle.Gather
import VendorBundle.Proofs.Resolver.Consulted
import VendorBundle.Proofs.Bundle.Assign
import VendorBundle.Proofs.Bundle.Faithful
import VendorBundle.Proofs.Bundle.Conflicts
import VendorBundle.Proofs.Merge.Partway
import VendorBundle.Proofs.Merge.Replay
import VendorBundle.Proofs.Merge.Reach
import VendorBundle.Proofs.Merge.Twice
import VendorBundle.Proofs.Merge.Noticed
import VendorBundle.Proofs.Text.Specifier
import VendorBundle.Proofs.Resolver.Nearest
import VendorBundle.Proofs.Bundle.Accepted
import VendorBundle.Proofs.Bundle.Reordered
import VendorBundle.Proofs.Bundle.Versions
import VendorBundle.Proofs.Bundle.Excluded
import VendorBundle.Proofs.Pipeline.Faulty
import VendorBundle.Proofs.Resolver.Failures
import VendorBundle.Proofs.Resolver.Answers
import VendorBundle.Proofs.Resolver.Session
import VendorBundle.Proofs.Resolver.Schedule
import VendorBundle.Proofs.Bundle.Told
import VendorBundle.Proofs.Bundle.InTurn
import VendorBundle.Proofs.Bundle.Gathered
import VendorBundle.Proofs.Bundle.Concordant
import VendorBundle.Proofs.Pipeline.Again
import VendorBundle.Proofs.Pipeline.Repaired
import VendorBundle.Proofs.Pipeline.Installed
import VendorBundle.Proofs.Bundle.Remembered
import VendorBundle.Proofs.Bundle.Declared
import VendorBundle.Proofs.Config.Checked
import VendorBundle.Proofs.Json.Overlay
import VendorBundle.Proofs.Config.Layers
import VendorBundle.Proofs.Config.Manifest
import VendorBundle.Proofs.Package.Aliases
import VendorBundle.Proofs.Package.Template
import VendorBundle.Proofs.Registry.Order
import VendorBundle.Proofs.Registry.Election
import VendorBundle.Proofs.Tree.Exact
import VendorBundle.Proofs.Text.Pattern
import VendorBundle.Proofs.Merge.Splice
import VendorBundle.Proofs.Merge.Untouched
import VendorBundle.Proofs.Resolver.Precise
import VendorBundle.Proofs.Bundle.Relative
import VendorBundle.Proofs.Bundle.Templates
import VendorBundle.Proofs.Script.Pieces
import VendorBundle.Proofs.Merge.Landing
import VendorBundle.Proofs.Registry.Equal
import VendorBundle.Proofs.Registry.SemVer
import VendorBundle.Proofs.Resolver.Sequence
import VendorBundle.Proofs.Path.Clean
import VendorBundle.Proofs.Resolver.Inside
import VendorBundle.Proofs.Tree.Complete
import VendorBundle.Proofs.Tree.Stepwise
import VendorBundle.Proofs.Merge.Layers
import VendorBundle.Proofs.Merge.Mapped
import VendorBundle.Proofs.Merge.Stages
import VendorBundle.Proofs.Merge.Turns
import VendorBundle.Proofs.Merge.Counted
import VendorBundle.Proofs.Memory.Housed
import VendorBundle.Proofs.Memory.Written
import VendorBundle.Proofs.Tree.Tokens
import VendorBundle.Proofs.Package.Subpaths
import VendorBundle.Proofs.Script.Collected
import VendorBundle.Proofs.Tree.Blocks
import VendorBundle.Proofs.Tree.Latest
import VendorBundle.Proofs.Json.Text
import VendorBundle.Proofs.Json.Forms
import VendorBundle.Proofs.Json.Records
