import CausalRules.CommandLine.Arguments
import CausalRules.CommandLine.Libraries
import CausalRules.CommandLine.Logger
import CausalRules.CommandLine.Run
import CausalRules.Compile
import CausalRules.Compile.Events
import CausalRules.Document
import CausalRules.Document.Bare
import CausalRules.Document.Cursor
import CausalRules.Document.Moment
import CausalRules.Document.Quoted
import CausalRules.Document.Read
import CausalRules.EmitError
import CausalRules.Facility.Block
import CausalRules.Facility.Slot
import CausalRules.Facility.Text
import CausalRules.Failure
import CausalRules.FileTree
import CausalRules.Host
import CausalRules.Imitation.Method
import CausalRules.Imitation.Scope
import CausalRules.Imitation.Signature
import CausalRules.Imitation.Text
import CausalRules.Json
import CausalRules.Limits
import CausalRules.Log.Event
import CausalRules.Log.Filter
import CausalRules.Log.Level
import CausalRules.Log.Stamp
import CausalRules.Main
import CausalRules.Message
import CausalRules.Path
import CausalRules.Proofs.Precedence
import CausalRules.Proofs.Pruning
import CausalRules.Proofs.Reading.Steps
import CausalRules.Proofs.Reading.Tokens
import CausalRules.Proofs.Rule
import CausalRules.ReadError
import CausalRules.Reader
import CausalRules.Rule
import CausalRules.Rule.Json
import CausalRules.Rule.Read
import CausalRules.Script.Line
import CausalRules.Script.Literal
import CausalRules.Script.Name
import CausalRules.Script.Sign
import CausalRules.Settings
import CausalRules.Settings.Read
import CausalRules.Settings.Validate
import CausalRules.Target
import CausalRules.Template
import CausalRules.Template.Builtin
import CausalRules.Text.Blank
import CausalRules.Text.Digits
import CausalRules.Text.Position
import CausalRules.Text.Replace
import CausalRules.Text.Split
import CausalRules.Token
import CausalRules.Token.Scan
import CausalRules.World
import CausalRules.Proofs.Reading.Conditions
import CausalRules.Proofs.Meaning
import CausalRules.Proofs.Facility.Run
import CausalRules.Proofs.Facility.Blocks
import CausalRules.Proofs.Imitation.Run
import CausalRules.Proofs.Imitation.Parameters
import CausalRules.Proofs.Imitation.Scopes
import CausalRules.Proofs.Imitation.Calls
import CausalRules.Proofs.Imitation.Methods
import CausalRules.Proofs.Imitation.Guards
import CausalRules.Proofs.Replay
import CausalRules.Proofs.Imitation.Checks
import CausalRules.Proofs.Grammar.Completeness
import CausalRules.Proofs.Facility.Tails
import CausalRules.Proofs.Imitation.Members
import CausalRules.Proofs.Layout.Scripts
import CausalRules.Proofs.Imitation.Names
import CausalRules.Proofs.Facility.Names
import CausalRules.Proofs.Grammar.Canonical
import CausalRules.Proofs.Grammar.Lossless
import CausalRules.Proofs.InlineCode
import CausalRules.Proofs.Reading.Printed
import CausalRules.Proofs.Grammar.WellFormed
import CausalRules.Proofs.Grammar.Image
import CausalRules.Proofs.Imitation.Grouping
import CausalRules.Proofs.Imitation.Independence
import CausalRules.Proofs.CommandLine.Checking
import CausalRules.Proofs.World
import CausalRules.Proofs.FileTree
import CausalRules.Proofs.Path
import CausalRules.Proofs.CommandLine.Compiling
import CausalRules.Proofs.CommandLine.Agreement
import CausalRules.Proofs.Imitation.Growth
import CausalRules.Proofs.Reading.Gaps
import CausalRules.Proofs.Script.Rendered
import CausalRules.Proofs.Facility.Spelling
import CausalRules.Proofs.Text.Replace
import CausalRules.Proofs.Template
import CausalRules.Proofs.FileTree.Places
import CausalRules.Proofs.FileTree.Replacing
import CausalRules.Proofs.Path.Parts
import CausalRules.Proofs.FileTree.Directories
import CausalRules.Proofs.CommandLine.Settling
import CausalRules.Proofs.Reading.Faults
import CausalRules.Proofs.Diagnostics
import CausalRules.Proofs.Renaming
import CausalRules.Proofs.Renaming.Facility
import CausalRules.Proofs.Renaming.Imitation
import CausalRules.Proofs.Renaming.Scripts
import CausalRules.Proofs.Safety
import CausalRules.Proofs.Safety.Bytes
import CausalRules.Proofs.Safety.Scanning
import CausalRules.Proofs.Safety.Reading
import CausalRules.Proofs.Safety.Blocks
import CausalRules.Proofs.Safety.Methods
import CausalRules.Proofs.Safety.Scripts
import CausalRules.Proofs.FileTree.Contents
import CausalRules.Proofs.CommandLine.Logging
import CausalRules.Proofs.CommandLine.Starting
import CausalRules.Proofs.CommandLine.Commuting
import CausalRules.Proofs.Backstops
import CausalRules.Proofs.Script.Numerals
import CausalRules.Proofs.Message
import CausalRules.Proofs.CommandLine.Listing
import CausalRules.Proofs.Nesting
import CausalRules.Proofs.Reading.Limits
import CausalRules.Proofs.Imitation.Signatures
import CausalRules.Proofs.Facility.Expressible
import CausalRules.Proofs.Spelling
import CausalRules.Proofs.Script.Indentation
import CausalRules.Proofs.Imitation.Spelling
import CausalRules.Proofs.Indentation
import CausalRules.Proofs.Script.Words
import CausalRules.Proofs.Imitation.Shadowing
import CausalRules.Proofs.Settings
import CausalRules.Proofs.Grammar.Places
import CausalRules.Proofs.Reading.Finality
import CausalRules.Proofs.Facility.Composition
import CausalRules.Proofs.Text.Position
import CausalRules.Proofs.Script.Literals
import CausalRules.Proofs.Imitation.Points
import CausalRules.Proofs.Imitation.Definitions
import CausalRules.Proofs.Imitation.Trails
import CausalRules.Proofs.Script.Tuples
import CausalRules.Proofs.Facility.Tuples
import CausalRules.Proofs.Imitation.Tuples
import CausalRules.Proofs.Imitation.Execution
import CausalRules.Proofs.Imitation.Returns
import CausalRules.Proofs.Facility.References
