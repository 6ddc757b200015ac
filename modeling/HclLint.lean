import HclLint.Text.Pieces
import HclLint.Text.Path
import HclLint.Text.Identifier
import HclLint.Text.Blank
import HclLint.Text.Source
import HclLint.Hcl.Reader
import HclLint.Model.Configuration
import HclLint.Eval.Resolve
import HclLint.Json.Value
import HclLint.Json.Reader
import HclLint.Json.Printer
import HclLint.Files.Tree
import HclLint.Files.Task
import HclLint.Cloud.Client
import HclLint.Cloud.Snapshot
import HclLint.Lint.Detector
import HclLint.Lint.Registry
import HclLint.Lint.Rules
import HclLint.Lint.Probe
import HclLint.Report.Style
import HclLint.Report.Format
import HclLint.Yaml.Node
import HclLint.Yaml.Scalar
import HclLint.Yaml.Reader
import HclLint.Command.Usage
import HclLint.Command.Arguments
import HclLint.Command.Failure
import HclLint.Command.Settings
import HclLint.Command.Workspace
import HclLint.Command.Linter
import HclLint.Command.LogFilter
import HclLint.Command.Program
import HclLint.Main
import HclLint.Proofs.Entries
import HclLint.Proofs.Gathering
import HclLint.Proofs.Conversion.Attributes
import HclLint.Proofs.Merge.Declared
import HclLint.Proofs.Merge.Overriding
import HclLint.Proofs.Merge.Holders
import HclLint.Proofs.Merge.Reference
import HclLint.Proofs.Merge.Conservation
import HclLint.Proofs.Merge.Acceptance
import HclLint.Proofs.Merge.Placement
import HclLint.Proofs.Eval.Adequacy
import HclLint.Proofs.Eval.Entering
import HclLint.Proofs.Eval.Termination
import HclLint.Proofs.Eval.Cycle
import HclLint.Proofs.Eval.Transparency
import HclLint.Proofs.Eval.ListDerivation
import HclLint.Proofs.Eval.ListChain
import HclLint.Proofs.Eval.Exclusion
import HclLint.Proofs.Eval.Strip
import HclLint.Proofs.Eval.Heredoc
import HclLint.Proofs.Hcl.Listing
import HclLint.Proofs.Hcl.Literal
import HclLint.Proofs.Hcl.Reference
import HclLint.Proofs.Hcl.Advance
import HclLint.Proofs.Hcl.Cutting
import HclLint.Proofs.Hcl.Quoted
import HclLint.Proofs.Hcl.Ends
import HclLint.Proofs.Hcl.Extent
import HclLint.Proofs.Hcl.Structure
import HclLint.Proofs.Hcl.Heredoc
import HclLint.Proofs.Hcl.Refusing
import HclLint.Proofs.Hcl.Unplaced
import HclLint.Proofs.Hcl.Rereading
import HclLint.Proofs.Hcl.Index
import HclLint.Proofs.Eval.Element
import HclLint.Proofs.Eval.Verbatim
import HclLint.Proofs.Text.Position
import HclLint.Proofs.Text.Lines
import HclLint.Proofs.Text.ByteOrder
import HclLint.Proofs.Text.FileName
import HclLint.Proofs.Merge.Naming
import HclLint.Proofs.Report.Grouping
import HclLint.Proofs.Report.IssueLines
import HclLint.Proofs.Provenance.Value
import HclLint.Proofs.Provenance.Configuration
import HclLint.Proofs.Provenance.Agreement
import HclLint.Proofs.Provenance.Alone
import HclLint.Proofs.Provenance.Issue
import HclLint.Proofs.Lint.Phase
import HclLint.Proofs.Lint.Run
import HclLint.Proofs.Lint.LifeCycle
import HclLint.Proofs.Lint.Builtin
import HclLint.Proofs.Lint.Violations
import HclLint.Proofs.Lint.Elements
import HclLint.Proofs.Lint.Dependence
import HclLint.Proofs.Eval.History
import HclLint.Proofs.Eval.Reach
import HclLint.Proofs.Lint.Unreached
import HclLint.Proofs.Files.Result
import HclLint.Proofs.Command.Precedence
import HclLint.Proofs.Command.CloudFailure
import HclLint.Proofs.Command.Selection
import HclLint.Proofs.Hcl.Window.Decided
import HclLint.Proofs.Hcl.Window.Tracks
import HclLint.Proofs.Hcl.Window.Blanks
import HclLint.Proofs.Hcl.Window.Text
import HclLint.Proofs.Hcl.Window.Template
import HclLint.Proofs.Hcl.Window.Quoted
import HclLint.Proofs.Hcl.Window.Expression
import HclLint.Proofs.Hcl.Breaks
import HclLint.Proofs.Hcl.Composition
import HclLint.Proofs.Hcl.Congruence
import HclLint.Proofs.Hcl.Enclosed
import HclLint.Proofs.Hcl.Members
import HclLint.Proofs.Eval.Unplaced
import HclLint.Proofs.Eval.Composition
import HclLint.Proofs.Provenance.Spelling
import HclLint.Proofs.Eval.Path
import HclLint.Proofs.Conversion.Occurrences
import HclLint.Proofs.Conversion.Unplaced
import HclLint.Proofs.Conversion.Body
import HclLint.Proofs.Conversion.ObjectLiteral
import HclLint.Proofs.Conversion.Retention
import HclLint.Proofs.Merge.Action
import HclLint.Proofs.Merge.Collapse
import HclLint.Proofs.Merge.Conflict
