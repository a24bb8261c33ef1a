import StyleFlags.Condition.Basic
import StyleFlags.Condition.Build
import StyleFlags.Condition.Evaluate
import StyleFlags.Condition.Normal
import StyleFlags.Condition.Read
import StyleFlags.Digest
import StyleFlags.Directive
import StyleFlags.Error
import StyleFlags.Expansion
import StyleFlags.Expression.Basic
import StyleFlags.Expression.Read
import StyleFlags.Fact
import StyleFlags.Guard
import StyleFlags.Key
import StyleFlags.Literal
import StyleFlags.Name
import StyleFlags.Number.Basic
import StyleFlags.Number.Decimal
import StyleFlags.Number.Shortest
import StyleFlags.Operator
import StyleFlags.Ordered
import StyleFlags.Registry
import StyleFlags.Rule
import StyleFlags.Sheet
import StyleFlags.Snapshot.Bytes
import StyleFlags.Snapshot.Codec
import StyleFlags.Snapshot.Layout
import StyleFlags.Snapshot.Valid
import StyleFlags.Text.Cursor
import StyleFlags.Text.Span
import StyleFlags.Text.Token
import StyleFlags.Value
import StyleFlags.Proofs.NormalForm
import StyleFlags.Proofs.NumberText
import StyleFlags.Proofs.Source
import StyleFlags.Proofs.Table
import StyleFlags.Proofs.Names
import StyleFlags.Proofs.Registered
import StyleFlags.Proofs.States
import StyleFlags.Proofs.Keys
import StyleFlags.Proofs.Compiled
import StyleFlags.Proofs.Runs
import StyleFlags.Proofs.Declared
import StyleFlags.Proofs.Blocks
import StyleFlags.Proofs.Flags
import StyleFlags.Proofs.Dependents
import StyleFlags.Proofs.References
import StyleFlags.Proofs.Guards
import StyleFlags.Proofs.Verdict
import StyleFlags.Proofs.Branches
import StyleFlags.Proofs.Codecs
import StyleFlags.Proofs.Restored
import StyleFlags.Proofs.Damaged
import StyleFlags.Proofs.Places
import StyleFlags.Proofs.Ledger
import StyleFlags.Proofs.Grammar
import StyleFlags.Proofs.Parsing
import StyleFlags.Proofs.Reassociation
import StyleFlags.Proofs.ConditionNames
import StyleFlags.Proofs.Lexemes
import StyleFlags.Proofs.RoundTrip
import StyleFlags.Proofs.Folding
import StyleFlags.Proofs.Expanding
import StyleFlags.Proofs.Seams
import StyleFlags.Proofs.Occurrences
import StyleFlags.Proofs.Resolved
import StyleFlags.Proofs.Emitted
import StyleFlags.Proofs.Nodes
import StyleFlags.Proofs.Perfect
import StyleFlags.Proofs.Arrival
import StyleFlags.Proofs.Shown
import StyleFlags.Proofs.Ownership
import StyleFlags.Proofs.Agreement
import StyleFlags.Proofs.Framing
import StyleFlags.Proofs.Closed
import StyleFlags.Proofs.Parts
import StyleFlags.Proofs.Unbroken
import StyleFlags.Proofs.Untouched
import StyleFlags.Proofs.Expressions
import StyleFlags.Proofs.ExpressionText
import StyleFlags.Proofs.Boundaries
import StyleFlags.Proofs.Coverage
import StyleFlags.Proofs.Spans
import StyleFlags.Proofs.Buffer
import StyleFlags.Proofs.Crossing
import StyleFlags.Proofs.Calls
