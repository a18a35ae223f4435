import CommandGrammar.Argument
import CommandGrammar.Argument.Choice
import CommandGrammar.Argument.Fraction
import CommandGrammar.Argument.Hint
import CommandGrammar.Argument.Integer
import CommandGrammar.Argument.Number
import CommandGrammar.Argument.Reader
import CommandGrammar.Argument.Registry
import CommandGrammar.Catalog
import CommandGrammar.Chain
import CommandGrammar.Chain.Completion
import CommandGrammar.Chain.Match
import CommandGrammar.Chain.Switch
import CommandGrammar.Decimal.Binary
import CommandGrammar.Decimal.Layout
import CommandGrammar.Decimal.Rounding
import CommandGrammar.Decimal.Shortest
import CommandGrammar.Dictionary
import CommandGrammar.Line
import CommandGrammar.Line.Words
import CommandGrammar.Outcome
import CommandGrammar.Outcome.Weighted
import CommandGrammar.Proofs.Argument.Digits
import CommandGrammar.Proofs.Argument.Fraction
import CommandGrammar.Proofs.Argument.Integer
import CommandGrammar.Proofs.Argument.Listing
import CommandGrammar.Proofs.Argument.Numeral
import CommandGrammar.Proofs.Argument.Proposal
import CommandGrammar.Proofs.Argument.Refused
import CommandGrammar.Proofs.Argument.Register
import CommandGrammar.Proofs.Argument.Standard
import CommandGrammar.Proofs.Argument.Typing
import CommandGrammar.Proofs.Catalog
import CommandGrammar.Proofs.Catalog.History
import CommandGrammar.Proofs.Catalog.Lookup
import CommandGrammar.Proofs.Catalog.Suggest
import CommandGrammar.Proofs.Chain.Acceptance
import CommandGrammar.Proofs.Chain.Account
import CommandGrammar.Proofs.Chain.Ahead
import CommandGrammar.Proofs.Chain.Asking
import CommandGrammar.Proofs.Chain.Building
import CommandGrammar.Proofs.Chain.Completion
import CommandGrammar.Proofs.Chain.Editing
import CommandGrammar.Proofs.Chain.Label
import CommandGrammar.Proofs.Chain.Match
import CommandGrammar.Proofs.Chain.Positional
import CommandGrammar.Proofs.Chain.Preset
import CommandGrammar.Proofs.Chain.Refusing
import CommandGrammar.Proofs.Chain.Repeated
import CommandGrammar.Proofs.Chain.Sequence
import CommandGrammar.Proofs.Chain.Switch
import CommandGrammar.Proofs.Chain.SwitchOrder
import CommandGrammar.Proofs.Context
import CommandGrammar.Proofs.Decimal.Overflow
import CommandGrammar.Proofs.Dictionary
import CommandGrammar.Proofs.Dispatch
import CommandGrammar.Proofs.Line
import CommandGrammar.Proofs.Line.Words
import CommandGrammar.Proofs.Outcome
import CommandGrammar.Proofs.Outcome.Merging
import CommandGrammar.Proofs.Spec.BareList
import CommandGrammar.Proofs.Spec.Between
import CommandGrammar.Proofs.Spec.Joining
import CommandGrammar.Proofs.Spec.RoundTrip
import CommandGrammar.Proofs.Spec.Scanner
import CommandGrammar.Proofs.Text
import CommandGrammar.Proofs.Tree.Accepted
import CommandGrammar.Proofs.Tree.Completion
import CommandGrammar.Proofs.Tree.Creation
import CommandGrammar.Proofs.Tree.Expansion
import CommandGrammar.Proofs.Tree.Gather
import CommandGrammar.Proofs.Tree.Growth
import CommandGrammar.Proofs.Tree.Guarded
import CommandGrammar.Proofs.Tree.Input
import CommandGrammar.Proofs.Tree.Iteration
import CommandGrammar.Proofs.Tree.Label
import CommandGrammar.Proofs.Tree.Meeting
import CommandGrammar.Proofs.Tree.Offset
import CommandGrammar.Proofs.Tree.Placing
import CommandGrammar.Proofs.Tree.Reorder
import CommandGrammar.Proofs.Tree.Report
import CommandGrammar.Proofs.Tree.Routes
import CommandGrammar.Proofs.Tree.Shown
import CommandGrammar.Proofs.Tree.Uniqueness
import CommandGrammar.Proofs.Tree.Usage
import CommandGrammar.Proofs.Tree.Visit
import CommandGrammar.Proofs.Tree.Walk
import CommandGrammar.Proofs.Tree.Weight
import CommandGrammar.Refusal
import CommandGrammar.Spec.Defect
import CommandGrammar.Spec.Node
import CommandGrammar.Spec.Parameters
import CommandGrammar.Spec.Reader
import CommandGrammar.Suggestion
import CommandGrammar.Text.Alternatives
import CommandGrammar.Text.Blank
import CommandGrammar.Text.CodeRange
import CommandGrammar.Text.Digit
import CommandGrammar.Text.Quoted
import CommandGrammar.Text.Record
import CommandGrammar.Tree
import CommandGrammar.Tree.Growth
import CommandGrammar.Tree.Usage
import CommandGrammar.Tree.Walk
import CommandGrammar.Value
