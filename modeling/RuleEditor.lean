import RuleEditor.ArgumentEditor
import RuleEditor.Catalogue.Basic
import RuleEditor.Catalogue.OperandCount
import RuleEditor.Catalogue.Reader
import RuleEditor.Data.Index
import RuleEditor.Data.Json.Reader
import RuleEditor.Data.Json.Writer
import RuleEditor.Data.Schema
import RuleEditor.Data.Text
import RuleEditor.Data.Value
import RuleEditor.Edit.Chain
import RuleEditor.Edit.Choice
import RuleEditor.Edit.Comparison
import RuleEditor.Edit.Condition
import RuleEditor.Edit.Fresh
import RuleEditor.Edit.Group
import RuleEditor.Expansion
import RuleEditor.Fault
import RuleEditor.Journal
import RuleEditor.Label
import RuleEditor.Number.Binary64
import RuleEditor.Number.Decimal
import RuleEditor.Proofs.Address.Ascent
import RuleEditor.Proofs.Address.Below
import RuleEditor.Proofs.Address.Canonical
import RuleEditor.Proofs.Address.Numbered
import RuleEditor.Proofs.Address.Segments
import RuleEditor.Proofs.Address.Spelling
import RuleEditor.Proofs.Address.Steps
import RuleEditor.Proofs.Edit.Arguments
import RuleEditor.Proofs.Edit.Chains
import RuleEditor.Proofs.Edit.Counts
import RuleEditor.Proofs.Edit.Held
import RuleEditor.Proofs.Edit.Intact
import RuleEditor.Proofs.Edit.Kinds
import RuleEditor.Proofs.Edit.Operands
import RuleEditor.Proofs.Edit.Reordering
import RuleEditor.Proofs.Edit.ResultLabels
import RuleEditor.Proofs.Edit.Retyped
import RuleEditor.Proofs.Edit.Seated
import RuleEditor.Proofs.Edit.Shapes
import RuleEditor.Proofs.Journal.Nesting
import RuleEditor.Proofs.Label.Issued
import RuleEditor.Proofs.Outcome
import RuleEditor.Proofs.Service.Loading
import RuleEditor.Proofs.Service.Pages
import RuleEditor.Proofs.Service.Queries
import RuleEditor.Proofs.Service.Searching
import RuleEditor.Proofs.Session.AnyOrder
import RuleEditor.Proofs.Session.Branches
import RuleEditor.Proofs.Session.Climbing
import RuleEditor.Proofs.Session.Counted
import RuleEditor.Proofs.Session.Counting
import RuleEditor.Proofs.Session.Edits
import RuleEditor.Proofs.Session.Errands
import RuleEditor.Proofs.Session.Findings
import RuleEditor.Proofs.Session.Flags
import RuleEditor.Proofs.Session.Formed
import RuleEditor.Proofs.Session.Inferred
import RuleEditor.Proofs.Session.Intact
import RuleEditor.Proofs.Session.Kept
import RuleEditor.Proofs.Session.Keys
import RuleEditor.Proofs.Session.Landing
import RuleEditor.Proofs.Session.Library
import RuleEditor.Proofs.Session.Mirror
import RuleEditor.Proofs.Session.Mismatches
import RuleEditor.Proofs.Session.Moves
import RuleEditor.Proofs.Session.Opening
import RuleEditor.Proofs.Session.Output
import RuleEditor.Proofs.Session.Pairs
import RuleEditor.Proofs.Session.Parallel
import RuleEditor.Proofs.Session.ParallelCalls
import RuleEditor.Proofs.Session.Pending
import RuleEditor.Proofs.Session.Persistent
import RuleEditor.Proofs.Session.Recency
import RuleEditor.Proofs.Session.Regrouping
import RuleEditor.Proofs.Session.Removing
import RuleEditor.Proofs.Session.Resolving
import RuleEditor.Proofs.Session.Respelled
import RuleEditor.Proofs.Session.Reviewing
import RuleEditor.Proofs.Session.Rewrite
import RuleEditor.Proofs.Session.Running
import RuleEditor.Proofs.Session.Saving
import RuleEditor.Proofs.Session.Scope
import RuleEditor.Proofs.Session.Seated
import RuleEditor.Proofs.Session.Selections
import RuleEditor.Proofs.Session.Spellings
import RuleEditor.Proofs.Session.Staleness
import RuleEditor.Proofs.Session.Starting
import RuleEditor.Proofs.Session.Storing
import RuleEditor.Proofs.Session.Subtrees
import RuleEditor.Proofs.Session.TakingUp
import RuleEditor.Proofs.Session.Tokens
import RuleEditor.Proofs.Session.Told
import RuleEditor.Proofs.Stored.Agreement
import RuleEditor.Proofs.Stored.Canonical
import RuleEditor.Proofs.Stored.Failing
import RuleEditor.Proofs.Stored.Labels
import RuleEditor.Proofs.Stored.Named
import RuleEditor.Proofs.Stored.NormalForm
import RuleEditor.Proofs.Stored.ReadBack
import RuleEditor.Proofs.Stored.RoundTrip
import RuleEditor.Proofs.Stored.Sorted
import RuleEditor.Proofs.Stored.Vacancies
import RuleEditor.Proofs.Tree.Accepted
import RuleEditor.Proofs.Tree.Access
import RuleEditor.Proofs.Tree.Conditions
import RuleEditor.Proofs.Tree.Everywhere
import RuleEditor.Proofs.Tree.Grafting
import RuleEditor.Proofs.Tree.Held
import RuleEditor.Proofs.Tree.Lens
import RuleEditor.Proofs.Tree.Listing
import RuleEditor.Proofs.Tree.Located
import RuleEditor.Proofs.Tree.Normalizing
import RuleEditor.Proofs.Tree.Positions
import RuleEditor.Proofs.Tree.Proper
import RuleEditor.Proofs.Tree.Reviewed
import RuleEditor.Proofs.Tree.Seats
import RuleEditor.Proofs.Tree.Sorts
import RuleEditor.Proofs.Tree.Stumbling
import RuleEditor.Proofs.Tree.Typed
import RuleEditor.Proofs.Tree.Violations
import RuleEditor.Proofs.Tree.Warned
import RuleEditor.Proofs.Tree.Weaving
import RuleEditor.Record
import RuleEditor.Review
import RuleEditor.Rule.Document
import RuleEditor.Rule.Warnings
import RuleEditor.Service.Exchange
import RuleEditor.Service.Memory
import RuleEditor.Service.Options
import RuleEditor.Service.Rules
import RuleEditor.Service.Url
import RuleEditor.Session.Basic
import RuleEditor.Session.Command
import RuleEditor.Session.Conversation
import RuleEditor.Session.Edit
import RuleEditor.Session.Reference
import RuleEditor.Settings
import RuleEditor.Stored.Loader
import RuleEditor.Stored.Reader
import RuleEditor.Stored.Writer
import RuleEditor.Text.Blank
import RuleEditor.Text.Digit
import RuleEditor.Text.Hex
import RuleEditor.Text.Percent
import RuleEditor.Text.Printable
import RuleEditor.Text.Quoted
import RuleEditor.Text.Unicode
import RuleEditor.Tree.Address
import RuleEditor.Tree.Form
import RuleEditor.Tree.Lookup
import RuleEditor.Tree.Node
import RuleEditor.Tree.Normalize
import RuleEditor.Tree.Parts
import RuleEditor.Tree.Record
import RuleEditor.Tree.Traversal
import RuleEditor.Typing
import RuleEditor.WellFormed
