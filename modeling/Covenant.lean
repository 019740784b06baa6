import Covenant.Base64
import Covenant.Document.Draft
import Covenant.Document.Rendering
import Covenant.Grammar.Listing
import Covenant.Grammar.RuleValue
import Covenant.Journal.Message
import Covenant.Markup.NodeValue
import Covenant.Schema.Rules
import Covenant.Schema.Validation
import Covenant.Schema.Writing
import Covenant.Template.Export
import Covenant.Template.Instance
import Covenant.Proofs.Source.Slashes
import Covenant.Proofs.Text.Basic
import Covenant.Proofs.Text.Words
import Covenant.Proofs.Source.Scanning
import Covenant.Proofs.Source.Tokens
import Covenant.Proofs.Grammar.RuleSet
import Covenant.Proofs.Grammar.Growth
import Covenant.Proofs.Outcome
import Covenant.Proofs.Source.Accepted
import Covenant.Proofs.Decimal.Integer
import Covenant.Proofs.Grammar.Engine
import Covenant.Proofs.Markup.Completeness
import Covenant.Proofs.Pattern.Cutting
import Covenant.Proofs.Pattern.Matching
import Covenant.Proofs.Pattern.Tokens
import Covenant.Proofs.Schema.Names
import Covenant.Proofs.Schema.Order
import Covenant.Proofs.Schema.Refusals
import Covenant.Proofs.Schema.Written
import Covenant.Proofs.Template.Registry
import Covenant.Proofs.Markup.Ruled
import Covenant.Proofs.Markup.Conformance
import Covenant.Proofs.Markup.Feeds
import Covenant.Proofs.Markup.Lists
import Covenant.Proofs.Markup.Resolution
import Covenant.Proofs.Package.Files
import Covenant.Proofs.Package.Identity
import Covenant.Proofs.Package.Readings
import Covenant.Proofs.Template.Digests
import Covenant.Proofs.Template.History
import Covenant.Proofs.Template.Inspection
import Covenant.Proofs.Template.Loads
import Covenant.Proofs.Template.Packages
import Covenant.Proofs.Template.Readings
import Covenant.Proofs.Template.Sources
import Covenant.Proofs.Format.Dates
import Covenant.Proofs.Format.Fields
import Covenant.Proofs.Format.Grouping
import Covenant.Proofs.Format.Inverses
import Covenant.Proofs.Format.Moments
import Covenant.Proofs.Format.Redating
import Covenant.Proofs.Format.Written
import Covenant.Proofs.Markup.Drafting
import Covenant.Proofs.Template.Redrafting
import Covenant.Proofs.Template.Data
import Covenant.Proofs.Schema.Instances
import Covenant.Proofs.Schema.JsonSchema
import Covenant.Proofs.Markup.Canonical
import Covenant.Proofs.Markup.Spans
import Covenant.Proofs.Template.Diagnostics
import Covenant.Proofs.Document.Paragraphs
import Covenant.Proofs.Schema.Distinct
import Covenant.Proofs.Format.Recognition
import Covenant.Proofs.Schema.Definitions
import Covenant.Proofs.Schema.TypeClosure
import Covenant.Proofs.Document.Pages
import Covenant.Proofs.Markup.Identifiers
import Covenant.Proofs.Document.Division
import Covenant.Proofs.Schema.SelfNamed
import Covenant.Proofs.Schema.Validator
import Covenant.Proofs.Schema.Declarations
import Covenant.Proofs.Template.Samples
import Covenant.Proofs.Listing.Literals
import Covenant.Proofs.Listing.Evaluation
import Covenant.Proofs.Listing.Trees
