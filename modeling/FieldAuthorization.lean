import FieldAuthorization.Access.ClientIndex
import FieldAuthorization.Access.ScopePattern
import FieldAuthorization.Access.ScopeSet
import FieldAuthorization.Access.Verifier
import FieldAuthorization.Access.VerifierCache
import FieldAuthorization.CommandLine.Options
import FieldAuthorization.CommandLine.Run
import FieldAuthorization.Decimal
import FieldAuthorization.Document.Basic
import FieldAuthorization.Document.Parser
import FieldAuthorization.Document.Parser.Value
import FieldAuthorization.Document.Phrase
import FieldAuthorization.Document.Printer
import FieldAuthorization.Document.Token
import FieldAuthorization.Enforcement.Enforcer
import FieldAuthorization.Enforcement.Request
import FieldAuthorization.Enforcement.Result
import FieldAuthorization.Files.Entry
import FieldAuthorization.Files.Tree
import FieldAuthorization.Introspection.Filter
import FieldAuthorization.Introspection.Names
import FieldAuthorization.Json.Basic
import FieldAuthorization.Main
import FieldAuthorization.Pattern.CharClass
import FieldAuthorization.Pattern.Parser
import FieldAuthorization.Pattern.Regex
import FieldAuthorization.Permissions.Basic
import FieldAuthorization.Permissions.Declaration
import FieldAuthorization.Redaction.Authority
import FieldAuthorization.Redaction.Basic
import FieldAuthorization.Redaction.Denial
import FieldAuthorization.Redaction.Prune
import FieldAuthorization.Schema.Basic
import FieldAuthorization.Schema.Definition
import FieldAuthorization.Schema.Load
import FieldAuthorization.Schema.Parser
import FieldAuthorization.Settings.Basic
import FieldAuthorization.Settings.Decode
import FieldAuthorization.Settings.Environment
import FieldAuthorization.Settings.Load
import FieldAuthorization.Settings.Setting
import FieldAuthorization.Settings.Validation
import FieldAuthorization.Text.Blank
import FieldAuthorization.Text.CaseFolding
import FieldAuthorization.Text.Category
import FieldAuthorization.Text.Runs
import FieldAuthorization.Text.Script
import FieldAuthorization.Text.Utf8
import FieldAuthorization.Toml.Document
import FieldAuthorization.Toml.Parser
import FieldAuthorization.Toml.Quoted
import FieldAuthorization.Toml.Scalar
import FieldAuthorization.Proofs.Access.Sharing
import FieldAuthorization.Proofs.Access.Spelling
import FieldAuthorization.Proofs.Access.Union
import FieldAuthorization.Proofs.Document.Filled
import FieldAuthorization.Proofs.Document.Fragments
import FieldAuthorization.Proofs.Document.Leaves
import FieldAuthorization.Proofs.Document.Occurrence
import FieldAuthorization.Proofs.Document.Place
import FieldAuthorization.Proofs.Document.Restriction
import FieldAuthorization.Proofs.Document.Thinning
import FieldAuthorization.Proofs.Document.Usage
import FieldAuthorization.Proofs.Enforcement.Execution
import FieldAuthorization.Proofs.Enforcement.History
import FieldAuthorization.Proofs.Enforcement.Isolation
import FieldAuthorization.Proofs.Enforcement.Lifecycle
import FieldAuthorization.Proofs.Enforcement.RoundTrip
import FieldAuthorization.Proofs.Introspection.AddedNames
import FieldAuthorization.Proofs.Introspection.Advertisement
import FieldAuthorization.Proofs.Introspection.Disclosure
import FieldAuthorization.Proofs.Introspection.Discretion
import FieldAuthorization.Proofs.Introspection.Filtering
import FieldAuthorization.Proofs.Introspection.HarmlessKeys
import FieldAuthorization.Proofs.Introspection.Host
import FieldAuthorization.Proofs.Introspection.Independence
import FieldAuthorization.Proofs.Introspection.KeptFields
import FieldAuthorization.Proofs.Introspection.Keying
import FieldAuthorization.Proofs.Introspection.Labelled
import FieldAuthorization.Proofs.Introspection.Leak
import FieldAuthorization.Proofs.Introspection.NameKey
import FieldAuthorization.Proofs.Introspection.Projection
import FieldAuthorization.Proofs.Introspection.References
import FieldAuthorization.Proofs.Introspection.Refiltering
import FieldAuthorization.Proofs.Introspection.Values
import FieldAuthorization.Proofs.Introspection.VisiblePart
import FieldAuthorization.Proofs.Pattern.Anchoring
import FieldAuthorization.Proofs.Pattern.Brackets
import FieldAuthorization.Proofs.Pattern.Groups
import FieldAuthorization.Proofs.Pattern.Language
import FieldAuthorization.Proofs.Pattern.Locality
import FieldAuthorization.Proofs.Permissions.Coherence
import FieldAuthorization.Proofs.Permissions.Compilation
import FieldAuthorization.Proofs.Permissions.Composition
import FieldAuthorization.Proofs.Permissions.Effects
import FieldAuthorization.Proofs.Permissions.Grants
import FieldAuthorization.Proofs.Permissions.Grouping
import FieldAuthorization.Proofs.Permissions.Inlining
import FieldAuthorization.Proofs.Permissions.InputTypes
import FieldAuthorization.Proofs.Permissions.Machine
import FieldAuthorization.Proofs.Permissions.Order
import FieldAuthorization.Proofs.Permissions.Semilattice
import FieldAuthorization.Proofs.Permissions.Visits
import FieldAuthorization.Proofs.Redaction.Declared
import FieldAuthorization.Proofs.Redaction.Denials
import FieldAuthorization.Proofs.Redaction.Emptied
import FieldAuthorization.Proofs.Redaction.Entries
import FieldAuthorization.Proofs.Redaction.Fragments
import FieldAuthorization.Proofs.Redaction.Idempotence
import FieldAuthorization.Proofs.Redaction.Lossless
import FieldAuthorization.Proofs.Redaction.Monotone
import FieldAuthorization.Proofs.Redaction.Policies
import FieldAuthorization.Proofs.Redaction.Pruning
import FieldAuthorization.Proofs.Redaction.Reach
import FieldAuthorization.Proofs.Redaction.Remainder
import FieldAuthorization.Proofs.Redaction.Rootless
import FieldAuthorization.Proofs.Redaction.Rounds
import FieldAuthorization.Proofs.Redaction.Soundness
import FieldAuthorization.Proofs.Redaction.Usage
import FieldAuthorization.Proofs.Redaction.WellFormed
import FieldAuthorization.Proofs.Schema.Implementers
import FieldAuthorization.Proofs.Schema.InPlace
import FieldAuthorization.Proofs.Schema.Types
import FieldAuthorization.Proofs.Settings.Agreement
