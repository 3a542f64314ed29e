import StateDrivenAgent.Verify.Commands
import StateDrivenAgent.Verify.Store
import StateDrivenAgent.Agent.Run
import StateDrivenAgent.Server.Handlers
import StateDrivenAgent.Verify.Dispatching
import StateDrivenAgent.Verify.Deciding
import StateDrivenAgent.Interaction.Cursor
import StateDrivenAgent.Server.Reconnect
import StateDrivenAgent.Verify.Reconnecting
import StateDrivenAgent.Verify.Journal
import StateDrivenAgent.Json.Document
import StateDrivenAgent.Agent.Schema
import StateDrivenAgent.Spec.Schema
import StateDrivenAgent.Verify.Schema
import StateDrivenAgent.Json.Reading
import StateDrivenAgent.Verify.Numbers
import StateDrivenAgent.Verify.Canonical
import StateDrivenAgent.Python.Json
import StateDrivenAgent.Python.Context
import StateDrivenAgent.Verify.Sources
import StateDrivenAgent.Verify.Running
import StateDrivenAgent.Go.Json
import StateDrivenAgent.Verify.Encodings
import StateDrivenAgent.Go.Session
import StateDrivenAgent.Go.Schema
import StateDrivenAgent.Go.Effect
import StateDrivenAgent.Go.Workflow
import StateDrivenAgent.Go.Decision
import StateDrivenAgent.Go.Actions
import StateDrivenAgent.Go.Engine
import StateDrivenAgent.Go.Server
import StateDrivenAgent.Interaction.Invariant
import StateDrivenAgent.Go.Verify.Upkeep
import StateDrivenAgent.Go.Verify.Ledger
import StateDrivenAgent.Go.Verify.Commits
import StateDrivenAgent.Go.Verify.Batch
import StateDrivenAgent.Go.Verify.Books
import StateDrivenAgent.Go.Verify.Window
import StateDrivenAgent.Go.Verify.Identities
import StateDrivenAgent.Java.Json
import StateDrivenAgent.Spec.Evidence
import StateDrivenAgent.Verify.Decimals
import StateDrivenAgent.Verify.Evidence
import StateDrivenAgent.Interaction.History
import StateDrivenAgent.Spec.Compaction
import StateDrivenAgent.Verify.Replacing
import StateDrivenAgent.Storage.Jsonb
import StateDrivenAgent.Go.Reload
import StateDrivenAgent.Go.Verify.Frozen
import StateDrivenAgent.Verify.Stored
import StateDrivenAgent.Interaction.Segments
import StateDrivenAgent.Spec.Exchanges
import StateDrivenAgent.Verify.Grouping
import StateDrivenAgent.Verify.SingleCalls
import StateDrivenAgent.Json.Grammar
import StateDrivenAgent.Verify.Escapes
import StateDrivenAgent.Verify.StrictJson
import StateDrivenAgent.Json.Trimming
import StateDrivenAgent.Spec.Markup
import StateDrivenAgent.Verify.References
import StateDrivenAgent.Verify.Xml
import StateDrivenAgent.Verify.Revalidation
import StateDrivenAgent.Agent.Loading
import StateDrivenAgent.Verify.Loading
import StateDrivenAgent.Python.Numerals
import StateDrivenAgent.Verify.Scanning
import StateDrivenAgent.Verify.Grounding
import StateDrivenAgent.Python.Expand
import StateDrivenAgent.Verify.Expansion
import StateDrivenAgent.Verify.Normalizing
import StateDrivenAgent.Storage.Archive
import StateDrivenAgent.Verify.PythonEncoding
import StateDrivenAgent.Verify.Archives
import StateDrivenAgent.Verify.Exports
import StateDrivenAgent.Verify.Budgets
import StateDrivenAgent.Relational.Keyed
import StateDrivenAgent.Verify.Writing
import StateDrivenAgent.Verify.Retrying
import StateDrivenAgent.Spec.Labels
import StateDrivenAgent.Verify.Describing
import StateDrivenAgent.Verify.Stalling
import StateDrivenAgent.Verify.Allowance
import StateDrivenAgent.Verify.Timestamps
import StateDrivenAgent.Verify.EvidenceOrder
import StateDrivenAgent.Verify.DecimalComparison
import StateDrivenAgent.Verify.Renderings
import StateDrivenAgent.Interaction.Answers
import StateDrivenAgent.Verify.Acting
import StateDrivenAgent.Verify.Serving
import StateDrivenAgent.Verify.Posting
import StateDrivenAgent.Verify.Integrity
import StateDrivenAgent.Verify.Admitting
import StateDrivenAgent.Verify.Phases
import StateDrivenAgent.Relational.Growing
import StateDrivenAgent.Verify.Recording
import StateDrivenAgent.Interaction.Chronicle
import StateDrivenAgent.Spec.Annals
import StateDrivenAgent.Verify.Annals
import StateDrivenAgent.Verify.Invocations
