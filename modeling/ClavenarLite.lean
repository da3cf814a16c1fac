import ClavenarLite.Lib.Interaction
import ClavenarLite.Lib.Json
import ClavenarLite.Lib.JsonParse
import ClavenarLite.Lib.Sha
import ClavenarLite.Lib.JsonValue
import ClavenarLite.Lib.Rfc3339
import ClavenarLite.Lib.Transaction
import ClavenarLite.Lib.Uuid
import ClavenarLite.Ledger.Rows
import ClavenarLite.Ledger.Statements
import ClavenarLite.Ledger.Append
import ClavenarLite.Ledger.Execution
import ClavenarLite.Ledger.Pendings
import ClavenarLite.Ledger.Effects
import ClavenarLite.Ledger.Runs
import ClavenarLite.Ledger.Replay
import ClavenarLite.Ledger.Agreement
import ClavenarLite.Ledger.Interleaving
import ClavenarLite.Ledger.Verify
import ClavenarLite.Ledger.Tamper
import ClavenarLite.Ledger.Tampering
import ClavenarLite.Ledger.Schema
import ClavenarLite.Lib.Keyed
import ClavenarLite.Proxy.RateLimit
import ClavenarLite.Proxy.SupplyChain
import ClavenarLite.Callback.Delivery
import ClavenarLite.Callback.Containment
import ClavenarLite.Proxy.HostedSafety
import ClavenarLite.Lib.Threads
import ClavenarLite.Proxy.Decide
import ClavenarLite.Proxy.Decisions
import ClavenarLite.Proxy.LifeCycle
import ClavenarLite.Callback.Addresses
import ClavenarLite.Callback.Allowlist
import ClavenarLite.Callback.Answers
import ClavenarLite.Ledger.Listings
import ClavenarLite.Lib.JsonSource
import ClavenarLite.Lib.Meets
import ClavenarLite.Proxy.Gates
import ClavenarLite.Proxy.Handler
import ClavenarLite.Proxy.History
import ClavenarLite.Proxy.Injection
import ClavenarLite.Proxy.Policy
import ClavenarLite.Proxy.Signals
import ClavenarLite.Proxy.Throttle
import ClavenarLite.Ledger.Report
import ClavenarLite.Ledger.Steady
import ClavenarLite.Proxy.Gating
import ClavenarLite.Proxy.Graduation
import ClavenarLite.Cli.Since
import ClavenarLite.Ledger.Reconcile
import ClavenarLite.Ledger.Progress
import ClavenarLite.Ledger.Signing
import ClavenarLite.Ledger.Unparsable
import ClavenarLite.Proxy.Control
import ClavenarLite.Proxy.RegistryGrammar
import ClavenarLite.Proxy.Appended
import ClavenarLite.Proxy.Audit
import ClavenarLite.Cli.Restore
import ClavenarLite.Cli.RestoreRuns
import ClavenarLite.Proxy.Approvals
import ClavenarLite.Proxy.Retries
import ClavenarLite.Lib.Recorded
import ClavenarLite.Proxy.Resubmissions
import ClavenarLite.Lib.Once
import ClavenarLite.Lib.Projection
import ClavenarLite.Lib.Rules
import ClavenarLite.Proxy.Governance
import ClavenarLite.Proxy.Governed
import ClavenarLite.Proxy.Linearized
import ClavenarLite.Proxy.Panics
import ClavenarLite.Proxy.PendingRoutes
import ClavenarLite.Proxy.Tenants
import ClavenarLite.Proxy.HiddenRows
import ClavenarLite.Proxy.Bystanders
import ClavenarLite.Proxy.Overlooks
import ClavenarLite.Proxy.Isolation
