import BeeAgent.Chronicle.StoresAgree
import BeeAgent.Chronicle.Stream
import BeeAgent.Client.Sse
import BeeAgent.Client.Transcript
import BeeAgent.Client.Undisturbed
import BeeAgent.Context.Budget
import BeeAgent.Context.Manifest
import BeeAgent.Data.Access
import BeeAgent.Data.Canonical
import BeeAgent.Data.DateTime
import BeeAgent.Data.DepthFirst
import BeeAgent.Data.Faithful
import BeeAgent.Data.Folds
import BeeAgent.Data.Greedy
import BeeAgent.Data.Ledger
import BeeAgent.Data.NumberValue
import BeeAgent.Data.OrderedMap
import BeeAgent.Data.Overlap
import BeeAgent.Data.Parse
import BeeAgent.Data.Reading
import BeeAgent.Data.Recent
import BeeAgent.Data.References
import BeeAgent.Data.Regex
import BeeAgent.Data.Replacement
import BeeAgent.Data.RoundTrip
import BeeAgent.Data.Shedding
import BeeAgent.Data.Sparse
import BeeAgent.Data.Stringify
import BeeAgent.Data.Units
import BeeAgent.Data.Upsert
import BeeAgent.Data.Value
import BeeAgent.Data.Written
import BeeAgent.Decoding.Conversation
import BeeAgent.Decoding.Framing
import BeeAgent.Decoding.Lines
import BeeAgent.Decoding.Utf16
import BeeAgent.Decoding.Utf8
import BeeAgent.Execution.AtMostOnce
import BeeAgent.Execution.Authorization
import BeeAgent.Execution.Binding
import BeeAgent.Execution.Hiding
import BeeAgent.Execution.Keychain
import BeeAgent.Execution.Redaction
import BeeAgent.Execution.Replay
import BeeAgent.Execution.Secrecy
import BeeAgent.Execution.StagedStdio
import BeeAgent.Execution.Worktrees
import BeeAgent.ImportV0.Accepted
import BeeAgent.ImportV0.Convert
import BeeAgent.ImportV0.Faithful
import BeeAgent.ImportV0.History
import BeeAgent.ImportV0.Rows
import BeeAgent.Kanban.Board
import BeeAgent.Kanban.Claiming
import BeeAgent.Kanban.Current
import BeeAgent.Kanban.Fencing
import BeeAgent.Kanban.History
import BeeAgent.Kanban.Idempotency
import BeeAgent.Kanban.Logged
import BeeAgent.Kanban.Rebuild
import BeeAgent.Kanban.StateMachine
import BeeAgent.Kanban.Steps
import BeeAgent.Kanban.Store
import BeeAgent.Kanban.Walking
import BeeAgent.Kanban.WellFormed
import BeeAgent.Kernel.Accounting
import BeeAgent.Kernel.Agreement
import BeeAgent.Kernel.Bundles
import BeeAgent.Kernel.Effects
import BeeAgent.Kernel.Lineage
import BeeAgent.Kernel.LiveUpdate
import BeeAgent.Kernel.Ordering
import BeeAgent.Kernel.Pinned
import BeeAgent.Kernel.PinnedLoop
import BeeAgent.Kernel.Preparation
import BeeAgent.Kernel.Reconcile
import BeeAgent.Kernel.Resolution
import BeeAgent.Kernel.Streams
import BeeAgent.Kernel.StructureReconciler
import BeeAgent.Kernel.StructureText
import BeeAgent.Kernel.Switch
import BeeAgent.Knowledge.WorldModel
import BeeAgent.Knowledge.WorldProjection
import BeeAgent.Knowledge.WorldRebase
import BeeAgent.Knowledge.WorldRecord
import BeeAgent.Learning.Activation
import BeeAgent.Learning.ActivationAgreement
import BeeAgent.Learning.ActivationInvariant
import BeeAgent.Learning.ActivationSteps
import BeeAgent.Learning.Drift
import BeeAgent.Learning.Evidence
import BeeAgent.Learning.Experiments
import BeeAgent.Learning.Reversion
import BeeAgent.Learning.Selection
import BeeAgent.Learning.SkillTemplate
import BeeAgent.Learning.Versioned
import BeeAgent.Memory.Breaker
import BeeAgent.Memory.Claims
import BeeAgent.Memory.Consolidation
import BeeAgent.Memory.Embedded
import BeeAgent.Memory.Forgetting
import BeeAgent.Memory.Providers
import BeeAgent.Memory.Rebuild
import BeeAgent.Memory.Recall
import BeeAgent.Memory.Steps
import BeeAgent.Memory.Terms
import BeeAgent.ModelProviders.Agreement
import BeeAgent.ModelProviders.Blocks
import BeeAgent.ModelProviders.Failures
import BeeAgent.ModelProviders.FunctionNames
import BeeAgent.ModelProviders.OpenAiChat
import BeeAgent.ModelProviders.Truncation
import BeeAgent.Pairing.Ledger
import BeeAgent.Posix.Paths
import BeeAgent.Posix.Tree
import BeeAgent.Runtime.Compaction
import BeeAgent.Runtime.ConfigSource
import BeeAgent.Runtime.ContextPolicy
import BeeAgent.Runtime.Delegation
import BeeAgent.Runtime.DelegationStops
import BeeAgent.Runtime.Digest
import BeeAgent.Runtime.Dispatch
import BeeAgent.Runtime.GrantStore
import BeeAgent.Runtime.ItemLifecycle
import BeeAgent.Runtime.ItemSteps
import BeeAgent.Runtime.Items
import BeeAgent.Runtime.Lifecycle
import BeeAgent.Runtime.ModelReplay
import BeeAgent.Runtime.ModelRequests
import BeeAgent.Runtime.Owed
import BeeAgent.Runtime.Rebuild
import BeeAgent.Runtime.Redispatch
import BeeAgent.Runtime.RememberedApprovals
import BeeAgent.Runtime.Requests
import BeeAgent.Runtime.StepBound
import BeeAgent.Runtime.Summaries
import BeeAgent.Runtime.SystemPrompt
import BeeAgent.Runtime.Timeline
import BeeAgent.Runtime.ToolAdapterPaths
import BeeAgent.Runtime.ToolExecution
import BeeAgent.Runtime.Trajectory
import BeeAgent.Scheduler.Cadence
import BeeAgent.Scheduler.Copies
import BeeAgent.Scheduler.DueTimes
import BeeAgent.Scheduler.EventTriggers
import BeeAgent.Scheduler.Firing
import BeeAgent.Scheduler.Happenings
import BeeAgent.Scheduler.InPlan
import BeeAgent.Scheduler.Removals
import BeeAgent.Scheduler.Steps
import BeeAgent.Scheduler.TaskTriggers
import BeeAgent.Skills.Consistency
import BeeAgent.Skills.Events
import BeeAgent.Skills.Running
import BeeAgent.Skills.SkillStore
import BeeAgent.Thread.Delivery
import BeeAgent.Transition.Machine
import BeeAgent.Web.Characters
import BeeAgent.Web.Confined
import BeeAgent.Web.Markup
import BeeAgent.Web.Pages
import BeeAgent.Web.References
import BeeAgent.Web.Tools
import BeeAgent.Web.Transport
