import Vibesys.Core.Job
import Vibesys.Core.Life
import Vibesys.Library.Wire
import Vibesys.Library.Slots
import Vibesys.Core.Key
import Vibesys.Lease.Cluster
import Vibesys.Flow.Reading
import Vibesys.Flow.Plan
import Vibesys.Flow.Machine
import Vibesys.Flow.Passed
import Vibesys.Flow.Whole
import Vibesys.Promotion.Compare
import Vibesys.Promotion.Branch
import Vibesys.Promotion.Kept
import Vibesys.Promotion.CrashSafe
import Vibesys.Lease.Kept
import Vibesys.Lease.Exclusion
import Vibesys.Store.Owner
import Vibesys.Store.Fence
import Vibesys.Store.GivenUp
import Vibesys.Schedule.Model
import Vibesys.Schedule.Book
import Vibesys.Schedule.Safety
import Vibesys.Schedule.FairShare
import Vibesys.Schedule.Drain
import Vibesys.Schedule.Contest
import Vibesys.Schedule.Flood
import Vibesys.Library.Roster
import Vibesys.Lifecycle.Settle
import Vibesys.Lifecycle.Entry
import Vibesys.Lifecycle.Machine
import Vibesys.Lifecycle.PerJob
import Vibesys.Lifecycle.Scheduled
import Vibesys.Lifecycle.Doubt
import Vibesys.Library.Run
import Vibesys.Lifecycle.Runs
import Vibesys.Lifecycle.Stop
import Vibesys.Lifecycle.Owed
import Vibesys.Library.Table
import Vibesys.Orchestrator.Vocabulary
import Vibesys.Orchestrator.State
import Vibesys.Library.Conflate
import Vibesys.Subscription.State
import Vibesys.Subscription.Clients
import Vibesys.Subscription.Books
import Vibesys.Subscription.Calls
import Vibesys.Subscription.Converges
import Vibesys.Library.Framed
import Vibesys.Library.Line
import Vibesys.Admission.Context
import Vibesys.Admission.Schedule
import Vibesys.Admission.Steps
import Vibesys.Admission.Fair
import Vibesys.Outbox.Rows
import Vibesys.Outbox.Calls
import Vibesys.Outbox.Kept
import Vibesys.Delivery.Invariant
import Vibesys.Delivery.Batch
import Vibesys.Sqlite.Compact
import Vibesys.Sqlite.Sound
import Vibesys.Sqlite.Compaction
import Vibesys.Supervise.Host
import Vibesys.Supervise.Invariant
import Vibesys.Supervise.Truth
import Vibesys.Supervise.Said
import Vibesys.Supervise.Cleared
import Vibesys.Promotion.Stale
import Vibesys.Pareto.Frontier
import Vibesys.Pareto.Kept
import Vibesys.TaskWatch.Holds
import Vibesys.Filestore.Logs
import Vibesys.Filestore.Sound
import Vibesys.Filestore.Paging
import Vibesys.Hub.Queue
import Vibesys.Hub.Booked
import Vibesys.Hub.Reader
import Vibesys.Hub.Exactly
import Vibesys.Runlog.Framing
import Vibesys.Runlog.Writer
import Vibesys.Runlog.Durable
import Vibesys.Runlog.Committer
import Vibesys.Runlog.Opening
import Vibesys.Runlog.Steps
import Vibesys.Runlog.Confirmed
import Vibesys.Runlog.Healthy
import Vibesys.Runlog.OneLog
import Vibesys.Benchmark.Protocol
import Vibesys.Benchmark.Records
import Vibesys.Benchmark.Accepts
import Vibesys.Library.StableSort
import Vibesys.Library.Groups
import Vibesys.Orchestrator.Usage
import Vibesys.Cost.Ledger
import Vibesys.Cost.Facts
import Vibesys.Cost.Views
import Vibesys.Cost.Windows
import Vibesys.Cost.Conserved
import Vibesys.Library.Joined
import Vibesys.Foldcache.Keeper
import Vibesys.Foldcache.SameFold
import Vibesys.Attached.Supervisor
import Vibesys.Attached.Once
import Vibesys.Attached.Output
import Vibesys.Attached.Marks
import Vibesys.Attached.HandsOver
import Vibesys.Tail.Reader
import Vibesys.Tail.Follower
import Vibesys.Tail.Steps
import Vibesys.Tail.EachOnce
import Vibesys.Schedule.Turn
import Vibesys.Lifecycle.Held
import Vibesys.Foldcache.Behind
import Vibesys.Waits.Clock
import Vibesys.Check.Items
import Vibesys.Check.Floors
import Vibesys.Check.Persistent
import Vibesys.Check.PersistentCalls
import Vibesys.Attempts.Fold
import Vibesys.Attempts.Rows
import Vibesys.Attempts.Bound
import Vibesys.Library.Orders
import Vibesys.Queues.Models
import Vibesys.Queues.Relaxed
import Vibesys.Queues.Counts
import Vibesys.Explain.Search
import Vibesys.Explain.Prefixes
import Vibesys.Explain.First
import Vibesys.Tail.Shared
