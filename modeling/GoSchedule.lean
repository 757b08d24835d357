import GoSchedule.Types
import GoSchedule.Lib.Heap
import GoSchedule.Lib.Run
import GoSchedule.MemStore.Basic
import GoSchedule.MemStore.Heap
import GoSchedule.MemStore.Inv
import GoSchedule.MemStore.Claim
import GoSchedule.MemStore.Refine
import GoSchedule.MemStore.Select
import GoSchedule.Lib.Loop
import GoSchedule.Recurring.Cron
import GoSchedule.Recurring.Basic
import GoSchedule.Recurring.Finish
import GoSchedule.Lib.Slots
import GoSchedule.Scheduler.Worker
import GoSchedule.Scheduler.Ledger
import GoSchedule.Scheduler.System
import GoSchedule.Scheduler.Conserve
import GoSchedule.Scheduler.Report
import GoSchedule.Scheduler.Shutdown
import GoSchedule.Lib.Decimal
import GoSchedule.Lib.ZSet
import GoSchedule.Redis.Basic
import GoSchedule.Redis.Table
import GoSchedule.Lib.History
import GoSchedule.Redis.System
import GoSchedule.Redis.Owner
import GoSchedule.Postgres.Basic
import GoSchedule.Postgres.Lease
import GoSchedule.Lib.RowLock
import GoSchedule.Postgres.Tx
import GoSchedule.Lib.Sim
import GoSchedule.MemStore.Map
import GoSchedule.Lib.Keyed
import GoSchedule.Sqlite.Basic
import GoSchedule.Lib.Double
import GoSchedule.Lib.MapOn
import GoSchedule.Redis.Calls
import GoSchedule.Redis.Rows
import GoSchedule.Redis.Equiv
import GoSchedule.Redis.Upsert
import GoSchedule.Lib.Orbit
import GoSchedule.Recurring.Ticks
import GoSchedule.Recurring.Catchup
import GoSchedule.Postgres.Fail
import GoSchedule.Attempts.Sheet
import GoSchedule.Sqlite.Attempts
import GoSchedule.Redis.Attempts
import GoSchedule.Postgres.Attempts
import GoSchedule.Attempts.Cap
import GoSchedule.Leases
import GoSchedule.Metrics.InFlight
import GoSchedule.Lib.Inherit
import GoSchedule.Routes.Backend
import GoSchedule.Routes.Sql
import GoSchedule.Routes.System
import GoSchedule.Redis.Recurring
import GoSchedule.Routes.Redis
import GoSchedule.Backoff
import GoSchedule.Sqlite.Due
import GoSchedule.Redis.Encoding
import GoSchedule.Lib.Expiry
import GoSchedule.Redis.Lease
import GoSchedule.Recurring.Faults
import GoSchedule.Redis.Registry
import GoSchedule.Redis.Served
import GoSchedule.Redis.Fetch
import GoSchedule.Recurring.Deletion
import GoSchedule.Retries.Agree
import GoSchedule.Lib.Quoted
import GoSchedule.Postgres.Listen
import GoSchedule.Lib.Slice
import GoSchedule.Lib.Stable
import GoSchedule.Postgres.Sort
import GoSchedule.Redis.Keys
import GoSchedule.Lib.Progress
import GoSchedule.Scheduler.Drain
import GoSchedule.Lib.Trace
import GoSchedule.Scheduler.Order
import GoSchedule.Metrics.Totals
import GoSchedule.Scheduler.Retry
import GoSchedule.Contract.Basic
import GoSchedule.Contract.Redis
import GoSchedule.Scheduler.Typed
import GoSchedule.Cluster.Basic
import GoSchedule.Cluster.Fate
import GoSchedule.Cluster.Once
import GoSchedule.Postgres.Custody
import GoSchedule.Postgres.Recovery
import GoSchedule.FakeClock
import GoSchedule.Postgres.Complete
import GoSchedule.Postgres.Wake
import GoSchedule.Contract.Clients
