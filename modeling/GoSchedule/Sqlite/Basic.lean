import GoSchedule.Lib.Keyed
import GoSchedule.Types

/-!
# The SQLite store

`store.go` of the SQLite store over the two tables of its schema.  The store has one connection, so a
statement or a transaction is one atomic step, and every operation is a function of the tables.

* `toUnixNano`, `fromUnixNano`   an instant as an INTEGER column keeps it;
* `Row`, `SpecRow`   the rows of `jobs` and `recurring`;  `scanJob`, `scanSpec` read them;
* `save`, `claimDue`, `ack`, `fail`, `cancel`, `reschedule`, `recoverStale`, `queueSize`   the
  operations on jobs.  `now` is a reading of the clock that only `updated_at` keeps;
* `upsertRecurring`, `listRecurring`, `updateRecurringNextRun`, `deleteRecurring`,
  `acquireRecurringLease`   those on schedules.

`ORDER BY priority DESC, run_at ASC` is `RowLE`; rows that are equal in both come in the order of their
insertion.
-/

namespace GS.Sqlite

/-! ## columns -/

def toUnixNano (t : Time) : Int64 := if t = zeroTime then 0 else Int64.ofInt t

def fromUnixNano (n : Int64) : Time := if n = 0 then zeroTime else n.toInt

/-- an instant within the range of the column is kept exactly -/
theorem toInt_toUnixNano {t : Int} (h1 : -9223372036854775808 ≤ t) (h2 : t ≤ 9223372036854775807) :
    (toUnixNano t).toInt = t := by
  have hz : t ≠ zeroTime := by
    intro e
    rw [e] at h1
    exact absurd h1 (by decide)
  unfold toUnixNano
  rw [if_neg hz]
  exact Int64.toInt_ofInt_of_le h1 (Int.lt_add_one_of_le h2)

theorem toUnixNano_fromUnixNano (n : Int64) : toUnixNano (fromUnixNano n) = n := by
  unfold toUnixNano fromUnixNano
  by_cases h : n = 0
  · rw [if_pos h, if_pos rfl, h]
  · have hz : n.toInt ≠ zeroTime := by
      intro e
      have := Int64.le_toInt n
      rw [e] at this
      exact absurd this (by decide)
    rw [if_neg h, if_neg hz, Int64.ofInt_toInt]

structure Row where
  id : JobID
  queue : String
  name : String
  payload : List UInt8
  codecName : String
  priority : Priority
  runAt : Int64
  attempt : Int64
  maxAttempts : Int64
  state : State
  timeoutNs : Int64
  lockedBy : String
  lockedUntil : Int64
  lastError : String
  recurringID : JobID
  createdAt : Int64
  updatedAt : Int64
deriving DecidableEq, Repr

/-- the arguments of `upsertJobSQL` -/
def rowOf (j : Job) : Row where
  id := j.id
  queue := j.queue
  name := j.name
  payload := j.payload
  codecName := j.codecName
  priority := j.priority
  runAt := toUnixNano j.runAt
  attempt := j.attempt
  maxAttempts := if j.maxAttempts = 0 then 3 else j.maxAttempts
  state := if j.state = 0 then statePending else j.state
  timeoutNs := j.timeout
  lockedBy := j.lockedBy
  lockedUntil := toUnixNano j.lockedUntil
  lastError := j.lastError
  recurringID := j.recurringID
  createdAt := toUnixNano j.createdAt
  updatedAt := toUnixNano j.updatedAt

def scanJob (r : Row) : Job where
  id := r.id
  queue := r.queue
  name := r.name
  payload := r.payload
  codecName := r.codecName
  priority := r.priority
  runAt := fromUnixNano r.runAt
  attempt := r.attempt
  maxAttempts := r.maxAttempts
  state := r.state
  timeout := r.timeoutNs
  lockedBy := r.lockedBy
  lockedUntil := fromUnixNano r.lockedUntil
  lastError := r.lastError
  recurringID := r.recurringID
  createdAt := fromUnixNano r.createdAt
  updatedAt := fromUnixNano r.updatedAt

structure SpecRow where
  id : JobID
  name : String
  queue : String
  payload : List UInt8
  codecName : String
  priority : Priority
  timeoutNs : Int64
  maxAttempts : Int64
  cron : String
  everyNs : Int64
  catchup : Bool
  nextRunAt : Int64
  lastFireAt : Int64
  leaseUntil : Int64
  leasedBy : String
deriving DecidableEq, Repr

/-- the arguments of `upsertRecurringSQL` -/
def specRowOf (spec : RecurringSpec) : SpecRow where
  id := spec.id
  name := spec.name
  queue := spec.queue
  payload := spec.payload
  codecName := spec.codecName
  priority := spec.priority
  timeoutNs := spec.timeout
  maxAttempts := spec.maxAttempts
  cron := spec.cron
  everyNs := spec.every
  catchup := spec.catchup
  nextRunAt := toUnixNano spec.nextRunAt
  lastFireAt := toUnixNano spec.lastFireAt
  leaseUntil := toUnixNano spec.leaseUntil
  leasedBy := spec.leasedBy

/-- the columns of `listRecurringSQL` -/
def scanSpec (r : SpecRow) : RecurringSpec where
  id := r.id
  name := r.name
  queue := r.queue
  payload := r.payload
  codecName := r.codecName
  priority := r.priority
  timeout := r.timeoutNs
  maxAttempts := r.maxAttempts
  cron := r.cron
  every := r.everyNs
  catchup := r.catchup
  nextRunAt := fromUnixNano r.nextRunAt
  lastFireAt := fromUnixNano r.lastFireAt
  leaseUntil := fromUnixNano r.leaseUntil
  leasedBy := r.leasedBy

structure Db where
  jobs : Keyed Row.id
  recurring : Keyed SpecRow.id

namespace Db

def empty : Db := ⟨Keyed.empty, Keyed.empty⟩

def setJobs (db : Db) (jobs : Keyed Row.id) : Db := { db with jobs := jobs }

def setRecurring (db : Db) (recurring : Keyed SpecRow.id) : Db := { db with recurring := recurring }

/-! ## jobs -/

/-- a row that exists keeps its `created_at` -/
def save (db : Db) (j : Job) : Db :=
  db.setJobs (db.jobs.upsert (rowOf j)
    (fun r => { rowOf j with id := r.id, createdAt := r.createdAt }) fun _ => rfl)

end Db

def isDue (queue : String) (now : Int64) (r : Row) : Bool :=
  r.queue = queue ∧ r.state = statePending ∧ r.runAt ≤ now

def RowLE (a b : Row) : Prop :=
  b.priority < a.priority ∨ a.priority = b.priority ∧ a.runAt ≤ b.runAt

instance : DecidableRel RowLE := fun _ _ => inferInstanceAs (Decidable (_ ∨ _))

/-- `claimUpdateSQL` on a row -/
def claimRow (workerID : String) (lockUntil now : Int64) (r : Row) : Row :=
  { r with state := stateClaimed, lockedBy := workerID, lockedUntil := lockUntil, updatedAt := now }

/-- the job that `ClaimDue` returns for a row that it has selected -/
def claimedJob (now : Time) (workerID : String) (lockUntil : Time) (r : Row) : Job :=
  { scanJob r with
    state := stateClaimed, lockedBy := workerID, lockedUntil := lockUntil, updatedAt := now }

/-- `failRetrySQL` on a row.  The one attempt for which `attempt + 1` leaves the integers, 2^63 - 1, is
not modelled: SQLite writes a REAL there, and a later `ClaimDue` cannot scan it.  `Contract.Sqlite`
excludes it. -/
def retryRow (errMsg : String) (nextAttemptAt now : Int64) (r : Row) : Row :=
  { r with
    attempt := r.attempt + 1, lastError := errMsg, state := statePending, runAt := nextAttemptAt,
    lockedBy := "", lockedUntil := 0, updatedAt := now }

/-- `recoverStaleSQL` on a row -/
def releaseRow (now : Int64) (r : Row) : Row :=
  { r with state := statePending, lockedBy := "", lockedUntil := 0, updatedAt := now }

namespace Db

/-- the updates of `ClaimDue`, for the rows that it has selected -/
def claimRows (db : Db) (ids : List JobID) (workerID : String) (lockUntil now : Int64) : Db :=
  db.setJobs (db.jobs.update (fun r => r.id ∈ ids) (claimRow workerID lockUntil now) fun _ => rfl)

/-- a negative LIMIT is none -/
def claimSelect (db : Db) (queue : String) (now : Int64) (n : Int) : List Row :=
  let due := (db.jobs.rows.filter (isDue queue now)).insertionSort RowLE
  if n < 0 then due else due.take n.toNat

def claimDue (db : Db) (queue : String) (now : Time) (n : Int) (workerID : String)
    (lockUntil : Time) : Db × List Job :=
  let rows := db.claimSelect queue (toUnixNano now) n
  (db.claimRows (rows.map Row.id) workerID (toUnixNano lockUntil) (toUnixNano now),
    rows.map (claimedJob now workerID lockUntil))

/-- `DELETE FROM jobs WHERE id = ?` -/
def deleteJob (db : Db) (id : JobID) : Db := db.setJobs (db.jobs.delete fun r => r.id = id)

def ack (db : Db) (id : JobID) : Db × Option StoreErr :=
  let hit := fun r : Row => decide (r.id = id ∧ r.state = stateClaimed)
  if db.jobs.count hit = 0 then (db, some .jobNotFound)
  else (db.setJobs (db.jobs.delete hit), none)

def fail (db : Db) (id : JobID) (errMsg : String) (nextAttemptAt now : Time) :
    Db × Option StoreErr :=
  match db.jobs.lookup id with
  | none => (db, some .jobNotFound)
  | some r =>
    if r.state ≠ stateClaimed then (db, some .jobNotFound)
    else if 0 < r.maxAttempts ∧ r.maxAttempts ≤ r.attempt + 1 then (db.deleteJob id, none)
    else
      (db.setJobs (db.jobs.update (fun r => r.id = id ∧ r.state = stateClaimed)
        (retryRow errMsg (toUnixNano nextAttemptAt) (toUnixNano now)) fun _ => rfl), none)

def cancel (db : Db) (id : JobID) : Db × Option StoreErr :=
  match db.jobs.lookup id with
  | none => (db, some .jobNotFound)
  | some r => if r.state ≠ statePending then (db, some .jobNotPending) else (db.deleteJob id, none)

def reschedule (db : Db) (id : JobID) (newTime now : Time) : Db × Option StoreErr :=
  match db.jobs.lookup id with
  | none => (db, some .jobNotFound)
  | some r =>
    if r.state ≠ statePending then (db, some .jobNotPending)
    else
      (db.setJobs (db.jobs.update (fun r => r.id = id)
        (fun r => { r with runAt := toUnixNano newTime, updatedAt := toUnixNano now })
        fun _ => rfl), none)

/-- `recoverStaleSQL` with the test that it makes on `locked_until`: the table and the number of rows -/
def recover (db : Db) (expired : Int64 → Bool) (now : Int64) : Db × Nat :=
  let hit := fun r : Row => decide (r.state = stateClaimed) && expired r.lockedUntil
  (db.setJobs (db.jobs.update hit (releaseRow now) fun _ => rfl), db.jobs.count hit)

def recoverStale (db : Db) (now : Time) : Db × Nat :=
  db.recover (fun lu => 0 < lu ∧ lu < toUnixNano now) (toUnixNano now)

def queueSize (db : Db) (queue : String) : Nat :=
  db.jobs.count fun r => r.queue = queue ∧ r.state = statePending

/-! ## schedules -/

/-- a row that exists keeps its lease -/
def upsertRecurring (db : Db) (spec : RecurringSpec) : Db :=
  db.setRecurring (db.recurring.upsert (specRowOf spec)
    (fun r => { specRowOf spec with id := r.id, leaseUntil := r.leaseUntil, leasedBy := r.leasedBy })
    fun _ => rfl)

def listRecurring (db : Db) : List RecurringSpec := db.recurring.rows.map scanSpec

def deleteRecurring (db : Db) (id : JobID) : Db :=
  db.setRecurring (db.recurring.delete fun r => r.id = id)

def updateRecurringNextRun (db : Db) (id : JobID) (nextRunAt lastFireAt : Time) : Db :=
  db.setRecurring (db.recurring.update (fun r => r.id = id)
    (fun r => { r with nextRunAt := toUnixNano nextRunAt, lastFireAt := toUnixNano lastFireAt })
    fun _ => rfl)

/-- the condition of `acquireLeaseSQL`; a lease can be taken if there is none, if it has run out, or if
it is the worker's own -/
def leaseFree (specID : JobID) (now : Int64) (workerID : String) (r : SpecRow) : Bool :=
  r.id = specID ∧ (r.leaseUntil = 0 ∨ r.leaseUntil < now ∨ r.leasedBy = workerID)

/-- `now` is the store's clock; a spec that has no row counts as acquired -/
def acquireRecurringLease (db : Db) (specID : JobID) (leaseUntil : Time) (workerID : String)
    (now : Time) : Db × Bool :=
  let hit := leaseFree specID (toUnixNano now) workerID
  let db' := db.setRecurring (db.recurring.update hit
    (fun r => { r with leaseUntil := toUnixNano leaseUntil, leasedBy := workerID }) fun _ => rfl)
  if 0 < db.recurring.count hit then (db', true)
  else (db', db.recurring.count (fun r => r.id = specID) = 0)

end Db

/-! ## the order of a claim -/

instance : Std.Total RowLE where
  total := fun a b => by
    by_cases h : a.priority = b.priority
    · rcases Int64.le_total a.runAt b.runAt with h' | h'
      · exact Or.inl (Or.inr ⟨h, h'⟩)
      · exact Or.inr (Or.inr ⟨h.symm, h'⟩)
    · rcases UInt8.lt_or_lt_of_ne h with h' | h'
      · exact Or.inr (Or.inl h')
      · exact Or.inl (Or.inl h')

instance : IsTrans Row RowLE where
  trans := fun a b c h1 h2 => by
    rcases h1 with h1 | ⟨e1, h1⟩
    · rcases h2 with h2 | ⟨e2, _⟩
      · exact Or.inl (UInt8.lt_trans h2 h1)
      · exact Or.inl (e2 ▸ h1)
    · rcases h2 with h2 | ⟨e2, h2⟩
      · exact Or.inl (e1 ▸ h2)
      · exact Or.inr ⟨e1.trans e2, Int64.le_trans h1 h2⟩

end GS.Sqlite
