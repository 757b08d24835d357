import GoSchedule.MemStore.Basic
import GoSchedule.Recurring.Cron

/-!
# The scheduler's configuration and its calls

The part of `scheduler.go` and `recurring.go` that a user calls, on a memstore.

* `Scheduler`   the registry of handlers, the queues with their concurrency, the worker's name, the
  visibility timeout and the backoff;
* `JobOption`   the options of one job, applied in order;
* `Scheduler.at`, `Scheduler.every`, `Scheduler.cron`   the calls.  The clock is read once for each
  `s.clock.Now()`, `uuid` is what `uuid.NewString()` returns and `parse` is `cron.ParseStandard`;
* `Event`       what the hooks are told.

A call returns the store, the ID and the hook events, or an `ApiErr`, whose `text` is the message.
-/

namespace GS

inductive Event where
  | enqueue (id : JobID) (name queue : String)
  | start (id : JobID) (name queue : String) (attempt : Int64)
  | success (id : JobID) (name queue : String) (attempt : Int64) (dur : Duration)
  | failure (id : JobID) (name queue : String) (attempt : Int64) (err : String)
  | retry (id : JobID) (name queue : String) (attempt : Int64) (err : String) (nextAt : Time)
deriving DecidableEq, Repr

inductive ApiErr where
  | noHandler (name : String)
  | unknownQueue (queue : String)
  | interval
  | parseCron (expr err : String)
deriving DecidableEq, Repr

/-- `quote` is the verb `%q` of `fmt` -/
def ApiErr.text (quote : String → String) : ApiErr → String
  | .noHandler name => "goschedule: no handler registered for " ++ quote name
  | .unknownQueue queue => "goschedule: unknown queue " ++ quote queue
  | .interval => "goschedule: Every interval must be positive"
  | .parseCron expr err => "goschedule: parse cron " ++ quote expr ++ ": " ++ err

inductive JobOption where
  | withQueue (name : String)
  | withPriority (p : Priority)
  | withMaxAttempts (n : Int64)
  | withTimeout (d : Duration)
  | withCodec (name : String)
  | withCatchup (c : Bool)
deriving DecidableEq, Repr

def JobOption.apply (j : Job) : JobOption → Job
  | .withQueue name => { j with queue := name }
  | .withPriority p => { j with priority := p }
  | .withMaxAttempts n => { j with maxAttempts := n }
  | .withTimeout d => { j with timeout := d }
  | .withCodec name => { j with codecName := name }
  | .withCatchup c => { j with catchup := c }

structure Scheduler where
  handlers : List String
  queues : List (String × Int)
  workerID : String
  visibilityTimeout : Duration
  defaultBackoff : Int64 → Duration

namespace Scheduler

def register (sc : Scheduler) (name : String) : Scheduler :=
  { sc with handlers := name :: sc.handlers }

def isRegistered (sc : Scheduler) (name : String) : Bool := sc.handlers.contains name

/-- the job that `At` saves -/
def atJob (now t : Time) (uuid : JobID) (name : String) (payload : List UInt8)
    (opts : List JobOption) : Job :=
  opts.foldl JobOption.apply
    { id := uuid, name := name, queue := "default", priority := priorityNormal,
      payload := payload, runAt := t, state := statePending, maxAttempts := 3, createdAt := now }

/-- no option changes these fields -/
theorem atJob_kept (now t : Time) (uuid : JobID) (name : String) (payload : List UInt8)
    (opts : List JobOption) : (atJob now t uuid name payload opts).id = uuid ∧
      (atJob now t uuid name payload opts).name = name ∧
      (atJob now t uuid name payload opts).runAt = t ∧
      (atJob now t uuid name payload opts).attempt = 0 ∧
      (atJob now t uuid name payload opts).state = statePending := by
  have hkeep : ∀ (opts : List JobOption) (j : Job), (opts.foldl JobOption.apply j).id = j.id ∧
      (opts.foldl JobOption.apply j).name = j.name ∧
      (opts.foldl JobOption.apply j).runAt = j.runAt ∧
      (opts.foldl JobOption.apply j).attempt = j.attempt ∧
      (opts.foldl JobOption.apply j).state = j.state := by
    intro opts
    induction opts with
    | nil => exact fun j => ⟨rfl, rfl, rfl, rfl, rfl⟩
    | cons o opts ih =>
      intro j
      cases o <;> exact ih _
  exact hkeep opts _

def «at» (sc : Scheduler) (now t : Time) (uuid : JobID) (s : Mem.Store) (name : String)
    (payload : List UInt8) (opts : List JobOption) :
    Except ApiErr (Mem.Store × JobID × List Event) :=
  if sc.isRegistered name = false then .error (.noHandler name)
  else
    let j := atJob now t uuid name payload opts
    match sc.queues.lookup j.queue with
    | none => .error (.unknownQueue j.queue)
    | some _ => .ok (s.save j, j.id, [.enqueue j.id j.name j.queue])

/-- `now` is the first reading of the clock, `now'` the one inside `At` -/
def now (sc : Scheduler) (now now' : Time) (uuid : JobID) (s : Mem.Store) (name : String)
    (payload : List UInt8) (opts : List JobOption) :
    Except ApiErr (Mem.Store × JobID × List Event) :=
  sc.at now' now uuid s name payload opts

def after (sc : Scheduler) (now now' : Time) (d : Duration) (uuid : JobID) (s : Mem.Store)
    (name : String) (payload : List UInt8) (opts : List JobOption) :
    Except ApiErr (Mem.Store × JobID × List Event) :=
  sc.at now' (now.add d) uuid s name payload opts

def buildRecurringSpec (uuid : JobID) (name : String) (payload : List UInt8)
    (opts : List JobOption) : RecurringSpec :=
  let tmp := opts.foldl JobOption.apply
    { queue := "default", priority := priorityNormal, maxAttempts := 3 }
  { id := uuid, name := name, queue := tmp.queue, priority := tmp.priority, payload := payload,
    codecName := tmp.codecName, timeout := tmp.timeout, maxAttempts := tmp.maxAttempts,
    catchup := tmp.catchup }

def every (sc : Scheduler) (now : Time) (d : Duration) (uuid : JobID) (s : Mem.Store)
    (name : String) (payload : List UInt8) (opts : List JobOption) :
    Except ApiErr (Mem.Store × JobID × List Event) :=
  if sc.isRegistered name = false then .error (.noHandler name)
  else if d ≤ 0 then .error .interval
  else
    let spec := { buildRecurringSpec uuid name payload opts with
      every := d, nextRunAt := now.add d }
    .ok (s.upsertRecurring spec, spec.id, [.enqueue spec.id spec.name spec.queue])

def cron (sc : Scheduler) (parse : String → Except String Schedule) (now : Time) (expr : String)
    (uuid : JobID) (s : Mem.Store) (name : String) (payload : List UInt8)
    (opts : List JobOption) : Except ApiErr (Mem.Store × JobID × List Event) :=
  if sc.isRegistered name = false then .error (.noHandler name)
  else
    match parse expr with
    | .error err => .error (.parseCron expr err)
    | .ok sched =>
      let spec := { buildRecurringSpec uuid name payload opts with
        cron := expr, nextRunAt := sched.next now }
      .ok (s.upsertRecurring spec, spec.id, [.enqueue spec.id spec.name spec.queue])

end Scheduler

/-- a scheduler with one handler and one queue -/
def oneHandler : Scheduler where
  handlers := ["job"]
  queues := [("default", 1)]
  workerID := "w"
  visibilityTimeout := 0
  defaultBackoff := fun _ => 0

end GS
