import GoSchedule.Scheduler.Basic
import GoSchedule.MemStore.Refine

/-!
# One execution of a job

`executeOne` of `worker.go`, cut at the places where it waits for something else: the lookup of the
handler, the handler's own run, and what follows it.

* `Outcome`     how the handler ended and what the clock showed; `safeInvoke` turns a panic into an
  error;
* `finish`      what follows a handler: `Ack`, or `Fail` with the worker's own rule for the last
  attempt;
* `noHandler`   what happens to a job without a handler;
* `Done`        the store call that was made, its result and the hooks that are fired after it.
-/

namespace GS

inductive HandlerResult where
  | ok
  | error (err : String)
  | panic (value stack : String)
deriving DecidableEq, Repr

/-- the error that the worker sees; `value` is the panic's value as `toString` renders it -/
def safeInvoke : HandlerResult → Option String
  | .ok => none
  | .error err => some err
  | .panic value stack => some ("panic in handler: " ++ value ++ "\n" ++ stack)

structure Outcome where
  result : HandlerResult
  started : Time
  ended : Time
  now : Time
deriving DecidableEq, Repr

inductive StoreCall where
  | ack (id : JobID)
  | fail (id : JobID) (errMsg : String) (nextAttemptAt : Time)
deriving DecidableEq, Repr

def StoreCall.apply (s : Mem.Store) : StoreCall → Mem.Store × Option StoreErr
  | .ack id => s.ack id
  | .fail id msg t => s.fail id msg t

structure Done where
  call : StoreCall
  store : Mem.Store
  result : Option StoreErr
  events : List Event

def Done.of (s : Mem.Store) (call : StoreCall) (events : Option StoreErr → List Event) : Done :=
  ⟨call, (call.apply s).1, (call.apply s).2, events (call.apply s).2⟩

def maxAttempts (j : Job) : Int64 := if j.maxAttempts ≤ 0 then 3 else j.maxAttempts

/-- a failed `Ack` or terminal `Fail` is logged and the hook fires all the same; a failed `Fail` for
a retry fires none -/
def finish (sc : Scheduler) (x : Outcome) (j : Job) (s : Mem.Store) : Done :=
  let attempt := j.attempt + 1
  match safeInvoke x.result with
  | none =>
    .of s (.ack j.id) fun _ => [.success j.id j.name j.queue attempt (x.ended.sub x.started)]
  | some err =>
    if maxAttempts j ≤ attempt then
      .of s (.fail j.id err (x.now.add hour)) fun _ => [.failure j.id j.name j.queue attempt err]
    else
      let nextAt := x.now.add (sc.defaultBackoff attempt)
      .of s (.fail j.id err nextAt) fun r =>
        if r = none then [.retry j.id j.name j.queue attempt err nextAt] else []

def noHandler (x : Outcome) (j : Job) (s : Mem.Store) : Done :=
  .of s (.fail j.id ("no handler registered for " ++ j.name) (x.now.add hour))
    fun _ => [.failure j.id j.name j.queue (j.attempt + 1) "no handler"]

/-- where a worker goroutine stands: waiting, with a job received, in the handler, or on the way to
`Fail` because there is no handler -/
inductive Worker where
  | idle
  | got (j : Job)
  | running (j : Job)
  | missing (j : Job)
deriving DecidableEq, Repr

/-- the job a worker has not yet called `Ack` or `Fail` for -/
def Worker.job : Worker → Option Job
  | .idle => none
  | .got j => some j
  | .running j => some j
  | .missing j => some j

/-- the store call of a worker whose handler has returned, or that found none -/
def Worker.finish (sc : Scheduler) (x : Outcome) (s : Mem.Store) : Worker → Option Done
  | .running j => some (GS.finish sc x j s)
  | .missing j => some (noHandler x j s)
  | _ => none

/-- what the record becomes -/
def StoreCall.record (j : Job) : StoreCall → Option Job
  | .ack _ => none
  | .fail _ msg t => Mem.afterFail j msg t

def StoreCall.id : StoreCall → JobID
  | .ack id => id
  | .fail id _ _ => id

/-- the call of a finishing worker is about its own job, and the rest of `Done` follows from it -/
theorem Worker.finish_spec {sc : Scheduler} {x : Outcome} {s : Mem.Store} {w : Worker} {d : Done}
    (h : w.finish sc x s = some d) :
    ∃ j, w.job = some j ∧ d.call.id = j.id ∧ d.store = (d.call.apply s).1 ∧
      d.result = (d.call.apply s).2 := by
  cases w with
  | running j =>
    refine ⟨j, rfl, ?_⟩
    obtain rfl := Option.some.inj h
    unfold GS.finish
    dsimp only
    split
    · exact ⟨rfl, rfl, rfl⟩
    · split
      · exact ⟨rfl, rfl, rfl⟩
      · exact ⟨rfl, rfl, rfl⟩
  | missing j =>
    obtain rfl := Option.some.inj h
    exact ⟨j, rfl, rfl, rfl, rfl⟩
  | idle => cases h
  | got j => cases h

/-- a call on a claimed record succeeds and writes only that record -/
theorem StoreCall.apply_spec {s : Mem.Store} (v : Mem.Inv s) (call : StoreCall) {j : Job}
    (hj : s.jobs call.id = some j) (hc : j.state = stateClaimed) :
    (call.apply s).2 = none ∧ Mem.Inv (call.apply s).1 ∧
      (call.apply s).1.jobs = Function.update s.jobs call.id (call.record j) := by
  cases call with
  | ack id => exact Mem.ack_ok v hj hc
  | fail id msg t => exact Mem.fail_ok v hj hc msg t

end GS
