import GoSchedule.Lib.Loop
import GoSchedule.Scheduler.Basic

/-!
# The recurring runner

`recurringRunner` of `recurring.go`.  `parse` is `cron.ParseStandard`; `noCron` accepts no expression.

* `advance`        the fire after a given one, by interval, by cron expression or by the hour;
* `computeFires`   the due fire and, with catch-up, up to `maxCatchup` further ones;
* `nextAfter`      the loop for the next fire after `now`.  It has no bound in the source, so it is
  a function of a fuel: `none` says that the rounds were not enough;
* `tickSpec`, `tick`   one round of `run` on one spec, and on all specs of a memstore, where a lease
  is always granted.
-/

namespace GS.Recurring

def noCron (_ : String) : Except String Schedule := .error "none"

section
variable (parse : String → Except String Schedule)

def advance (spec : RecurringSpec) (t : Time) : Time :=
  if 0 < spec.every then t.add spec.every
  else if spec.cron ≠ "" then
    match parse spec.cron with
    | .error _ => t.add hour
    | .ok sched => sched.next t
  else t.add hour

def maxCatchup : Nat := 1000

/-- the loop of `computeFires`, from the last fire -/
def catchupLoop (spec : RecurringSpec) (now : Time) : Nat → Time → List Time
  | 0, _ => []
  | i + 1, last =>
    let next := advance parse spec last
    if next ≤ last then []
    else if now < next then []
    else next :: catchupLoop spec now i next

def computeFires (spec : RecurringSpec) (now : Time) : List Time :=
  spec.nextRunAt ::
    if spec.catchup then catchupLoop parse spec now maxCatchup spec.nextRunAt else []

def nextAfter (fuel : Nat) (spec : RecurringSpec) (now : Time) : Option Time :=
  Loop.loop (advance parse spec) (fun t => decide (now < t)) fuel
    (advance parse spec spec.nextRunAt)

def fireJob (spec : RecurringSpec) (uuid : JobID) (now fireAt : Time) : Job :=
  { id := uuid, name := spec.name, queue := spec.queue, priority := spec.priority,
    payload := spec.payload, codecName := spec.codecName, runAt := fireAt, state := statePending,
    maxAttempts := spec.maxAttempts, delivery := spec.delivery, timeout := spec.timeout,
    recurringID := spec.id, createdAt := now }

/-- `uuid i` is the ID of the `i`-th job that the round saves -/
def tickSpec (uuid : Nat → JobID) (fuel : Nat) (now : Time) (s : Mem.Store)
    (spec : RecurringSpec) : Option Mem.Store :=
  if now < spec.nextRunAt then some s
  else
    let s := (computeFires parse spec now).zipIdx.foldl
      (fun s p => s.save (fireJob spec (uuid p.2) now p.1)) s
    (nextAfter parse fuel spec now).map fun next => s.updateRecurringNextRun spec.id next now

def tick (uuid : JobID → Nat → JobID) (fuel : Nat) (now : Time) (s : Mem.Store) :
    Option Mem.Store :=
  s.recurring.foldlM (fun s spec => tickSpec parse (uuid spec.id) fuel now s spec) s

end
end GS.Recurring
