import GoSchedule.Types
import GoSchedule.Lib.Heap

/-!
# The in-memory store

`memstore.go` with its pointers kept: an `*entry` is a `Ref` into the memory `mem`, `byID` maps a
job ID to a `Ref`, and a `queueHeap` is a slice of `Ref`s.  The heap package works on a queue
through the methods of `heapI`, which read and write both the slice and the `index` fields of the
entries, so the part of the store it acts on is a `QHeap`: the memory with one slice.

* `heapRemove`, `heapPush`, `heapFix`   the calls `heap.Remove(s.heap(q), i)` and so on;
* `save`, `claimDue`, `ack`, `fail`, `cancel`, `reschedule`   the operations on jobs;
* `upsertRecurring`, `deleteRecurring`, `updateRecurringNextRun`   those on schedules;
* `Op`, `Op.apply`, `runOps`   every sequence of operations from `Store.new`.

`claimDue` gives `none` where the source panics: `make([]gs.Job, 0, n)` with a negative `n`.  The
panic comes before the first write, so the store of a caller that recovers is unchanged.
The mutex makes every operation one atomic step.
-/

namespace GS.Mem
open GoHeap

abbrev Ref := Nat

structure Entry where
  job : Job
  index : Int
deriving Inhabited

/-- the memory with one slice of entries -/
structure QHeap where
  mem : Ref → Entry
  items : List Ref

namespace QHeap

def get (h : QHeap) (i : Nat) : Ref := h.items.getD i 0

def setIndex (m : Ref → Entry) (r : Ref) (i : Int) : Ref → Entry :=
  Function.update m r { m r with index := i }

/-- a write to the job of an entry -/
def setJob (h : QHeap) (r : Ref) (f : Job → Job) : QHeap :=
  { h with mem := Function.update h.mem r ⟨f (h.mem r).job, (h.mem r).index⟩ }

def len (h : QHeap) : Nat := h.items.length

def less (h : QHeap) (i j : Nat) : Bool := jobLess (h.mem (h.get i)).job (h.mem (h.get j)).job

def swap (h : QHeap) (i j : Nat) : QHeap where
  mem := setIndex (setIndex h.mem (h.get j) i) (h.get i) j
  items := (h.items.set i (h.get j)).set j (h.get i)

def push (h : QHeap) (r : Ref) : QHeap where
  mem := setIndex h.mem r h.items.length
  items := h.items ++ [r]

def pop (h : QHeap) : QHeap × Ref :=
  let e := h.get (h.items.length - 1)
  ({ mem := setIndex h.mem e (-1), items := h.items.dropLast }, e)

end QHeap

def heapI : Iface QHeap Ref where
  len := QHeap.len
  less := QHeap.less
  swap := QHeap.swap
  push := QHeap.push
  pop := QHeap.pop

structure Store where
  mem : Ref → Entry
  next : Ref
  byID : JobID → Option Ref
  queues : String → Option (List Ref)
  recurring : List RecurringSpec

namespace Store

/-- `New()`; the first `Ref` is free -/
def new : Store where
  mem := fun _ => default
  next := 0
  byID := fun _ => none
  queues := fun _ => none
  recurring := []

/-- `s.heap(queue)`: a missing queue reads as an empty one, and `setHeap` creates it -/
def heap (s : Store) (queue : String) : QHeap := ⟨s.mem, (s.queues queue).getD []⟩

def setHeap (s : Store) (queue : String) (h : QHeap) : Store :=
  { s with mem := h.mem, queues := Function.update s.queues queue (some h.items) }

def heapPush (s : Store) (queue : String) (r : Ref) : Store :=
  s.setHeap queue (hpush heapI (s.heap queue) r)

def heapRemove (s : Store) (queue : String) (i : Int) : Store :=
  s.setHeap queue (hremove heapI (s.heap queue) i.toNat).1

def heapFix (s : Store) (queue : String) (i : Int) : Store :=
  s.setHeap queue (hfix heapI (s.heap queue) i.toNat)

/-- a new entry, at the next free `Ref` -/
def alloc (s : Store) (j : Job) : Store :=
  { s with mem := Function.update s.mem s.next ⟨j, -1⟩, next := s.next + 1 }

/-- a write to the job of an entry -/
def setJob (s : Store) (r : Ref) (f : Job → Job) : Store :=
  { s with mem := Function.update s.mem r ⟨f (s.mem r).job, (s.mem r).index⟩ }

def setID (s : Store) (id : JobID) (r : Option Ref) : Store :=
  { s with byID := Function.update s.byID id r }

/-- the part of `Save` that takes an overwritten entry out of its heap -/
def unlink (s : Store) (id : JobID) : Store :=
  match s.byID id with
  | some x => if 0 ≤ (s.mem x).index then s.heapRemove (s.mem x).job.queue (s.mem x).index else s
  | none => s

def save (s : Store) (j : Job) : Store :=
  let j := if j.state = 0 then { j with state := statePending } else j
  let e := s.next
  let s := (((s.alloc j).unlink j.id).setID j.id (some e))
  if j.state = statePending then s.heapPush j.queue e else s

/-! The writes to the fields of an entry's job, as the operations group them. -/

def setState (st : State) (j : Job) : Job := { j with state := st }

def setRunAt (t : Time) (j : Job) : Job := { j with runAt := t }

def countFailure (errMsg : String) (j : Job) : Job :=
  { j with attempt := j.attempt + 1, lastError := errMsg }

def requeue (t : Time) (j : Job) : Job :=
  { j with state := statePending, runAt := t, lockedBy := "", lockedUntil := zeroTime }

def markClaimed (now : Time) (workerID : String) (lockUntil : Time) (j : Job) : Job :=
  { j with state := stateClaimed, lockedBy := workerID, lockedUntil := lockUntil, updatedAt := now }

def claimLoop (now : Time) (n : Int) (workerID : String) (lockUntil : Time) :
    Nat → QHeap → List Job → QHeap × List Job
  | 0, h, out => (h, out)
  | f + 1, h, out =>
    if (out.length : Int) < n ∧ 0 < h.items.length then
      let top := h.get 0
      if now < (h.mem top).job.runAt then (h, out)
      else
        let h := (hpop heapI h).1.setJob top (markClaimed now workerID lockUntil)
        claimLoop now n workerID lockUntil f h (out ++ [(h.mem top).job])
    else (h, out)

/-- `sort.SliceStable` with the order of a claim -/
def sliceStable (out : List Job) : List Job := out.insertionSort ClaimLE

def claimDue (s : Store) (queue : String) (now : Time) (n : Int) (workerID : String)
    (lockUntil : Time) : Option (Store × List Job) :=
  match s.queues queue with
  | none => some (s, [])
  | some items =>
    if n < 0 then none
    else
      let r := claimLoop now n workerID lockUntil items.length ⟨s.mem, items⟩ []
      some (s.setHeap queue r.1, sliceStable r.2)

def ack (s : Store) (id : JobID) : Store × Option StoreErr :=
  match s.byID id with
  | none => (s, some .jobNotFound)
  | some r =>
    if (s.mem r).job.state ≠ stateClaimed then (s, some .jobNotFound)
    else ((s.setJob r (setState stateSucceeded)).setID id none, none)

def fail (s : Store) (id : JobID) (errMsg : String) (nextAttemptAt : Time) :
    Store × Option StoreErr :=
  match s.byID id with
  | none => (s, some .jobNotFound)
  | some r =>
    if (s.mem r).job.state ≠ stateClaimed then (s, some .jobNotFound)
    else
      let s := s.setJob r (countFailure errMsg)
      let j := (s.mem r).job
      if 0 < j.maxAttempts ∧ j.maxAttempts ≤ j.attempt then
        ((s.setJob r (setState stateFailed)).setID id none, none)
      else ((s.setJob r (requeue nextAttemptAt)).heapPush j.queue r, none)

def cancel (s : Store) (id : JobID) : Store × Option StoreErr :=
  match s.byID id with
  | none => (s, some .jobNotFound)
  | some r =>
    if (s.mem r).job.state ≠ statePending then (s, some .jobNotPending)
    else
      let s := if 0 ≤ (s.mem r).index then s.heapRemove (s.mem r).job.queue (s.mem r).index else s
      (s.setID id none, none)

def reschedule (s : Store) (id : JobID) (newTime : Time) : Store × Option StoreErr :=
  match s.byID id with
  | none => (s, some .jobNotFound)
  | some r =>
    if (s.mem r).job.state ≠ statePending then (s, some .jobNotPending)
    else
      let s := s.setJob r (setRunAt newTime)
      (if 0 ≤ (s.mem r).index then s.heapFix (s.mem r).job.queue (s.mem r).index else s, none)

def queueSize (s : Store) (queue : String) : Nat :=
  match s.queues queue with
  | none => 0
  | some items => items.length

def upsertRecurring (s : Store) (spec : RecurringSpec) : Store :=
  { s with recurring := s.recurring.filter (fun r => r.id ≠ spec.id) ++ [spec] }

def deleteRecurring (s : Store) (id : JobID) : Store :=
  { s with recurring := s.recurring.filter fun r => r.id ≠ id }

def updateRecurringNextRun (s : Store) (id : JobID) (nextRunAt lastFireAt : Time) : Store :=
  { s with recurring := s.recurring.map fun r =>
      if r.id = id then { r with nextRunAt := nextRunAt, lastFireAt := lastFireAt } else r }

end Store

inductive Op where
  | save (j : Job)
  | claimDue (queue : String) (now : Time) (n : Int) (workerID : String) (lockUntil : Time)
  | ack (id : JobID)
  | fail (id : JobID) (errMsg : String) (nextAttemptAt : Time)
  | cancel (id : JobID)
  | reschedule (id : JobID) (newTime : Time)
  | upsertRecurring (spec : RecurringSpec)
  | deleteRecurring (id : JobID)
  | updateRecurringNextRun (id : JobID) (nextRunAt lastFireAt : Time)

def Op.apply (s : Store) : Op → Store
  | .save j => s.save j
  | .claimDue q now n w lu => ((s.claimDue q now n w lu).map Prod.fst).getD s
  | .ack id => (s.ack id).1
  | .fail id msg t => (s.fail id msg t).1
  | .cancel id => (s.cancel id).1
  | .reschedule id t => (s.reschedule id t).1
  | .upsertRecurring spec => s.upsertRecurring spec
  | .deleteRecurring id => s.deleteRecurring id
  | .updateRecurringNextRun id next last => s.updateRecurringNextRun id next last

/-- the store after a sequence of operations -/
def runOps (ops : List Op) : Store := ops.foldl Op.apply Store.new

end GS.Mem
