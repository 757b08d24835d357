import GoSchedule.Lib.Sim
import GoSchedule.MemStore.Refine

/-!
# The in-memory store refines a map

What the store is for, without heaps and indices: a map from job ID to job (`JobMap`) with the
operations as functions of the map, and for `ClaimDue` a relation, since the map leaves open which
due jobs are taken.

* `Op.call`       an operation of the store with its result, `Res`;
* `JobMap.ack`, `fail`, `cancel`, `reschedule`   the same operations on the map;
* `Claims`        what a claim may return and what it does to the map;
* `MapStep`       one operation on the map;
* `runOps_refines`   **every sequence of operations gives, on the store, a history that the map has
  too**, and `QueueSize` counts the pending records.
-/

namespace GS.Mem
open Sim Store

/-! ## operations with their results -/

inductive Res where
  | err (e : Option StoreErr)
  | jobs (l : List Job)
  | panic
deriving DecidableEq, Repr

def Op.call (s : Store) : Op → Res × Store
  | .save j => (.err none, s.save j)
  | .claimDue q now n w lu =>
    match s.claimDue q now n w lu with
    | some (t, l) => (.jobs l, t)
    | none => (.panic, s)
  | .ack id => (.err (s.ack id).2, (s.ack id).1)
  | .fail id msg t => (.err (s.fail id msg t).2, (s.fail id msg t).1)
  | .cancel id => (.err (s.cancel id).2, (s.cancel id).1)
  | .reschedule id t => (.err (s.reschedule id t).2, (s.reschedule id t).1)
  | .upsertRecurring spec => (.err none, s.upsertRecurring spec)
  | .deleteRecurring id => (.err none, s.deleteRecurring id)
  | .updateRecurringNextRun id next last => (.err none, s.updateRecurringNextRun id next last)

def Op.Calls (s : Store) (op : Op) (r : Res) (t : Store) : Prop := op.call s = (r, t)

theorem call_apply (s : Store) (op : Op) : (op.call s).2 = op.apply s := by
  cases op with
  | claimDue q now n w lu =>
    show (match s.claimDue q now n w lu with
      | some (t, l) => (Res.jobs l, t)
      | none => (Res.panic, s)).2 = ((s.claimDue q now n w lu).map Prod.fst).getD s
    cases s.claimDue q now n w lu with
    | none => rfl
    | some p => rfl
  | _ => rfl

/-! ## the map -/

abbrev JobMap := JobID → Option Job

namespace JobMap

/-- `act` on the record of `id` if it is there in the state `st`, else the error that `act` has -/
def onState (m : JobMap) (id : JobID) (st : State) (wrong : StoreErr) (act : Job → Option Job) :
    Option StoreErr × JobMap :=
  match m id with
  | none => (some .jobNotFound, m)
  | some j => if j.state = st then (none, Function.update m id (act j)) else (some wrong, m)

def ack (m : JobMap) (id : JobID) : Option StoreErr × JobMap :=
  m.onState id stateClaimed .jobNotFound fun _ => none

/-- the last attempt that is allowed deletes the record; any other makes it pending again, with one
more attempt, the error, the new `RunAt` and no lock -/
def fail (m : JobMap) (id : JobID) (errMsg : String) (t : Time) : Option StoreErr × JobMap :=
  m.onState id stateClaimed .jobNotFound fun j =>
    if 0 < j.maxAttempts ∧ j.maxAttempts ≤ j.attempt + 1 then none
    else some { j with
      attempt := j.attempt + 1, lastError := errMsg, state := statePending, runAt := t,
      lockedBy := "", lockedUntil := zeroTime }

def cancel (m : JobMap) (id : JobID) : Option StoreErr × JobMap :=
  m.onState id statePending .jobNotPending fun _ => none

def reschedule (m : JobMap) (id : JobID) (t : Time) : Option StoreErr × JobMap :=
  m.onState id statePending .jobNotPending fun j => some { j with runAt := t }

/-- the pending records of a queue -/
def pending (m : JobMap) (q : String) : Set Job :=
  {j | m j.id = some j ∧ j.state = statePending ∧ j.queue = q}

end JobMap

/-- a claim of at most `n` jobs from the queue `q` at `now`: the records `L`, each once, pending and
due, in claim order, become claimed records with the caller's lock; nothing else changes -/
structure Claims (m : JobMap) (q : String) (now : Time) (n : Int) (w : String) (lu : Time)
    (L : List Job) (m' : JobMap) : Prop where
  le : (L.length : Int) ≤ n
  nodup : (L.map Job.id).Nodup
  pending : ∀ j ∈ L, j ∈ m.pending q
  due : ∀ j ∈ L, j.runAt ≤ now
  sorted : L.Pairwise ClaimLE
  claimed : ∀ j ∈ L, m' j.id = some { j with
    state := stateClaimed, lockedBy := w, lockedUntil := lu, updatedAt := now }
  others : ∀ id, (∀ j ∈ L, j.id ≠ id) → m' id = m id

/-- one operation on the map; with a negative `n` a claim takes nothing, and may panic -/
inductive MapStep (m : JobMap) : Op → Res → JobMap → Prop
  | save (j : Job) : MapStep m (.save j) (.err none) (Function.update m j.id (some j))
  | claimDue {q : String} {now : Time} {n : Int} {w : String} {lu : Time} {L : List Job}
      {m' : JobMap} (h : Claims m q now n w lu L m') :
      MapStep m (.claimDue q now n w lu) (.jobs (L.map (markClaimed now w lu))) m'
  | claimNegative {q : String} {now : Time} {n : Int} {w : String} {lu : Time} {r : Res}
      (hn : n < 0) (hr : r = .panic ∨ r = .jobs []) : MapStep m (.claimDue q now n w lu) r m
  | ack (id : JobID) : MapStep m (.ack id) (.err (m.ack id).1) (m.ack id).2
  | fail (id : JobID) (msg : String) (t : Time) :
      MapStep m (.fail id msg t) (.err (m.fail id msg t).1) (m.fail id msg t).2
  | cancel (id : JobID) : MapStep m (.cancel id) (.err (m.cancel id).1) (m.cancel id).2
  | reschedule (id : JobID) (t : Time) :
      MapStep m (.reschedule id t) (.err (m.reschedule id t).1) (m.reschedule id t).2
  | upsertRecurring (spec : RecurringSpec) : MapStep m (.upsertRecurring spec) (.err none) m
  | deleteRecurring (id : JobID) : MapStep m (.deleteRecurring id) (.err none) m
  | updateRecurringNextRun (id : JobID) (next last : Time) :
      MapStep m (.updateRecurringNextRun id next last) (.err none) m

/-! ## one operation -/

/-- the store `s` stands for the map `m` -/
def Stands (s : Store) (m : JobMap) : Prop := Inv s ∧ s.jobs = m

section
variable {s : Store} {id : JobID}

/-- the two ways in which a call on one record can go -/
theorem onState_ok {m : JobMap} {j : Job} {st : State} (hj : m id = some j) (hs : j.state = st)
    (wrong : StoreErr) (act : Job → Option Job) :
    m.onState id st wrong act = (none, Function.update m id (act j)) := by
  unfold JobMap.onState
  rw [hj]
  exact if_pos hs

theorem onState_wrong {m : JobMap} {j : Job} {st : State} (hj : m id = some j) (hs : j.state ≠ st)
    (wrong : StoreErr) (act : Job → Option Job) :
    m.onState id st wrong act = (some wrong, m) := by
  unfold JobMap.onState
  rw [hj]
  exact if_neg hs

theorem onState_missing {m : JobMap} (hj : m id = none) (st : State) (wrong : StoreErr)
    (act : Job → Option Job) : m.onState id st wrong act = (some .jobNotFound, m) := by
  unfold JobMap.onState
  rw [hj]

theorem ack_stands (v : Inv s) (id : JobID) :
    (s.ack id).2 = (JobMap.ack s.jobs id).1 ∧ Stands (s.ack id).1 (JobMap.ack s.jobs id).2 := by
  unfold JobMap.ack
  cases hj : s.jobs id with
  | none =>
    rw [onState_missing hj, ack_err (fun j h => by rw [hj] at h; cases h)]
    exact ⟨rfl, v, rfl⟩
  | some j =>
    by_cases hc : j.state = stateClaimed
    · obtain ⟨h1, h2, h3⟩ := ack_ok v hj hc
      rw [onState_ok hj hc]
      exact ⟨h1, h2, h3⟩
    · rw [onState_wrong hj hc, ack_err (fun k h => by rw [hj] at h; exact Option.some.inj h ▸ hc)]
      exact ⟨rfl, v, rfl⟩

theorem fail_stands (v : Inv s) (id : JobID) (msg : String) (t : Time) :
    (s.fail id msg t).2 = (JobMap.fail s.jobs id msg t).1 ∧
      Stands (s.fail id msg t).1 (JobMap.fail s.jobs id msg t).2 := by
  unfold JobMap.fail
  cases hj : s.jobs id with
  | none =>
    rw [onState_missing hj, fail_err (fun j h => by rw [hj] at h; cases h)]
    exact ⟨rfl, v, rfl⟩
  | some j =>
    by_cases hc : j.state = stateClaimed
    · obtain ⟨h1, h2, h3⟩ := fail_ok v hj hc msg t
      rw [onState_ok hj hc]
      exact ⟨h1, h2, h3⟩
    · rw [onState_wrong hj hc, fail_err (fun k h => by rw [hj] at h; exact Option.some.inj h ▸ hc)]
      exact ⟨rfl, v, rfl⟩

theorem cancel_stands (v : Inv s) (id : JobID) :
    (s.cancel id).2 = (JobMap.cancel s.jobs id).1 ∧
      Stands (s.cancel id).1 (JobMap.cancel s.jobs id).2 := by
  unfold JobMap.cancel
  cases hj : s.jobs id with
  | none =>
    rw [onState_missing hj, cancel_err_missing hj]
    exact ⟨rfl, v, rfl⟩
  | some j =>
    by_cases hp : j.state = statePending
    · obtain ⟨h1, h2, h3⟩ := cancel_ok v hj hp
      rw [onState_ok hj hp]
      exact ⟨h1, h2, h3⟩
    · rw [onState_wrong hj hp, cancel_err_state hj hp]
      exact ⟨rfl, v, rfl⟩

theorem reschedule_stands (v : Inv s) (id : JobID) (t : Time) :
    (s.reschedule id t).2 = (JobMap.reschedule s.jobs id t).1 ∧
      Stands (s.reschedule id t).1 (JobMap.reschedule s.jobs id t).2 := by
  unfold JobMap.reschedule
  cases hj : s.jobs id with
  | none =>
    rw [onState_missing hj, reschedule_err_missing hj]
    exact ⟨rfl, v, rfl⟩
  | some j =>
    by_cases hp : j.state = statePending
    · obtain ⟨h1, h2, h3⟩ := reschedule_ok v hj hp t
      rw [onState_ok hj hp]
      exact ⟨h1, h2, h3⟩
    · rw [onState_wrong hj hp, reschedule_err_state hj hp]
      exact ⟨rfl, v, rfl⟩

/-- the heap's own order of taking jobs is one that the map allows -/
theorem Batch.claims {m m' : JobMap} {q : String} {now : Time} {n : Int} {w : String} {lu : Time}
    {L : List Job} (B : Batch m q now n w lu L m') : Claims m q now n w lu L m' where
  le := B.le
  nodup := B.nodup
  pending := fun j hj => ⟨(B.mem j hj).1, (B.mem j hj).2.1, (B.mem j hj).2.2.1⟩
  due := fun j hj => (B.mem j hj).2.2.2
  sorted := B.sorted
  claimed := B.eq_in
  others := B.eq_out

theorem claimDue_stands (v : Inv s) (q : String) (now : Time) (n : Int) (w : String) (lu : Time) :
    ∃ m', MapStep s.jobs (.claimDue q now n w lu) (Op.call s (.claimDue q now n w lu)).1 m' ∧
      Stands (Op.call s (.claimDue q now n w lu)).2 m' := by
  unfold Op.call
  by_cases hn : 0 ≤ n
  · obtain ⟨t, L, e, vt, B, _⟩ := claimDue_spec v q now hn w lu
    dsimp only
    rw [e]
    exact ⟨_, .claimDue B.claims, vt, rfl⟩
  · have hneg : n < 0 := not_le.mp hn
    dsimp only
    cases hq : s.queues q with
    | none =>
      rw [claimDue_missing hq]
      exact ⟨_, .claimNegative hneg (Or.inr rfl), v, rfl⟩
    | some items =>
      rw [claimDue_panic hq now hneg]
      exact ⟨_, .claimNegative hneg (Or.inl rfl), v, rfl⟩

end

/-- **Every operation of the store is one of the map.** -/
theorem stands_simulates : Simulates Stands (fun s op r t => Op.Calls s op r t) MapStep := by
  intro s m op r t hs hcall
  obtain ⟨v, rfl⟩ := hs
  have hr : (op.call s).1 = r := congrArg Prod.fst hcall
  have ht : (op.call s).2 = t := congrArg Prod.snd hcall
  rw [← hr, ← ht]
  cases op with
  | save j => exact ⟨_, .save j, save_spec v j⟩
  | claimDue q now n w lu => exact claimDue_stands v q now n w lu
  | ack id =>
    obtain ⟨e, h⟩ := ack_stands v id
    refine ⟨_, ?_, h⟩
    show MapStep s.jobs _ (.err (s.ack id).2) _
    rw [e]
    exact .ack id
  | fail id msg t =>
    obtain ⟨e, h⟩ := fail_stands v id msg t
    refine ⟨_, ?_, h⟩
    show MapStep s.jobs _ (.err (s.fail id msg t).2) _
    rw [e]
    exact .fail id msg t
  | cancel id =>
    obtain ⟨e, h⟩ := cancel_stands v id
    refine ⟨_, ?_, h⟩
    show MapStep s.jobs _ (.err (s.cancel id).2) _
    rw [e]
    exact .cancel id
  | reschedule id t =>
    obtain ⟨e, h⟩ := reschedule_stands v id t
    refine ⟨_, ?_, h⟩
    show MapStep s.jobs _ (.err (s.reschedule id t).2) _
    rw [e]
    exact .reschedule id t
  | upsertRecurring spec => exact ⟨_, .upsertRecurring spec, apply_inv v (.upsertRecurring spec), rfl⟩
  | deleteRecurring id => exact ⟨_, .deleteRecurring id, apply_inv v (.deleteRecurring id), rfl⟩
  | updateRecurringNextRun id next last =>
    exact ⟨_, .updateRecurringNextRun id next last,
      apply_inv v (.updateRecurringNextRun id next last), rfl⟩

/-! ## QueueSize -/

theorem queueSize_eq (s : Store) (q : String) : s.queueSize q = (s.heap q).items.length := by
  unfold Store.queueSize Store.heap
  cases s.queues q with
  | none => rfl
  | some items => rfl

/-- the items of a heap are the pending records of its queue, each once -/
theorem encard_pending {s : Store} (v : Inv s) (q : String) :
    (JobMap.pending s.jobs q).encard = s.queueSize q := by
  set L := (s.heap q).items.map fun r => (s.mem r).job with hL
  have hnd : L.Nodup := by
    refine (v.ok q).idx.nodup.map_on fun a ha b hb e => ?_
    have h1 := (v.item ha).1
    rw [e, (v.item hb).1] at h1
    exact (Option.some.inj h1).symm
  have hset : JobMap.pending s.jobs q = (L.toFinset : Set Job) := by
    ext j
    rw [Finset.mem_coe, List.mem_toFinset, hL, List.mem_map]
    constructor
    · intro hj
      obtain ⟨h1, h2, h3⟩ := hj
      exact v.exists_item h1 h2 h3
    · intro hj
      obtain ⟨r, hr, rfl⟩ := hj
      exact ⟨jobs_eq_some.mpr ⟨r, (v.item hr).1, rfl⟩, (v.item hr).2.1, (v.item hr).2.2⟩
  rw [hset, Set.encard_coe_eq_coe_finsetCard, List.toFinset_card_of_nodup hnd, hL, List.length_map,
    queueSize_eq]

/-! ## whole sequences -/

/-- the history of a sequence of operations on the store -/
theorem exists_history (ops : List Op) : ∃ h : List (Op × Res), h.map Prod.fst = ops ∧
    Runs (fun s op r t => Op.Calls s op r t) Store.new h (runOps ops) := by
  induction ops using List.reverseRecOn with
  | nil => exact ⟨[], rfl, .nil⟩
  | append_singleton ops op ih =>
    obtain ⟨h, rfl, hr⟩ := ih
    refine ⟨h ++ [(op, (op.call (runOps (h.map Prod.fst))).1)], by rw [List.map_append]; rfl, ?_⟩
    refine .snoc hr ?_
    have e : runOps (h.map Prod.fst ++ [op]) = op.apply (runOps (h.map Prod.fst)) := by
      unfold runOps
      rw [List.foldl_append]
      rfl
    rw [e, ← call_apply]
    rfl

/-- **The in-memory store refines a map**: what it returns along any sequence of operations is a
history of the map, which ends with the map of the store's jobs, and `QueueSize` is the number of
pending records. -/
theorem runOps_refines (ops : List Op) : ∃ h : List (Op × Res), h.map Prod.fst = ops ∧
    Runs (fun s op r t => Op.Calls s op r t) Store.new h (runOps ops) ∧
    Runs MapStep (fun _ => none) h (runOps ops).jobs ∧
    ∀ q, (JobMap.pending (runOps ops).jobs q).encard = (runOps ops).queueSize q := by
  obtain ⟨h, hops, hr⟩ := exists_history ops
  obtain ⟨m, hm, v, rfl⟩ := hr.simulate stands_simulates ⟨new_inv, rfl⟩
  exact ⟨h, hops, hr, hm, encard_pending v⟩

end GS.Mem
