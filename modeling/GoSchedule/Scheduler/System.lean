import GoSchedule.Lib.Run
import GoSchedule.Lib.Slots
import GoSchedule.Recurring.Basic
import GoSchedule.Scheduler.Ledger
import GoSchedule.Scheduler.Worker

/-!
# A running scheduler on a memstore

The goroutines that `Start` boots, before the context is cancelled: for each queue a dispatcher
(`dispatcher.go`), a channel with the queue's concurrency as its capacity, and that many workers
(`worker.go`).  `Sys` is the state of all of them and of the store they share.

* `Label`   who moves next: a call of the user, a save of the recurring runner, a dispatcher (claim a
  batch, send one job) or a worker (receive, look up the handler, make the store call);
* `step`    one move.  The hooks that follow a store call are fired with it (`Hooked` of `Metrics.Totals`
  makes them steps of their own);
* `Sys.held`   the jobs of a queue in the dispatcher's unsent batch, in the channel and with workers
  that have not called `Ack` or `Fail`;
* `Move`, `step_move`   all that a step can do, once the held jobs are the claimed records.

`saved` and `log` record the jobs that were saved and the hooks that were fired; no step reads the
log, and `saved` is read only to say that `uuid.NewString` returns new IDs.
-/

namespace GS
open Mem Slots

/-- the concurrency of a queue; with a negative one `Start` panics when it makes the channel -/
def Scheduler.concurrency (sc : Scheduler) (q : String) : Option Nat :=
  match sc.queues.lookup q with
  | some (.ofNat c) => some c
  | _ => none

structure Sys where
  sched : Scheduler
  store : Mem.Store
  batch : String → List Job
  chan : String → List Job
  workers : String → List Worker
  saved : List Job
  log : List Event

namespace Sys

def init (sc : Scheduler) : Sys where
  sched := sc
  store := Mem.Store.new
  batch := fun _ => []
  chan := fun _ => []
  workers := fun q => List.replicate ((sc.concurrency q).getD 0) .idle
  saved := []
  log := []

def held (s : Sys) (q : String) : List Job :=
  s.batch q ++ (s.chan q ++ (s.workers q).filterMap Worker.job)

def Fresh (s : Sys) (id : JobID) : Prop := id ∉ s.saved.map Job.id

instance (s : Sys) (id : JobID) : Decidable (s.Fresh id) := inferInstanceAs (Decidable (_ ∉ _))

def saveJob (s : Sys) (j : Job) : Sys :=
  { s with store := s.store.save j, saved := s.saved ++ [j] }

def setWorker (s : Sys) (q : String) (i : Nat) (w : Worker) : Sys :=
  { s with workers := Function.update s.workers q ((s.workers q).set i w) }

end Sys

inductive Label where
  | register (name : String)
  | save (j : Job)
  | schedule (now t : Time) (uuid : JobID) (name : String) (payload : List UInt8)
      (opts : List JobOption)
  | fire (spec : RecurringSpec) (uuid : JobID) (now fireAt : Time)
  | cancel (id : JobID)
  | reschedule (id : JobID) (t : Time)
  | claim (q : String) (now : Time)
  | send (q : String)
  | receive (q : String) (i : Nat)
  | lookup (q : String) (i : Nat)
  | finish (q : String) (i : Nat) (x : Outcome)

/-- `save` is a direct `Store.Save` of a pending job, `schedule` is `At` (and so `Now` and `After`),
`fire` is a save of the recurring runner -/
def step (s : Sys) : Label → Option Sys
  | .register name => some { s with sched := s.sched.register name }
  | .save j => if j.state = statePending ∧ s.Fresh j.id then some (s.saveJob j) else none
  | .schedule now t uuid name payload opts =>
    if s.Fresh uuid then
      match s.sched.at now t uuid s.store name payload opts with
      | .error _ => some s
      | .ok (store, _, evs) =>
        some { s with
          store := store, saved := s.saved ++ [Scheduler.atJob now t uuid name payload opts],
          log := s.log ++ evs }
    else none
  | .fire spec uuid now fireAt =>
    if s.Fresh uuid then some (s.saveJob (Recurring.fireJob spec uuid now fireAt)) else none
  | .cancel id => some { s with store := (s.store.cancel id).1 }
  | .reschedule id t => some { s with store := (s.store.reschedule id t).1 }
  | .claim q now =>
    match s.sched.concurrency q, s.batch q with
    | some c, [] =>
      (s.store.claimDue q now c s.sched.workerID (now.add s.sched.visibilityTimeout)).map fun r =>
        { s with store := r.1, batch := Function.update s.batch q r.2 }
    | _, _ => none
  | .send q =>
    match s.sched.concurrency q, s.batch q with
    | some c, j :: rest =>
      if (s.chan q).length < c then
        some { s with
          batch := Function.update s.batch q rest,
          chan := Function.update s.chan q (s.chan q ++ [j]) }
      else none
    | _, _ => none
  | .receive q i =>
    match s.chan q, (s.workers q)[i]? with
    | j :: rest, some .idle =>
      some ({ s with chan := Function.update s.chan q rest }.setWorker q i (.got j))
    | _, _ => none
  | .lookup q i =>
    match (s.workers q)[i]? with
    | some (.got j) =>
      if s.sched.isRegistered j.name then
        some { s.setWorker q i (.running j) with
          log := s.log ++ [.start j.id j.name j.queue (j.attempt + 1)] }
      else some (s.setWorker q i (.missing j))
    | _ => none
  | .finish q i x =>
    match (s.workers q)[i]? with
    | some w =>
      (w.finish s.sched x s.store).map fun d =>
        { s.setWorker q i .idle with store := d.store, log := s.log ++ d.events }
    | none => none

/-! ## what the log says about a job -/

/-- the attempts for which a handler was called, in order -/
def attempts (id : JobID) : List Event → List Int64
  | [] => []
  | .start id' _ _ a :: l => if id' = id then a :: attempts id l else attempts id l
  | _ :: l => attempts id l

/-- how often `OnFailure` was fired -/
def failures (id : JobID) : List Event → Nat
  | [] => 0
  | .failure id' _ _ _ _ :: l => if id' = id then failures id l + 1 else failures id l
  | _ :: l => failures id l

theorem attempts_append (id : JobID) (l l' : List Event) :
    attempts id (l ++ l') = attempts id l ++ attempts id l' := by
  induction l with
  | nil => rfl
  | cons e l ih =>
    cases e with
    | start id' _ _ a =>
      by_cases h : id' = id <;> simp [attempts, h, ih]
    | enqueue _ _ _ => exact ih
    | success _ _ _ _ _ => exact ih
    | failure _ _ _ _ _ => exact ih
    | retry _ _ _ _ _ _ => exact ih

theorem failures_append (id : JobID) (l l' : List Event) :
    failures id (l ++ l') = failures id l + failures id l' := by
  induction l with
  | nil => simp [failures]
  | cons e l ih =>
    cases e with
    | failure id' _ _ _ _ =>
      by_cases h : id' = id
      · simp only [List.cons_append, failures, if_pos h, ih]
        omega
      · simp [failures, h, ih]
    | enqueue _ _ _ => exact ih
    | start _ _ _ _ => exact ih
    | success _ _ _ _ _ => exact ih
    | retry _ _ _ _ _ _ => exact ih

/-- a finishing worker starts nothing -/
theorem attempts_finish {sc : Scheduler} {x : Outcome} {s : Mem.Store} {w : Worker} {d : Done}
    (h : w.finish sc x s = some d) (id : JobID) : attempts id d.events = [] := by
  cases w with
  | running j =>
    obtain rfl := Option.some.inj h
    unfold finish
    dsimp only
    split
    · rfl
    · split
      · rfl
      · show attempts id (if _ then _ else _) = []
        split <;> rfl
  | missing j =>
    obtain rfl := Option.some.inj h
    rfl
  | idle => cases h
  | got j => cases h

/-! ## all that a step can do -/

/-- handlers keep running, and nothing is started or reported as failed -/
structure Frame (s t : Sys) : Prop where
  running : ∀ q k, .running k ∈ s.workers q → .running k ∈ t.workers q
  attempts : ∀ id, attempts id t.log = attempts id s.log
  failures : ∀ id, failures id t.log = failures id s.log

inductive Move (s : Sys) (a : Label) (t : Sys) : Prop where
  | quiet (store : t.store = s.store) (saved : t.saved = s.saved)
      (held : ∀ q, (s.held q).Perm (t.held q)) (fr : Frame s t)
  | save (j : Job) (fresh : s.Fresh j.id) (pending : j.state = statePending) (inv : Inv t.store)
      (jobs : t.store.jobs = Function.update s.store.jobs j.id (some j))
      (saved : t.saved = s.saved ++ [j]) (held : t.held = s.held) (fr : Frame s t)
  | edit (j : Job) (r : Option Job) (old : s.store.jobs j.id = some j)
      (pending : j.state = statePending)
      (new : ∀ k, r = some k → k.state = statePending ∧ k.attempt = j.attempt ∧
        k.maxAttempts = j.maxAttempts)
      (inv : Inv t.store) (jobs : t.store.jobs = Function.update s.store.jobs j.id r)
      (saved : t.saved = s.saved) (held : t.held = s.held) (fr : Frame s t)
  | claim (q : String) (now : Time) (n : Int) (w : String) (lu : Time) (L : List Job)
      (inv : Inv t.store) (batch : Batch s.store.jobs q now n w lu L t.store.jobs)
      (saved : t.saved = s.saved)
      (held : t.held = Function.update s.held q (L.map (Store.markClaimed now w lu) ++ s.held q))
      (fr : Frame s t)
  | start (q : String) (j : Job) (store : t.store = s.store) (saved : t.saved = s.saved)
      (held : ∀ q, (s.held q).Perm (t.held q)) (mem : j ∈ s.held q)
      (idle : ∀ q', .running j ∉ s.workers q') (self : .running j ∈ t.workers q)
      (running : ∀ q' k, .running k ∈ s.workers q' → .running k ∈ t.workers q')
      (log : t.log = s.log ++ [.start j.id j.name j.queue (j.attempt + 1)])
  | finish (q : String) (i : Nat) (j : Job) (R : List Job) (w : Worker) (x : Outcome) (d : Done)
      (label : a = .finish q i x) (slot : (s.workers q)[i]? = some w)
      (hw : w.finish s.sched x s.store = some d)
      (job : w.job = some j) (store : t.store = d.store) (saved : t.saved = s.saved)
      (old : (s.held q).Perm (j :: R))
      (held : ∀ q', (Function.update s.held q R q').Perm (t.held q'))
      (running : ∀ q' k, .running k ∈ s.workers q' → k ≠ j → .running k ∈ t.workers q')
      (log : t.log = s.log ++ d.events)

section
variable {s : Sys}

theorem frame_of_log {t : Sys} (hw : t.workers = s.workers) (hl : t.log = s.log) : Frame s t where
  running := fun q k h => hw ▸ h
  attempts := fun id => by rw [hl]
  failures := fun id => by rw [hl]

theorem workers_setWorker_self (q : String) (i : Nat) (w : Worker) :
    (s.setWorker q i w).workers q = (s.workers q).set i w := Function.update_self ..

theorem workers_setWorker_ne {q q' : String} (h : q' ≠ q) (i : Nat) (w : Worker) :
    (s.setWorker q i w).workers q' = s.workers q' := Function.update_of_ne h ..

/-- a handler that runs in another slot goes on -/
theorem running_setWorker {q : String} {i : Nat} {w : Worker} (hw : (s.workers q)[i]? = some w)
    (w' : Worker) (q' : String) (k : Job) (h : .running k ∈ s.workers q') (hne : .running k ≠ w) :
    .running k ∈ (s.setWorker q i w').workers q' := by
  by_cases e : q' = q
  · subst e
    rw [workers_setWorker_self]
    exact mem_set_of_ne hw h hne w'
  · rw [workers_setWorker_ne e]
    exact h

/-- the job of a slot is held, and the slot's new value changes what is held by one job -/
theorem held_setWorker {q : String} {i : Nat} {w : Worker} (hw : (s.workers q)[i]? = some w)
    (w' : Worker) : (w.job.toList ++ (s.setWorker q i w').held q).Perm
      (w'.job.toList ++ s.held q) := by
  have hp := filterMap_set_perm Worker.job hw w'
  have hmove : ∀ X C W : List Job, (X ++ (s.batch q ++ (C ++ W))).Perm
      (s.batch q ++ (C ++ (X ++ W))) := fun X C W =>
    (List.perm_append_comm_assoc X (s.batch q) (C ++ W)).trans
      ((List.perm_append_comm_assoc X C W).append_left _)
  show (w.job.toList ++ (s.batch q ++ (s.chan q ++
    ((s.setWorker q i w').workers q).filterMap Worker.job))).Perm _
  rw [workers_setWorker_self]
  refine (hmove _ _ _).trans (List.Perm.trans ?_ (hmove _ _ _).symm)
  exact (hp.append_left _).append_left _

theorem held_setWorker_ne {q q' : String} (h : q' ≠ q) (i : Nat) (w : Worker) :
    (s.setWorker q i w).held q' = s.held q' := by
  show s.batch q' ++ (s.chan q' ++ ((s.setWorker q i w).workers q').filterMap Worker.job) = _
  rw [workers_setWorker_ne h]
  rfl

theorem mem_held_of_worker {q : String} {w : Worker} (hw : w ∈ s.workers q) {j : Job}
    (hj : w.job = some j) : j ∈ s.held q :=
  List.mem_append_right _ (List.mem_append_right _ (List.mem_filterMap.mpr ⟨w, hw, hj⟩))

/-! ## the inversion of a step -/

theorem at_ok {sc : Scheduler} {now t : Time} {uuid : JobID} {st : Mem.Store} {name : String}
    {payload : List UInt8} {opts : List JobOption} {r : Mem.Store × JobID × List Event}
    (h : sc.at now t uuid st name payload opts = .ok r) :
    r.1 = st.save (Scheduler.atJob now t uuid name payload opts) ∧
      ∃ id n q, r.2.2 = [.enqueue id n q] := by
  unfold Scheduler.at at h
  split at h
  · cases h
  · dsimp only at h
    split at h
    · cases h
    · cases h
      exact ⟨rfl, _, _, _, rfl⟩

variable (l : Ledger s.store s.held)
include l

theorem move_save {a : Label} {t : Sys} {j : Job} (hf : s.Fresh j.id) (hp : j.state = statePending)
    (hstore : t.store = s.store.save j) (hsaved : t.saved = s.saved ++ [j]) (hheld : t.held = s.held)
    (fr : Frame s t) : Move s a t := by
  obtain ⟨v, hjobs⟩ := save_spec l.inv j
  exact .save j hf hp (hstore ▸ v) (hstore ▸ hjobs) hsaved hheld fr

theorem move_cancel {a : Label} (id : JobID) : Move s a { s with store := (s.store.cancel id).1 } := by
  cases hj : s.store.jobs id with
  | none =>
    rw [cancel_err_missing hj]
    exact .quiet rfl rfl (fun _ => List.Perm.refl _) (frame_of_log rfl rfl)
  | some j =>
    have hid := l.inv.jobs_id hj
    by_cases hp : j.state = statePending
    · obtain ⟨_, v, hjobs⟩ := cancel_ok l.inv hj hp
      subst hid
      exact .edit j none hj hp (fun k h => by cases h) v hjobs rfl rfl (frame_of_log rfl rfl)
    · rw [cancel_err_state hj hp]
      exact .quiet rfl rfl (fun _ => List.Perm.refl _) (frame_of_log rfl rfl)

theorem move_reschedule {a : Label} (id : JobID) (u : Time) :
    Move s a { s with store := (s.store.reschedule id u).1 } := by
  cases hj : s.store.jobs id with
  | none =>
    rw [reschedule_err_missing hj]
    exact .quiet rfl rfl (fun _ => List.Perm.refl _) (frame_of_log rfl rfl)
  | some j =>
    have hid := l.inv.jobs_id hj
    by_cases hp : j.state = statePending
    · obtain ⟨_, v, hjobs⟩ := reschedule_ok l.inv hj hp u
      subst hid
      refine .edit j _ hj hp (fun k h => ?_) v hjobs rfl rfl (frame_of_log rfl rfl)
      obtain rfl := Option.some.inj h
      exact ⟨hp, rfl, rfl⟩
    · rw [reschedule_err_state hj hp]
      exact .quiet rfl rfl (fun _ => List.Perm.refl _) (frame_of_log rfl rfl)

theorem move_claim {a : Label} {q : String} (hb : s.batch q = []) (now : Time) (c : Nat)
    (w : String) (lu : Time)
    {r : Mem.Store × List Job} (h : s.store.claimDue q now c w lu = some r) :
    Move s a { s with store := r.1, batch := Function.update s.batch q r.2 } := by
  obtain ⟨s', L, e, v, B, _⟩ := claimDue_spec l.inv q now (Int.natCast_nonneg c) w lu
  rw [h] at e
  obtain rfl := Option.some.inj e
  refine .claim q now c w lu L v B rfl ?_ (frame_of_log rfl rfl)
  funext q'
  by_cases hq : q' = q
  · subst hq
    simp [Sys.held, hb]
  · simp [Sys.held, hq]

omit l in
theorem move_send {a : Label} {q : String} {j : Job} {rest : List Job} (hb : s.batch q = j :: rest) :
    Move s a { s with
      batch := Function.update s.batch q rest,
      chan := Function.update s.chan q (s.chan q ++ [j]) } := by
  refine .quiet rfl rfl (fun q' => ?_) (frame_of_log rfl rfl)
  by_cases hq : q' = q
  · subst hq
    simp only [Sys.held, hb, Function.update_self, List.append_assoc, List.cons_append,
      List.nil_append]
    rw [← List.append_assoc rest, ← List.append_assoc rest]
    exact List.perm_middle.symm
  · simp [Sys.held, hq]

omit l in
theorem move_receive {a : Label} {q : String} {i : Nat} {j : Job} {rest : List Job}
    (hc : s.chan q = j :: rest)
    (hw : (s.workers q)[i]? = some .idle) :
    Move s a ({ s with chan := Function.update s.chan q rest }.setWorker q i (.got j)) := by
  refine .quiet rfl rfl (fun q' => ?_)
    ⟨fun q' k h => running_setWorker hw _ q' k h (by simp), fun _ => rfl, fun _ => rfl⟩
  by_cases hq : q' = q
  · subst hq
    have hp := held_setWorker (s := { s with chan := Function.update s.chan q' rest }) hw (.got j)
    refine List.Perm.trans ?_ hp.symm
    simp only [Sys.held, hc, Function.update_self, Worker.job, Option.toList]
    exact List.perm_middle
  · rw [held_setWorker_ne hq]
    simp [Sys.held, hq]

omit l in
/-- between two values of a slot that hold the same job, the held jobs stay the same -/
theorem held_setWorker_same {q : String} {i : Nat} {w w' : Worker} {j : Job}
    (hw : (s.workers q)[i]? = some w) (h : w.job = some j) (h' : w'.job = some j) (q' : String) :
    (s.held q').Perm ((s.setWorker q i w').held q') := by
  by_cases hq : q' = q
  · subst hq
    have hp := held_setWorker hw w'
    rw [h, h'] at hp
    exact hp.cons_inv.symm
  · rw [held_setWorker_ne hq]

/-- a job with a worker that is not in the handler is in no handler -/
theorem not_running {q : String} {i : Nat} {j : Job} (hw : (s.workers q)[i]? = some (.got j))
    (q' : String) : .running j ∉ s.workers q' := by
  intro hr
  have h1 := (l.mem q j).mp (mem_held_of_worker (List.mem_of_getElem? hw) rfl)
  have h2 := (l.mem q' j).mp (mem_held_of_worker hr rfl)
  obtain rfl : q = q' := h1.2.2.symm.trans h2.2.2
  refine not_nodup_of_slots (f := Worker.job) hw hr (by simp) (b := j) rfl rfl ?_
  exact ((List.nodup_append.mp ((List.nodup_append.mp (l.nodup q)).2.1)).2.1)

theorem move_lookup {a : Label} {q : String} {i : Nat} {j : Job}
    (hw : (s.workers q)[i]? = some (.got j)) :
    Move s a { s.setWorker q i (.running j) with
      log := s.log ++ [.start j.id j.name j.queue (j.attempt + 1)] } := by
  refine .start q j rfl rfl (fun q' => held_setWorker_same hw rfl rfl q')
    (mem_held_of_worker (List.mem_of_getElem? hw) rfl) (not_running l hw) ?_
    (fun q' k h => running_setWorker hw _ q' k h (by simp)) rfl
  show .running j ∈ (s.setWorker q i (.running j)).workers q
  rw [workers_setWorker_self]
  exact mem_set_self hw _

omit l in
theorem move_missing {a : Label} {q : String} {i : Nat} {j : Job}
    (hw : (s.workers q)[i]? = some (.got j)) :
    Move s a (s.setWorker q i (.missing j)) :=
  .quiet rfl rfl (fun q' => held_setWorker_same hw rfl rfl q')
    ⟨fun q' k h => running_setWorker hw _ q' k h (by simp), fun _ => rfl, fun _ => rfl⟩

omit l in
theorem move_finish {q : String} {i : Nat} {w : Worker} (hw : (s.workers q)[i]? = some w)
    {x : Outcome} {d : Done} (hd : w.finish s.sched x s.store = some d) :
    Move s (.finish q i x)
      { s.setWorker q i .idle with store := d.store, log := s.log ++ d.events } := by
  obtain ⟨j, hj, _⟩ := Worker.finish_spec hd
  refine .finish q i j ((s.setWorker q i .idle).held q) w x d rfl hw hd hj rfl rfl ?_
    (fun q' => ?_) ?_ rfl
  · have hp := held_setWorker hw .idle
    rw [hj] at hp
    exact hp.symm
  · by_cases hq : q' = q
    · subst hq
      rw [Function.update_self]
      exact List.Perm.refl _
    · rw [Function.update_of_ne hq, ← held_setWorker_ne hq i .idle]
      exact List.Perm.refl _
  · intro q' k hk hne
    refine running_setWorker hw _ q' k hk (fun e => hne ?_)
    subst e
    exact Option.some.inj hj

/-- **All that a step can do.** -/
theorem step_move {a : Label} {t : Sys} (h : step s a = some t) : Move s a t := by
  cases a with
  | register name =>
    obtain rfl := Option.some.inj h
    exact .quiet rfl rfl (fun _ => List.Perm.refl _) (frame_of_log rfl rfl)
  | save j =>
    obtain ⟨⟨hp, hf⟩, h⟩ := Option.ite_none_right_eq_some.mp h
    obtain rfl := Option.some.inj h
    exact move_save l hf hp rfl rfl rfl (frame_of_log rfl rfl)
  | schedule now u uuid name payload opts =>
    obtain ⟨hf, h⟩ := Option.ite_none_right_eq_some.mp h
    obtain ⟨hid, _, _, _, hp⟩ := Scheduler.atJob_kept now u uuid name payload opts
    split at h
    · obtain rfl := Option.some.inj h
      exact .quiet rfl rfl (fun _ => List.Perm.refl _) (frame_of_log rfl rfl)
    · rename_i store _ evs e
      obtain rfl := Option.some.inj h
      obtain ⟨hstore, id, n, q, hev⟩ := at_ok e
      dsimp only at hstore hev
      subst hstore hev
      refine move_save l (hid.symm ▸ hf) hp rfl rfl rfl ⟨fun _ _ h => h, fun k => ?_, fun k => ?_⟩
      · simp [attempts_append, attempts]
      · simp [failures_append, failures]
  | fire spec uuid now fireAt =>
    obtain ⟨hf, h⟩ := Option.ite_none_right_eq_some.mp h
    obtain rfl := Option.some.inj h
    exact move_save l hf rfl rfl rfl rfl (frame_of_log rfl rfl)
  | cancel id =>
    obtain rfl := Option.some.inj h
    exact move_cancel l id
  | reschedule id u =>
    obtain rfl := Option.some.inj h
    exact move_reschedule l id u
  | claim q now =>
    simp only [step] at h
    split at h
    · rename_i c _ hb
      obtain ⟨r, hr, rfl⟩ := Option.map_eq_some_iff.mp h
      exact move_claim l hb now c _ _ hr
    · cases h
  | send q =>
    simp only [step] at h
    split at h
    · rename_i hb
      obtain ⟨_, h⟩ := Option.ite_none_right_eq_some.mp h
      obtain rfl := Option.some.inj h
      exact move_send hb
    · cases h
  | receive q i =>
    simp only [step] at h
    split at h
    · rename_i hc hw
      obtain rfl := Option.some.inj h
      exact move_receive hc hw
    · cases h
  | lookup q i =>
    simp only [step] at h
    split at h
    · rename_i hw
      split at h
      · obtain rfl := Option.some.inj h
        exact move_lookup l hw
      · obtain rfl := Option.some.inj h
        exact move_missing hw
    · cases h
  | finish q i x =>
    simp only [step] at h
    split at h
    · rename_i w hw
      obtain ⟨d, hd, rfl⟩ := Option.map_eq_some_iff.mp h
      exact move_finish hw hd
    · cases h

end
end GS
