import GoSchedule.Contract.Basic
import GoSchedule.Lib.Slots
import GoSchedule.Lib.Trace
import GoSchedule.Scheduler.Retry

/-!
# Schedulers that share a store

Any number of schedulers on one store, with their janitors and one clock.  A *lane* is what `Start`
boots for one queue of one scheduler: a dispatcher, a channel and the workers.  A lane can stop at any
moment, because the scheduler is shut down or its process dies: what it held is then held by nobody,
and the store still says that it is claimed.  A handler that outlives the shutdown reports with a
cancelled context, which the store refuses.

* `Backend`, `Keeps`   a store, and that its calls keep the contract of `Contract.Step`;
* `Label`, `step`      a move: time passes, a call of a user, a dispatcher, a worker, a janitor, a stop;
* `Does`, `step_does`   all that a move can do, on the map that the store stands for.

The log of the reports and the list of what was saved are written by moves; the log is read by none, and
`saved` only to say that `uuid.NewString` returns new IDs.
-/

namespace GS.Cluster
open Contract Slots Trans
open Mem (JobMap)

/-- what a call does when the clock shows `now` -/
structure Backend (σ : Type) where
  call : Time → σ → Op → σ × Res

/-- a call that is `ok` is a call on the map -/
def Keeps {σ : Type} (B : Backend σ) (C : Scale) (ok : σ → Op → Prop)
    (R : σ → JobMap → Prop) : Prop :=
  ∀ now db m o, R db m → ok db o →
    ∃ m', Step C m o (B.call now db o).2 m' ∧ R (B.call now db o).1 m'

/-! ## lanes -/

structure Lane where
  sched : Scheduler
  queue : String
  concurrency : Nat
  batch : List Job
  chan : List Job
  workers : List Worker

namespace Lane

def start (sc : Scheduler) (queue : String) (concurrency : Nat) : Lane :=
  ⟨sc, queue, concurrency, [], [], List.replicate concurrency .idle⟩

/-- the jobs that the dispatcher has not sent, that are in the channel, and that workers have not
reported -/
def held (L : Lane) : List Job := L.batch ++ (L.chan ++ L.workers.filterMap Worker.job)

/-- the claim of the dispatcher -/
def claim (L : Lane) (now : Time) : Op :=
  .claimDue L.queue now L.concurrency L.sched.workerID (now.add L.sched.visibilityTimeout)

/-- a move that makes no call -/
inductive Inner where
  | send
  | receive (k : Nat)
  | lookup (k : Nat)
  | register (name : String)

def move (L : Lane) : Inner → Option Lane
  | .send =>
    match L.batch with
    | j :: rest =>
      if L.chan.length < L.concurrency then some { L with batch := rest, chan := L.chan ++ [j] } else none
    | [] => none
  | .receive k =>
    match L.chan, L.workers[k]? with
    | j :: rest, some .idle => some { L with chan := rest, workers := L.workers.set k (.got j) }
    | _, _ => none
  | .lookup k =>
    match L.workers[k]? with
    | some (.got j) =>
      some { L with
        workers := L.workers.set k (if L.sched.isRegistered j.name then .running j else .missing j) }
    | _ => none
  | .register name => some { L with sched := L.sched.register name }

end Lane

/-- what `Start` boots -/
def lanes (sc : Scheduler) : List Lane :=
  sc.queues.filterMap fun q => (sc.concurrency q.1).map (Lane.start sc q.1)

/-- the store call of a worker whose handler has returned, or that found none; it does not depend on
the store -/
def report (sc : Scheduler) (x : Outcome) (w : Worker) : Option StoreCall :=
  (w.finish sc x Mem.Store.new).map Done.call

def asked : StoreCall → Op
  | .ack id => .ack id
  | .fail id errMsg nextAttemptAt => .fail id errMsg nextAttemptAt

/-! ## the system -/

/-- `done j e` is a report of a worker: the handler of `j` has returned nil, or failed with `e` -/
inductive Ev where
  | cancelled (id : JobID)
  | done (j : Job) (failure : Option String)
deriving DecidableEq

structure Sys (σ : Type) where
  store : σ
  clock : Time
  lanes : List Lane
  saved : List Job
  log : List Ev

inductive Label where
  | tick (t : Time)
  | save (j : Job)
  | cancel (id : JobID)
  | reschedule (id : JobID) (newTime : Time)
  | claim (i : Nat)
  | move (i : Nat) (x : Lane.Inner)
  | finish (i k : Nat) (x : Outcome)
  | janitor
  | stop (i : Nat)

section
variable {σ : Type}

def Sys.init (db : σ) (scs : List Scheduler) (clock : Time) : Sys σ :=
  ⟨db, clock, scs.flatMap Cluster.lanes, [], []⟩

def Sys.held (s : Sys σ) : List Job := s.lanes.flatMap Lane.held

/-- the store call of a move, if it makes one -/
def Sys.op (s : Sys σ) : Label → Option Op
  | .save j => some (.save j)
  | .cancel id => some (.cancel id)
  | .reschedule id newTime => some (.reschedule id newTime)
  | .claim i => s.lanes[i]?.map fun L => L.claim s.clock
  | .finish i k x => do
    let L ← s.lanes[i]?
    let w ← L.workers[k]?
    let c ← report L.sched x w
    some (asked c)
  | .janitor => some (.recoverStale s.clock)
  | .tick _ | .move .. | .stop _ => none

/-- `save` is the save of `At` or of the recurring runner, whose IDs are new -/
def step (B : Backend σ) (s : Sys σ) : Label → Option (Sys σ)
  | .tick t => if s.clock ≤ t then some { s with clock := t } else none
  | .save j =>
    if j.state = statePending ∧ j.attempt = 0 ∧ j.id ∉ s.saved.map Job.id then
      some { s with store := (B.call s.clock s.store (.save j)).1, saved := s.saved ++ [j] }
    else none
  | .cancel id =>
    let r := B.call s.clock s.store (.cancel id)
    some { s with store := r.1, log := s.log ++ if r.2 = .err none then [Ev.cancelled id] else [] }
  | .reschedule id newTime =>
    some { s with store := (B.call s.clock s.store (.reschedule id newTime)).1 }
  | .claim i => do
    let L ← s.lanes[i]?
    let r := B.call s.clock s.store (L.claim s.clock)
    match L.batch, r.2 with
    | [], .jobs J => some { s with store := r.1, lanes := s.lanes.set i { L with batch := J } }
    | _, _ => none
  | .move i x => do
    let L ← s.lanes[i]?
    let L' ← L.move x
    some { s with lanes := s.lanes.set i L' }
  | .finish i k x => do
    let L ← s.lanes[i]?
    let w ← L.workers[k]?
    let j ← w.job
    let c ← report L.sched x w
    if x.now = s.clock then
      some { s with
        store := (B.call s.clock s.store (asked c)).1
        lanes := s.lanes.set i { L with workers := L.workers.set k .idle }
        log := s.log ++ [.done j (w.failure x)] }
    else none
  | .janitor => some { s with store := (B.call s.clock s.store (.recoverStale s.clock)).1 }
  | .stop i => do
    let L ← s.lanes[i]?
    some { s with lanes := s.lanes.set i (Lane.start L.sched L.queue L.concurrency) }

end

/-! ## what is held -/

theorem lane_idle (sc : Scheduler) (q : String) (c : Nat) : (Lane.start sc q c).held = [] := by
  show (List.replicate c Worker.idle).filterMap Worker.job = []
  rw [List.filterMap_replicate]
  rfl

theorem held_init {σ : Type} (db : σ) (scs : List Scheduler) (clock : Time) :
    (Sys.init db scs clock).held = [] := by
  refine List.flatMap_eq_nil_iff.mpr fun L hL => ?_
  obtain ⟨sc, _, hL⟩ := List.mem_flatMap.mp hL
  obtain ⟨q, _, hL⟩ := List.mem_filterMap.mp hL
  obtain ⟨c, _, rfl⟩ := Option.map_eq_some_iff.mp hL
  exact lane_idle sc q.1 c

section
variable {L L' : Lane}

/-- a worker slot is written -/
theorem held_setWorker {k : Nat} {w : Worker} (hw : L.workers[k]? = some w) (w' : Worker) :
    (w.job.toList ++ { L with workers := L.workers.set k w' }.held).Perm (w'.job.toList ++ L.held) := by
  have hp := filterMap_set_perm Worker.job hw w'
  have hmove : ∀ X W : List Job, (X ++ (L.batch ++ (L.chan ++ W))).Perm
      (L.batch ++ (L.chan ++ (X ++ W))) := fun X W =>
    (List.perm_append_comm_assoc X L.batch (L.chan ++ W)).trans
      ((List.perm_append_comm_assoc X L.chan W).append_left _)
  exact (hmove _ _).trans (((hp.append_left _).append_left _).trans (hmove _ _).symm)

/-- a lane only passes its jobs on -/
theorem held_move {x : Lane.Inner} (h : L.move x = some L') : L'.held.Perm L.held := by
  cases x with
  | send =>
    simp only [Lane.move] at h
    split at h
    · rename_i j rest hb
      obtain ⟨_, e⟩ := Option.ite_none_right_eq_some.mp h
      rw [← Option.some.inj e]
      show (rest ++ ((L.chan ++ [j]) ++ L.workers.filterMap Worker.job)).Perm
        (L.batch ++ (L.chan ++ L.workers.filterMap Worker.job))
      rw [hb, List.append_assoc, ← List.append_assoc rest]
      refine List.perm_middle.trans ?_
      rw [List.append_assoc]
      rfl
    · cases h
  | receive k =>
    simp only [Lane.move] at h
    split at h
    · rename_i j rest hc hw
      rw [← Option.some.inj h]
      have hp := held_setWorker hw (.got j)
      refine List.Perm.cons_inv (a := j) ?_
      refine List.Perm.trans ?_ hp
      show (j :: (L.batch ++ (rest ++ _))).Perm (L.batch ++ (L.chan ++ _))
      rw [hc]
      exact List.perm_middle.symm
    · cases h
  | lookup k =>
    simp only [Lane.move] at h
    split at h
    · rename_i j hw
      rw [← Option.some.inj h]
      have hp := held_setWorker hw (if L.sched.isRegistered j.name then .running j else .missing j)
      have hjob : (if L.sched.isRegistered j.name then Worker.running j else .missing j).job = some j := by
        split <;> rfl
      rw [hjob] at hp
      exact hp.cons_inv
    · cases h
  | register name =>
    rw [← Option.some.inj h]
    exact List.Perm.refl _

end

/-- a report is about the job of the worker -/
theorem report_spec {sc : Scheduler} {x : Outcome} {w : Worker} {c : StoreCall} {j : Job}
    (h : report sc x w = some c) (hj : w.job = some j) :
    c = match w.failure x with
      | none => .ack j.id
      | some err => .fail j.id err (x.now.add (sc.delay w)) := by
  obtain ⟨d, hd, rfl⟩ := Option.map_eq_some_iff.mp h
  exact finish_call hd hj

/-! ## all that a move can do -/

section
variable {σ : Type} {B : Backend σ} {C : Scale} {ok : σ → Op → Prop} {R : σ → JobMap → Prop}

inductive Does (C : Scale) (s : Sys σ) (a : Label) (m m' : JobMap) (t : Sys σ) : Prop
  | tick (c : Time) (label : a = .tick c) (map : m' = m) (clock : t.clock = c) (held : t.held = s.held)
      (saved : t.saved = s.saved) (log : t.log = s.log)
  | quiet (D : List Job) (map : m' = m) (clock : t.clock = s.clock) (held : s.held.Perm (D ++ t.held))
      (saved : t.saved = s.saved) (log : t.log = s.log)
  | save (j : Job) (r : Res) (pending : j.state = statePending) (attempt : j.attempt = 0)
      (fresh : j.id ∉ s.saved.map Job.id) (map : Step C m (.save j) r m') (clock : t.clock = s.clock)
      (held : t.held = s.held) (saved : t.saved = s.saved ++ [j]) (log : t.log = s.log)
  | cancel (id : JobID) (r : Res) (map : Step C m (.cancel id) r m') (clock : t.clock = s.clock)
      (held : t.held = s.held) (saved : t.saved = s.saved)
      (log : t.log = s.log ++ if r = .err none then [Ev.cancelled id] else [])
  | reschedule (id : JobID) (u : Time) (r : Res) (map : Step C m (.reschedule id u) r m')
      (clock : t.clock = s.clock) (held : t.held = s.held) (saved : t.saved = s.saved)
      (log : t.log = s.log)
  | claim (i : Nat) (L : Lane) (J : List Job) (label : a = .claim i) (lane : s.lanes[i]? = some L)
      (map : Step C m (L.claim s.clock) (.jobs J) m') (clock : t.clock = s.clock)
      (held : t.held.Perm (J ++ s.held)) (saved : t.saved = s.saved) (log : t.log = s.log)
  | finish (j : Job) (failure : Option String) (u : Time) (r : Res)
      (map : Step C m (match failure with
        | none => .ack j.id
        | some err => .fail j.id err u) r m') (clock : t.clock = s.clock)
      (held : s.held.Perm (j :: t.held)) (saved : t.saved = s.saved)
      (log : t.log = s.log ++ [.done j failure])
  | janitor (r : Res) (map : Step C m (.recoverStale s.clock) r m') (clock : t.clock = s.clock)
      (held : t.held = s.held) (saved : t.saved = s.saved) (log : t.log = s.log)

variable {s t : Sys σ} {a : Label} {m : JobMap}

theorem claim_does (K : Keeps B C ok R) (hR : R s.store m) {i : Nat}
    (hok : ∀ o ∈ s.op (.claim i), ok s.store o)
    (h : step B s (.claim i) = some t) : ∃ m', R t.store m' ∧ Does C s (.claim i) m m' t := by
  obtain ⟨L, hL, h⟩ := Option.bind_eq_some_iff.mp h
  obtain ⟨m', hs, hR'⟩ := K s.clock s.store m (L.claim s.clock) hR (hok _ (by
    show s.lanes[i]?.map _ = some _
    rw [hL]
    rfl))
  dsimp only at h
  split at h
  · rename_i J hb hJ
    rw [hJ] at hs
    rw [← Option.some.inj h]
    refine ⟨m', hR', .claim i L J rfl hL hs rfl ?_ rfl rfl⟩
    have hp := flatMap_set_perm Lane.held hL { L with batch := J }
    refine (List.perm_append_left_iff L.held).mp (hp.trans ?_)
    show (J ++ (L.chan ++ _) ++ s.held).Perm (L.batch ++ (L.chan ++ _) ++ (J ++ s.held))
    rw [hb, List.append_assoc, List.nil_append]
    exact List.perm_append_comm_assoc _ _ _
  · cases h

theorem finish_does (K : Keeps B C ok R) (hR : R s.store m) {i k : Nat} {x : Outcome}
    (hok : ∀ o ∈ s.op (.finish i k x), ok s.store o) (h : step B s (.finish i k x) = some t) :
    ∃ m', R t.store m' ∧ Does C s (.finish i k x) m m' t := by
  obtain ⟨L, hL, h⟩ := Option.bind_eq_some_iff.mp h
  obtain ⟨w, hw, h⟩ := Option.bind_eq_some_iff.mp h
  obtain ⟨j, hj, h⟩ := Option.bind_eq_some_iff.mp h
  obtain ⟨c, hc, h⟩ := Option.bind_eq_some_iff.mp h
  obtain ⟨_, h⟩ := Option.ite_none_right_eq_some.mp h
  have hop : s.op (.finish i k x) = some (asked c) := by
    show s.lanes[i]?.bind (fun L => L.workers[k]?.bind fun w => (report L.sched x w).bind fun c =>
      some (asked c)) = _
    rw [hL, Option.bind_some, hw, Option.bind_some, hc, Option.bind_some]
  obtain ⟨m', hs, hR'⟩ := K s.clock s.store m (asked c) hR (hok _ hop)
  rw [← Option.some.inj h]
  refine ⟨m', hR', .finish j (w.failure x) (x.now.add (L.sched.delay w))
    (B.call s.clock s.store (asked c)).2 ?_ rfl ?_ rfl rfl⟩
  · have e : asked c = match w.failure x with
        | none => .ack j.id
        | some err => .fail j.id err (x.now.add (L.sched.delay w)) := by
      rw [report_spec hc hj]
      cases w.failure x <;> rfl
    rw [← e]
    exact hs
  · have hp := flatMap_set_perm Lane.held hL { L with workers := L.workers.set k .idle }
    have hworker := held_setWorker hw .idle
    rw [hj] at hworker
    -- the lane's jobs are `j` and what it holds afterwards
    have hlane : (L.held ++ (j :: (s.lanes.set i { L with workers := L.workers.set k .idle }).flatMap
        Lane.held)).Perm (L.held ++ s.held) := by
      refine List.perm_middle.trans ((hp.cons j).trans ?_)
      exact hworker.append_right s.held
    exact ((List.perm_append_left_iff L.held).mp hlane).symm

/-- **All that a move can do**, on a store that keeps the contract. -/
theorem step_does (K : Keeps B C ok R) (hR : R s.store m) (hok : ∀ o ∈ s.op a, ok s.store o)
    (h : step B s a = some t) : ∃ m', R t.store m' ∧ Does C s a m m' t := by
  cases a with
  | tick c =>
    obtain ⟨_, h⟩ := Option.ite_none_right_eq_some.mp h
    rw [← Option.some.inj h]
    exact ⟨m, hR, .tick c rfl rfl rfl rfl rfl rfl⟩
  | save j =>
    obtain ⟨⟨hp, h0, hf⟩, h⟩ := Option.ite_none_right_eq_some.mp h
    obtain ⟨m', hs, hR'⟩ := K s.clock s.store m _ hR (hok _ rfl)
    rw [← Option.some.inj h]
    exact ⟨m', hR', .save j _ hp h0 hf hs rfl rfl rfl rfl⟩
  | cancel id =>
    obtain ⟨m', hs, hR'⟩ := K s.clock s.store m _ hR (hok _ rfl)
    rw [← Option.some.inj h]
    exact ⟨m', hR', .cancel id _ hs rfl rfl rfl rfl⟩
  | reschedule id u =>
    obtain ⟨m', hs, hR'⟩ := K s.clock s.store m _ hR (hok _ rfl)
    rw [← Option.some.inj h]
    exact ⟨m', hR', .reschedule id u _ hs rfl rfl rfl rfl⟩
  | claim i => exact claim_does K hR hok h
  | move i x =>
    obtain ⟨L, hL, h⟩ := Option.bind_eq_some_iff.mp h
    obtain ⟨L', hL', h⟩ := Option.bind_eq_some_iff.mp h
    rw [← Option.some.inj h]
    refine ⟨m, hR, .quiet [] rfl rfl ?_ rfl rfl⟩
    have hp := flatMap_set_perm Lane.held hL L'
    have hp' := hp.trans ((held_move hL').append_right s.held)
    exact ((List.perm_append_left_iff L.held).mp hp').symm
  | finish i k x => exact finish_does K hR hok h
  | janitor =>
    obtain ⟨m', hs, hR'⟩ := K s.clock s.store m _ hR (hok _ rfl)
    rw [← Option.some.inj h]
    exact ⟨m', hR', .janitor _ hs rfl rfl rfl rfl⟩
  | stop i =>
    obtain ⟨L, hL, h⟩ := Option.bind_eq_some_iff.mp h
    rw [← Option.some.inj h]
    refine ⟨m, hR, .quiet L.held rfl rfl ?_ rfl rfl⟩
    have hp := flatMap_set_perm Lane.held hL (Lane.start L.sched L.queue L.concurrency)
    rw [lane_idle] at hp
    exact hp.symm

end

end GS.Cluster
