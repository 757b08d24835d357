import GoSchedule.Lib.History
import GoSchedule.Lib.RowLock
import GoSchedule.Lib.Run
import GoSchedule.Postgres.Basic

/-!
# Transactions on the jobs of the Postgres store

`Save`, `ClaimDue`, `Ack` and `RecoverStale` are one statement each.  `Fail`, `Cancel` and `Reschedule`
are transactions of a SELECT, a write and a commit, under READ COMMITTED: every statement sees what is
committed when it runs, and what a transaction has written is locked until it ends.

* `Session`, `Label`, `step`   the connections of the pool, and the next statement of one of them;
* `claimed_between`   `Cancel` and `Reschedule` check the state in the SELECT and write by ID only: a
  job that is claimed in between is removed, or moved, under its worker;
* `Calm`   while a `Cancel` or `Reschedule` is between its SELECT and its write, nobody claims the job,
  overwrites it with another state, or commits its removal;
* `calm_sound`   **in calm runs a successful `Cancel` or `Reschedule` found the job pending**, and a
  job that was cancelled is not claimed unless it is saved again.
-/

namespace GS.Postgres.Tx
open Trans History RowLock

inductive Session where
  | idle
  | failSelected (id : JobID) (attempt maxAttempts : Int64) (errMsg : String) (nextAttemptAt : Time)
  | failWritten (id : JobID)
  | cancelSelected (id : JobID)
  | cancelDeleted (id : JobID) (was : Option Job)
  | rescheduleSelected (id : JobID) (newTime : Time)
  | rescheduleUpdated (id : JobID) (newTime : Time) (was : Option Job)
deriving DecidableEq

namespace Session

/-- the job that a `Cancel` or `Reschedule` has found pending and not written yet -/
def selected : Session → Option JobID
  | cancelSelected id => some id
  | rescheduleSelected id _ => some id
  | _ => none

/-- the job that a transaction has written -/
def written : Session → Option JobID
  | failWritten id => some id
  | cancelDeleted id _ => some id
  | rescheduleUpdated id _ _ => some id
  | _ => none

end Session

/-- `cancelled` and `rescheduled` are calls that returned nil, with the row as their write found it -/
inductive Ev where
  | saved (id : JobID)
  | claimed (worker : String) (id : JobID)
  | cancelled (id : JobID) (was : Option Job)
  | rescheduled (id : JobID) (newTime : Time) (was : Option Job)
deriving DecidableEq

namespace Ev

def cancels (id : JobID) : Ev → Bool
  | cancelled i _ => i == id
  | _ => false

def saves (id : JobID) : Ev → Bool
  | saved i => i == id
  | _ => false

def claims (id : JobID) : Ev → Bool
  | claimed _ i => i == id
  | _ => false

end Ev

/-- `known` are the IDs that were saved once, `size` is the size of the pool -/
structure Sys where
  table : Table JobID Job
  known : List JobID
  clock : Time
  size : Nat
  session : Nat → Session
  log : List Ev

/-! ## rows -/

/-- the row after `upsertJobSQL`; a row that exists keeps its `created_at` -/
def upsertRow (old : Option Job) (j : Job) : Job :=
  match old with
  | none => storedJob j
  | some r => { storedJob j with createdAt := r.createdAt }

def claimRow (now : Time) (workerID : String) (lockUntil : Time) (r : Job) : Job :=
  { r with
    state := stateClaimed, lockedBy := workerID, lockedUntil := pgTime lockUntil,
    updatedAt := pgTime now }

def retryRow (errMsg : String) (nextAttemptAt now : Time) (r : Job) : Job :=
  { r with
    attempt := r.attempt + 1, lastError := errMsg, state := statePending,
    runAt := pgTime nextAttemptAt, lockedBy := "", lockedUntil := zeroTime,
    updatedAt := pgTime now }

def moveRow (newTime now : Time) (r : Job) : Job :=
  { r with runAt := pgTime newTime, updatedAt := pgTime now }

def Stale (clock : Time) (r : Job) : Prop :=
  r.state = stateClaimed ∧ zeroTime < r.lockedUntil ∧ r.lockedUntil < clock

instance (clock : Time) : DecidablePred (Stale clock) := fun _ => inferInstanceAs (Decidable (_ ∧ _))

def releaseRow (now : Time) (r : Job) : Job :=
  { r with
    state := statePending, lockedBy := "", lockedUntil := zeroTime, updatedAt := pgTime now }

namespace Sys

def init (size : Nat) (clock : Time) : Sys := ⟨Table.empty, [], clock, size, fun _ => .idle, []⟩

def set (s : Sys) (i : Nat) (x : Session) : Sys :=
  { s with session := Function.update s.session i x }

/-- the rows that `claimDueSQL` can select: due, and not locked -/
def candidates (s : Sys) (queue : String) (now : Time) : List JobID :=
  s.known.filter fun id => decide (s.table.lock id = none) &&
    (s.table.row id).any fun r => decide (r.queue = queue ∧ r.state = statePending ∧
      r.runAt ≤ pgTime now)

/-- `ORDER BY priority DESC, run_at ASC LIMIT n`; rows that are equal in both come in any order -/
def Selects (s : Sys) (queue : String) (now : Time) (n : Nat) (picked : List JobID) : Prop :=
  picked.Nodup ∧ (∀ id ∈ picked, id ∈ s.candidates queue now) ∧
    picked.length = min n (s.candidates queue now).length ∧
    ∀ a ∈ picked, ∀ b ∈ s.candidates queue now, b ∉ picked →
      ∀ ra ∈ s.table.row a, ∀ rb ∈ s.table.row b, jobLess rb ra = false

instance (s : Sys) (queue : String) (now : Time) (n : Nat) (picked : List JobID) :
    Decidable (s.Selects queue now n picked) := inferInstanceAs (Decidable (_ ∧ _))

/-- no `Cancel` or `Reschedule` is between its SELECT on the job and its write -/
def Unselected (s : Sys) (id : JobID) : Prop := ∀ i < s.size, (s.session i).selected ≠ some id

instance (s : Sys) (id : JobID) : Decidable (s.Unselected id) :=
  inferInstanceAs (Decidable (∀ i < s.size, _))

end Sys

inductive Label where
  | save (j : Job)
  | claim (queue : String) (now : Time) (n : Nat) (workerID : String) (lockUntil : Time)
      (picked : List JobID)
  | ack (id : JobID)
  | recoverStale (now : Time)
  | failSelect (i : Nat) (id : JobID) (errMsg : String) (nextAttemptAt : Time)
  | failWrite (i : Nat) (now : Time)
  | cancelSelect (i : Nat) (id : JobID)
  | cancelDelete (i : Nat)
  | rescheduleSelect (i : Nat) (id : JobID) (newTime : Time)
  | rescheduleUpdate (i : Nat) (now : Time)
  | commit (i : Nat)
  | rollback (i : Nat)
  | tick (d : Nat)

def isState (x : State) (r : Job) : Bool := r.state == x

/-- the SELECT of a transaction on a free connection; a row that is not there or in another state ends
the call with its error -/
def select (s : Sys) (i : Nat) (id : JobID) (x : State) (next : Job → Session) : Option Sys :=
  if i < s.size ∧ s.session i = .idle then
    match s.table.row id with
    | some r => if isState x r then some (s.set i (next r)) else some s
    | none => some s
  else none

/-- the write of a transaction -/
def write (s : Sys) (i : Nat) (id : JobID) (p : Job → Bool) (f : Job → Option Job)
    (next : Option Job → Session) : Option Sys :=
  (s.table.update i id p f).map fun r => { s.set i (next r.2) with table := r.1 }

def step (s : Sys) : Label → Option Sys
  | .save j =>
    if s.table.lock j.id = none then
      some { s with
        table := s.table.put j.id (upsertRow (s.table.row j.id) j),
        known := s.known.insert j.id, log := s.log ++ [.saved j.id] }
    else none
  | .claim queue now n workerID lockUntil picked =>
    if s.Selects queue now n picked then
      some { s with
        table := s.table.mapRows fun id r =>
          if id ∈ picked then claimRow now workerID lockUntil r else r,
        log := s.log ++ picked.map (.claimed workerID) }
    else none
  | .ack id =>
    (s.table.exec id (isState stateClaimed) fun _ => none).map fun T => { s with table := T }
  | .recoverStale now =>
    -- the statement waits for a stale row that is locked
    if ∀ id ∈ s.known, ∀ r ∈ s.table.row id, Stale s.clock r → s.table.lock id = none then
      some { s with
        table := s.table.mapRows fun _ r => if Stale s.clock r then releaseRow now r else r }
    else none
  | .failSelect i id errMsg t =>
    select s i id stateClaimed fun r => .failSelected id r.attempt r.maxAttempts errMsg t
  | .failWrite i now =>
    match s.session i with
    | .failSelected id attempt maxAttempts errMsg t =>
      if 0 < maxAttempts ∧ maxAttempts.toInt ≤ attempt.toInt + 1 then
        write s i id (fun _ => true) (fun _ => none) fun _ => .failWritten id
      else
        write s i id (isState stateClaimed) (fun r => some (retryRow errMsg t now r)) fun _ =>
          .failWritten id
    | _ => none
  | .cancelSelect i id => select s i id statePending fun _ => .cancelSelected id
  | .cancelDelete i =>
    match s.session i with
    | .cancelSelected id =>
      write s i id (fun _ => true) (fun _ => none) fun was => .cancelDeleted id was
    | _ => none
  | .rescheduleSelect i id t => select s i id statePending fun _ => .rescheduleSelected id t
  | .rescheduleUpdate i now =>
    match s.session i with
    | .rescheduleSelected id t =>
      write s i id (fun _ => true) (fun r => some (moveRow t now r)) fun was =>
        .rescheduleUpdated id t was
    | _ => none
  | .commit i =>
    match s.session i with
    | .failWritten id => some { s.set i .idle with table := s.table.commit i id }
    | .cancelDeleted id was =>
      some { s.set i .idle with
        table := s.table.commit i id, log := s.log ++ [.cancelled id was] }
    | .rescheduleUpdated id t was =>
      some { s.set i .idle with
        table := s.table.commit i id, log := s.log ++ [.rescheduled id t was] }
    | _ => none
  | .rollback i =>
    match (s.session i).written with
    | some id => some { s.set i .idle with table := s.table.rollback i id }
    | none => some (s.set i .idle)
  | .tick d => some { s with clock := s.clock + d }

/-- **Calm**: what no step does while a `Cancel` or `Reschedule` is between its SELECT and its write -/
def Calm (s : Sys) : Label → Prop
  | .save j => j.state ≠ statePending → s.Unselected j.id
  | .claim _ _ _ _ _ picked => ∀ id ∈ picked, s.Unselected id
  | .commit i => ∀ id ∈ (s.session i).written, s.table.lock id = some (i, none) → s.Unselected id
  | _ => True

instance (s : Sys) (a : Label) : Decidable (Calm s a) := by
  cases a <;> unfold Calm <;> infer_instance

/-- what a log says of the calls that returned nil -/
structure Sound (log : List Ev) : Prop where
  cancelled : ∀ id was, .cancelled id was ∈ log → ∃ r, was = some r ∧ r.state = statePending
  rescheduled : ∀ id t was, .rescheduled id t was ∈ log → ∃ r, was = some r ∧ r.state = statePending
  unclaimed : ∀ id was w l₁ l₂ l₃, log = l₁ ++ .cancelled id was :: (l₂ ++ .claimed w id :: l₃) →
    .saved id ∈ l₂

/-! ## the invariant -/

def Pending (T : Table JobID Job) (id : JobID) : Prop :=
  ∃ r, T.row id = some r ∧ r.state = statePending

structure LogOk (log : List Ev) : Prop where
  cancelled : ∀ id was, .cancelled id was ∈ log → ∃ r, was = some r ∧ r.state = statePending
  rescheduled : ∀ id t was, .rescheduled id t was ∈ log → ∃ r, was = some r ∧ r.state = statePending
  guarded : ∀ id, Guarded (Ev.cancels id) (Ev.saves id) (Ev.claims id) log

structure Inv (s : Sys) : Prop where
  outside : ∀ i, ¬ i < s.size → s.session i = .idle
  selected : ∀ i id, (s.session i).selected = some id → Pending s.table id
  version : ∀ id i r, s.table.lock id = some (i, some r) → r.state = statePending
  cancel : ∀ i id was, s.session i = .cancelDeleted id was →
    (∃ r, was = some r ∧ r.state = statePending) ∧ s.table.lock id = some (i, none)
  reschedule : ∀ i id t was, s.session i = .rescheduleUpdated id t was →
    ∃ r, was = some r ∧ r.state = statePending
  gone : ∀ id, isOpen (Ev.cancels id) (Ev.saves id) s.log = true →
    s.table.row id = none ∧ s.table.lock id = none
  log : LogOk s.log

theorem init_inv (size : Nat) (clock : Time) : Inv (Sys.init size clock) where
  outside := fun _ _ => rfl
  selected := fun _ _ h => by cases h
  version := fun _ _ _ h => by cases h
  cancel := fun _ _ _ h => by cases h
  reschedule := fun _ _ _ _ h => by cases h
  gone := fun _ h => by cases h
  log := ⟨fun _ _ h => by (cases h), fun _ _ _ h => by (cases h), fun _ => guarded_nil⟩

section
variable {s t : Sys} {i : Nat}

theorem Inv.not_selected (hi : Inv s) {id : JobID} (hu : s.Unselected id) (i : Nat) :
    (s.session i).selected ≠ some id := by
  by_cases h : i < s.size
  · exact hu i h
  · rw [hi.outside i h]
    exact fun e => by cases e

theorem Inv.lt_size (hi : Inv s) (h : s.session i ≠ .idle) : i < s.size := by
  by_contra hlt
  exact h (hi.outside i hlt)

/-- a statement that is a transaction of its own: rows change, sessions and locks do not -/
theorem Inv.auto (hi : Inv s) (hsession : t.session = s.session) (hsize : t.size = s.size)
    (hlock : t.table.lock = s.table.lock)
    (hsel : ∀ i id, (s.session i).selected = some id → Pending t.table id)
    (hgone : ∀ id, isOpen (Ev.cancels id) (Ev.saves id) t.log = true → t.table.row id = none ∧
      t.table.lock id = none) (hlog : LogOk t.log) : Inv t where
  outside := by rw [hsession, hsize]; exact hi.outside
  selected := by rw [hsession]; exact hsel
  version := by rw [hlock]; exact hi.version
  cancel := by rw [hsession, hlock]; exact hi.cancel
  reschedule := by rw [hsession]; exact hi.reschedule
  gone := hgone
  log := hlog

/-- the session `i` moves to `x`; what has to hold for it and for the others -/
theorem Inv.move (hi : Inv s) {x : Session} (hsession : t.session = Function.update s.session i x)
    (hsize : t.size = s.size) (hlt : i < s.size)
    (hother : ∀ k id, k ≠ i → (s.session k).selected = some id → Pending t.table id)
    (hself : ∀ id, x.selected = some id → Pending t.table id)
    (hversion : ∀ id k r, t.table.lock id = some (k, some r) → r.state = statePending)
    (hlock : ∀ k id, k ≠ i → s.table.lock id = some (k, none) → t.table.lock id = some (k, none))
    (hcancel : ∀ id was, x = .cancelDeleted id was →
      (∃ r, was = some r ∧ r.state = statePending) ∧ t.table.lock id = some (i, none))
    (hreschedule : ∀ id t was, x = .rescheduleUpdated id t was →
      ∃ r, was = some r ∧ r.state = statePending)
    (hgone : ∀ id, isOpen (Ev.cancels id) (Ev.saves id) t.log = true → t.table.row id = none ∧
      t.table.lock id = none) (hlog : LogOk t.log) : Inv t := by
  have heq : t.session i = x := by rw [hsession, Function.update_self]
  have hne : ∀ k, k ≠ i → t.session k = s.session k := fun k h => by
    rw [hsession, Function.update_of_ne h]
  refine ⟨fun k hk => ?_, fun k id h => ?_, hversion, fun k id was h => ?_,
    fun k id t' was h => ?_, hgone, hlog⟩
  · rw [hsize] at hk
    have e : k ≠ i := fun e => hk (e ▸ hlt)
    rw [hne k e]
    exact hi.outside k hk
  · by_cases e : k = i
    · rw [e, heq] at h
      exact hself id h
    · rw [hne k e] at h
      exact hother k id e h
  · by_cases e : k = i
    · rw [e, heq] at h
      rw [e]
      exact hcancel id was h
    · rw [hne k e] at h
      obtain ⟨h1, h2⟩ := hi.cancel k id was h
      exact ⟨h1, hlock k id e h2⟩
  · by_cases e : k = i
    · rw [e, heq] at h
      exact hreschedule id t' was h
    · rw [hne k e] at h
      exact hi.reschedule k id t' was h

/-! ## statements that are transactions of their own -/

theorem LogOk.append {log es : List Ev} (h : LogOk log)
    (hc : ∀ id was, .cancelled id was ∈ es → ∃ r, was = some r ∧ r.state = statePending)
    (hr : ∀ id t was, .rescheduled id t was ∈ es → ∃ r, was = some r ∧ r.state = statePending)
    (hg : ∀ id, Guarded (Ev.cancels id) (Ev.saves id) (Ev.claims id) (log ++ es)) :
    LogOk (log ++ es) := by
  refine ⟨fun id was hm => ?_, fun id t was hm => ?_, hg⟩
  · rcases List.mem_append.mp hm with hm | hm
    · exact h.cancelled id was hm
    · exact hc id was hm
  · rcases List.mem_append.mp hm with hm | hm
    · exact h.rescheduled id t was hm
    · exact hr id t was hm

theorem save_inv {j : Job} (hi : Inv s) (hC : Calm s (.save j)) (h : step s (.save j) = some t) :
    Inv t := by
  obtain ⟨hl, e⟩ := Option.ite_none_right_eq_some.mp h
  rw [← Option.some.inj e]
  refine hi.auto rfl rfl rfl (fun i id hsel => ?_) (fun id ho => ?_) ?_
  · by_cases hid : id = j.id
    · subst hid
      refine ⟨_, Function.update_self .., ?_⟩
      have hp : j.state = statePending := by
        by_contra hp
        exact hi.not_selected (hC hp) i hsel
      have hst : (storedJob j).state = statePending := by
        show (if j.state = 0 then statePending else j.state) = statePending
        rw [hp]
        rfl
      unfold upsertRow
      split
      · exact hst
      · exact hst
    · obtain ⟨r, hr, hp⟩ := hi.selected i id hsel
      exact ⟨r, (Function.update_of_ne hid ..).trans hr, hp⟩
  · change isOpen _ _ (s.log ++ [.saved j.id]) = true at ho
    rw [isOpen_snoc] at ho
    by_cases hid : id = j.id
    · subst hid
      simp [Ev.cancels, Ev.saves] at ho
    · have hne : j.id ≠ id := fun e => hid e.symm
      have ho' : isOpen (Ev.cancels id) (Ev.saves id) s.log = true := by
        simpa [Ev.cancels, Ev.saves, hne] using ho
      obtain ⟨h1, h2⟩ := hi.gone id ho'
      exact ⟨(Function.update_of_ne hid ..).trans h1, h2⟩
  · refine hi.log.append (by simp) (by simp) fun id => (hi.log.guarded id).append_quiet fun e he => ?_
    rw [List.mem_singleton.mp he]
    rfl

theorem mem_candidates {q : String} {now : Time} {id : JobID} (h : id ∈ s.candidates q now) :
    ∃ r, s.table.row id = some r := by
  have h' := (List.mem_filter.mp h).2
  cases hr : s.table.row id with
  | none =>
    rw [hr] at h'
    simp at h'
  | some r => exact ⟨r, rfl⟩

theorem claim_inv {q w : String} {now lu : Time} {n : Nat} {picked : List JobID} (hi : Inv s)
    (hC : Calm s (.claim q now n w lu picked)) (h : step s (.claim q now n w lu picked) = some t) :
    Inv t := by
  obtain ⟨hsel, e⟩ := Option.ite_none_right_eq_some.mp h
  rw [← Option.some.inj e]
  have hquiet : ∀ id, ∀ e ∈ picked.map (Ev.claimed w), e.cancels id = false ∧ e.saves id = false := by
    intro id e he
    obtain ⟨i, _, rfl⟩ := List.mem_map.mp he
    exact ⟨rfl, rfl⟩
  refine hi.auto rfl rfl rfl (fun i id hs => ?_) (fun id ho => ?_) ?_
  · have hid : id ∉ picked := fun hid => hi.not_selected (hC id hid) i hs
    obtain ⟨r, hr, hp⟩ := hi.selected i id hs
    refine ⟨r, ?_, hp⟩
    show (s.table.row id).map _ = some r
    rw [hr]
    exact congrArg some (if_neg hid)
  · change isOpen _ _ (s.log ++ picked.map (Ev.claimed w)) = true at ho
    rw [isOpen_append_quiet (hquiet id)] at ho
    obtain ⟨h1, h2⟩ := hi.gone id ho
    refine ⟨?_, h2⟩
    show (s.table.row id).map _ = none
    rw [h1]
    rfl
  · refine hi.log.append (by simp) (by simp) fun id =>
      (hi.log.guarded id).append_closed (hquiet id) fun e he hn => ?_
    obtain ⟨i, hm, rfl⟩ := List.mem_map.mp he
    have hid : i = id := beq_iff_eq.mp hn
    subst hid
    obtain ⟨r, hr⟩ := mem_candidates (hsel.2.1 i hm)
    rw [← Bool.not_eq_true]
    intro ho
    rw [(hi.gone i ho).1] at hr
    cases hr

theorem ack_inv {id : JobID} (hi : Inv s) (h : step s (.ack id) = some t) : Inv t := by
  obtain ⟨T, hT, rfl⟩ := Option.map_eq_some_iff.mp h
  rcases Table.exec_spec hT with rfl | ⟨r, hr, hp, _, rfl⟩
  · exact hi
  · refine hi.auto rfl rfl rfl (fun i id' hs => ?_) (fun id' ho => ?_) hi.log
    · obtain ⟨r', hr', hp'⟩ := hi.selected i id' hs
      have hne : id' ≠ id := by
        intro e
        subst e
        rw [hr] at hr'
        rw [isState, beq_iff_eq, Option.some.inj hr', hp'] at hp
        exact absurd hp (by decide)
      exact ⟨r', (Function.update_of_ne hne ..).trans hr', hp'⟩
    · obtain ⟨h1, h2⟩ := hi.gone id' ho
      refine ⟨?_, h2⟩
      show Function.update s.table.row id none id' = none
      by_cases e : id' = id
      · rw [e, Function.update_self]
      · rw [Function.update_of_ne e]
        exact h1

theorem recoverStale_inv {now : Time} (hi : Inv s) (h : step s (.recoverStale now) = some t) :
    Inv t := by
  obtain ⟨_, e⟩ := Option.ite_none_right_eq_some.mp h
  rw [← Option.some.inj e]
  refine hi.auto rfl rfl rfl (fun i id hs => ?_) (fun id ho => ?_) hi.log
  · obtain ⟨r, hr, hp⟩ := hi.selected i id hs
    refine ⟨r, ?_, hp⟩
    show (s.table.row id).map _ = some r
    rw [hr]
    refine congrArg some (if_neg fun hst => ?_)
    have hc := hst.1
    rw [hp] at hc
    exact absurd hc (by decide)
  · obtain ⟨h1, h2⟩ := hi.gone id ho
    refine ⟨?_, h2⟩
    show (s.table.row id).map _ = none
    rw [h1]
    rfl

/-! ## the statements of a transaction -/

/-- a session moves on and the table stays as it is -/
theorem Inv.look (hi : Inv s) {x : Session} (hlt : i < s.size)
    (hs : ∀ id, x.selected = some id → Pending s.table id)
    (hc : ∀ id was, x ≠ .cancelDeleted id was) (hr : ∀ id t was, x ≠ .rescheduleUpdated id t was) :
    Inv (s.set i x) :=
  hi.move (i := i) (x := x) rfl rfl hlt (fun k id _ h => hi.selected k id h) hs hi.version
    (fun _ _ _ h => h) (fun id was e => absurd e (hc id was)) (fun id t was e => absurd e (hr id t was))
    hi.gone hi.log

theorem select_inv {id : JobID} {st : State} {next : Job → Session} (hi : Inv s)
    (hs : ∀ r id', (next r).selected = some id' → id' = id ∧ st = statePending)
    (hw : ∀ r, (next r).written = none) (h : select s i id st next = some t) : Inv t := by
  obtain ⟨⟨hlt, _⟩, h⟩ := Option.ite_none_right_eq_some.mp h
  split at h
  · rename_i r hr
    split at h
    · rename_i hst
      rw [← Option.some.inj h]
      refine hi.look hlt (fun id' hs' => ?_) (fun id' was e => ?_) fun id' t was e => ?_
      · obtain ⟨rfl, e⟩ := hs r id' hs'
        exact ⟨r, hr, (beq_iff_eq.mp hst).trans e⟩
      · have hn := hw r
        rw [e] at hn
        cases hn
      · have hn := hw r
        rw [e] at hn
        cases hn
    · rw [← Option.some.inj h]
      exact hi
  · rw [← Option.some.inj h]
    exact hi

/-- a write that locks the row of `id` with the version `v` -/
theorem Inv.locked (hi : Inv s) {x : Session} {id : JobID} {r : Job} {v : Option Job}
    (hlt : i < s.size) (hr : s.table.row id = some r) (hl : s.table.lock id = none)
    (hv : ∀ r', v = some r' → r'.state = statePending) (hs : x.selected = none)
    (hc : ∀ id' was, x = .cancelDeleted id' was →
      id' = id ∧ v = none ∧ ∃ r, was = some r ∧ r.state = statePending)
    (hx : ∀ id' t was, x = .rescheduleUpdated id' t was → ∃ r, was = some r ∧ r.state = statePending) :
    Inv { s.set i x with
      table := { s.table with lock := Function.update s.table.lock id (some (i, v)) } } := by
  refine hi.move (i := i) (x := x) rfl rfl hlt (fun k id' _ h => hi.selected k id' h)
    (fun id' h => ?_) (fun id' k r' h => ?_) (fun k id' _ h => ?_) (fun id' was e => ?_) hx
    (fun id' ho => ?_) hi.log
  · rw [hs] at h
    cases h
  · by_cases e : id' = id
    · subst e
      change Function.update s.table.lock id' (some (i, v)) id' = _ at h
      rw [Function.update_self] at h
      exact hv r' (congrArg Prod.snd (Option.some.inj h))
    · exact hi.version id' k r' ((Function.update_of_ne e ..).symm.trans h)
  · have e : id' ≠ id := by
      intro e
      rw [e, hl] at h
      cases h
    exact (Function.update_of_ne e ..).trans h
  · obtain ⟨rfl, rfl, hw⟩ := hc id' was e
    exact ⟨hw, Function.update_self ..⟩
  · obtain ⟨h1, h2⟩ := hi.gone id' ho
    have e : id' ≠ id := by
      intro e
      rw [e, hr] at h1
      cases h1
    exact ⟨h1, (Function.update_of_ne e ..).trans h2⟩

theorem failWritten_inv {id : JobID} {p : Job → Bool} {f : Job → Option Job} (hi : Inv s)
    (hlt : i < s.size) (hf : ∀ r r', f r = some r' → r'.state = statePending)
    (h : write s i id p f (fun _ => .failWritten id) = some t) : Inv t := by
  obtain ⟨⟨T, was⟩, hT, rfl⟩ := Option.map_eq_some_iff.mp h
  rcases Table.update_spec hT with ⟨rfl, _, _⟩ | ⟨r, hr, _, hl, _, rfl⟩
  · exact hi.look hlt (fun _ h => by cases h) (fun _ _ e => by cases e) fun _ _ _ e => by cases e
  · exact hi.locked hlt hr hl (hf r) rfl (fun _ _ e => by cases e) fun _ _ _ e => by cases e

theorem failWrite_inv {now : Time} (hi : Inv s) (h : step s (.failWrite i now) = some t) : Inv t := by
  simp only [step] at h
  split at h
  · rename_i hsess
    have hlt : i < s.size := hi.lt_size (by rw [hsess]; simp)
    split at h
    · exact failWritten_inv hi hlt (fun _ _ e => by cases e) h
    · refine failWritten_inv hi hlt (fun r r' e => ?_) h
      rw [← Option.some.inj e]
      rfl
  · cases h

/-- a write by ID finds the row that the SELECT of its transaction has found -/
theorem write_selected {id : JobID} {f : Job → Option Job} {next : Option Job → Session} (hi : Inv s)
    (hsel : (s.session i).selected = some id) (h : write s i id (fun _ => true) f next = some t) :
    ∃ r, s.table.row id = some r ∧ r.state = statePending ∧ s.table.lock id = none ∧
      t = { s.set i (next (some r)) with
        table := { s.table with lock := Function.update s.table.lock id (some (i, f r)) } } := by
  obtain ⟨r₀, hr₀, hp⟩ := hi.selected i id hsel
  obtain ⟨⟨T, was⟩, hT, rfl⟩ := Option.map_eq_some_iff.mp h
  rcases Table.update_spec hT with ⟨_, _, hno⟩ | ⟨r, hr, _, hl, rfl, rfl⟩
  · exact absurd (hno r₀ hr₀) (by decide)
  · rw [hr] at hr₀
    rw [← Option.some.inj hr₀] at hp
    exact ⟨r, hr, hp, hl, rfl⟩

theorem cancelDelete_inv (hi : Inv s) (h : step s (.cancelDelete i) = some t) : Inv t := by
  simp only [step] at h
  split at h
  · rename_i id hsess
    have hlt : i < s.size := hi.lt_size (by rw [hsess]; simp)
    obtain ⟨r, hr, hp, hl, rfl⟩ := write_selected hi (by rw [hsess]; rfl) h
    refine hi.locked hlt hr hl (fun _ e => by cases e) rfl (fun id' was e => ?_)
      fun _ _ _ e => by cases e
    cases e
    exact ⟨rfl, rfl, r, rfl, hp⟩
  · cases h

theorem rescheduleUpdate_inv {now : Time} (hi : Inv s) (h : step s (.rescheduleUpdate i now) = some t) :
    Inv t := by
  simp only [step] at h
  split at h
  · rename_i id t' hsess
    have hlt : i < s.size := hi.lt_size (by rw [hsess]; simp)
    obtain ⟨r, hr, hp, hl, rfl⟩ := write_selected hi (by rw [hsess]; rfl) h
    refine hi.locked hlt hr hl (fun r' e => ?_) rfl (fun _ _ e => by cases e) fun id' u was e => ?_
    · rw [← Option.some.inj e]
      exact hp
    · cases e
      exact ⟨r, rfl, hp⟩
  · cases h

/-! ## the end of a transaction -/

/-- the lock of the transaction `i` on `id` is released; other locks stay -/
theorem Inv.unlock (hi : Inv s) {id : JobID} {v : Option Job} (hv : s.table.lock id = some (i, v)) :
    (∀ id' k r, Function.update s.table.lock id none id' = some (k, some r) →
        r.state = statePending) ∧
      (∀ k id', k ≠ i → s.table.lock id' = some (k, none) →
        Function.update s.table.lock id none id' = some (k, none)) ∧
      ∀ id', s.table.lock id' = none → id' ≠ id ∧ Function.update s.table.lock id none id' = none := by
  refine ⟨fun id' k r h => ?_, fun k id' hk h => ?_, fun id' h => ?_⟩
  · by_cases e : id' = id
    · rw [e, Function.update_self] at h
      cases h
    · rw [Function.update_of_ne e] at h
      exact hi.version id' k r h
  · have e : id' ≠ id := by
      intro e
      rw [e, hv] at h
      exact hk (congrArg Prod.fst (Option.some.inj h)).symm
    rw [Function.update_of_ne e]
    exact h
  · have e : id' ≠ id := by
      intro e
      rw [e, hv] at h
      cases h
    rw [Function.update_of_ne e]
    exact ⟨e, h⟩

/-- what a commit of a calm step leaves for the others -/
theorem Inv.commit_table (hi : Inv s) {id : JobID}
    (hcalm : s.table.lock id = some (i, none) → s.Unselected id) :
    (∀ k id', (s.session k).selected = some id' → Pending (s.table.commit i id) id') ∧
      (∀ id' k r, (s.table.commit i id).lock id' = some (k, some r) → r.state = statePending) ∧
      (∀ k id', k ≠ i → s.table.lock id' = some (k, none) →
        (s.table.commit i id).lock id' = some (k, none)) ∧
      ∀ id', s.table.row id' = none → s.table.lock id' = none →
        (s.table.commit i id).row id' = none ∧ (s.table.commit i id).lock id' = none := by
  rcases Table.commit_spec s.table i id with ⟨e, _⟩ | ⟨v, hv, e⟩
  · rw [e]
    exact ⟨fun k id' h => hi.selected k id' h, hi.version, fun _ _ _ h => h, fun _ h1 h2 => ⟨h1, h2⟩⟩
  · obtain ⟨h1, h2, h3⟩ := hi.unlock hv
    rw [e]
    refine ⟨fun k id' h => ?_, h1, h2, fun id' hr hl => ?_⟩
    · by_cases ei : id' = id
      · subst ei
        cases v with
        | none => exact absurd h (hi.not_selected (hcalm hv) k)
        | some r => exact ⟨r, Function.update_self .., hi.version id' i r hv⟩
      · obtain ⟨r, hr, hp⟩ := hi.selected k id' h
        exact ⟨r, (Function.update_of_ne ei ..).trans hr, hp⟩
    · obtain ⟨ei, hl'⟩ := h3 id' hl
      exact ⟨(Function.update_of_ne ei ..).trans hr, hl'⟩

/-- a transaction that ends with a commit and records `es` -/
theorem Inv.commit (hi : Inv s) {id : JobID} {es : List Ev} (hlt : i < s.size)
    (hcalm : s.table.lock id = some (i, none) → s.Unselected id) (hlog : LogOk (s.log ++ es))
    (hgone : ∀ id', isOpen (Ev.cancels id') (Ev.saves id') (s.log ++ es) = true →
      isOpen (Ev.cancels id') (Ev.saves id') s.log = true ∨
        id' = id ∧ s.table.lock id = some (i, none)) :
    Inv { s.set i .idle with table := s.table.commit i id, log := s.log ++ es } := by
  obtain ⟨h1, h2, h3, h4⟩ := hi.commit_table hcalm
  refine hi.move (i := i) (x := .idle) rfl rfl hlt (fun k id' _ h => h1 k id' h)
    (fun _ h => by cases h) h2 h3 (fun _ _ e => by cases e) (fun _ _ _ e => by cases e)
    (fun id' ho => ?_) hlog
  rcases hgone id' ho with ho | ⟨rfl, hl⟩
  · exact h4 id' (hi.gone id' ho).1 (hi.gone id' ho).2
  · rcases Table.commit_spec s.table i id' with ⟨_, hno⟩ | ⟨v, hv, e⟩
    · exact absurd hl (hno none)
    · rw [hl] at hv
      cases hv
      show (s.table.commit i id').row id' = none ∧ (s.table.commit i id').lock id' = none
      rw [e]
      exact ⟨Function.update_self .., Function.update_self ..⟩

theorem commit_inv (hi : Inv s) (hC : Calm s (.commit i)) (h : step s (.commit i) = some t) :
    Inv t := by
  simp only [step] at h
  split at h
  · rename_i id hsess
    rw [← Option.some.inj h]
    have hc : Inv { s.set i .idle with table := s.table.commit i id, log := s.log ++ [] } :=
      hi.commit (hi.lt_size (by rw [hsess]; simp)) (hC id (by rw [hsess]; rfl))
        (by rw [List.append_nil]; exact hi.log) fun id' ho =>
          Or.inl (by rwa [List.append_nil] at ho)
    rw [List.append_nil] at hc
    exact hc
  · rename_i id was hsess
    rw [← Option.some.inj h]
    obtain ⟨hwas, hl⟩ := hi.cancel i id was hsess
    refine hi.commit (hi.lt_size (by rw [hsess]; simp)) (hC id (by rw [hsess]; rfl)) ?_ fun id' ho => ?_
    · refine hi.log.append (fun id' was' hm => ?_) (by simp) fun id' =>
        (hi.log.guarded id').append_quiet fun e he => ?_
      · cases List.mem_singleton.mp hm
        exact hwas
      · rw [List.mem_singleton.mp he]
        rfl
    · rw [isOpen_snoc] at ho
      by_cases e : id = id'
      · exact Or.inr ⟨e.symm, hl⟩
      · refine Or.inl ?_
        simpa [Ev.cancels, Ev.saves, e] using ho
  · rename_i id t' was hsess
    rw [← Option.some.inj h]
    refine hi.commit (hi.lt_size (by rw [hsess]; simp)) (hC id (by rw [hsess]; rfl)) ?_ fun id' ho => ?_
    · refine hi.log.append (by simp) (fun id' u was' hm => ?_) fun id' =>
        (hi.log.guarded id').append_quiet fun e he => ?_
      · cases List.mem_singleton.mp hm
        exact hi.reschedule i id t' was hsess
      · rw [List.mem_singleton.mp he]
        rfl
    · rw [isOpen_snoc] at ho
      exact Or.inl ho
  · cases h

theorem rollback_inv (hi : Inv s) (h : step s (.rollback i) = some t) : Inv t := by
  simp only [step] at h
  split at h
  · rename_i id hw
    rw [← Option.some.inj h]
    have hlt : i < s.size := hi.lt_size fun e => by
      rw [e] at hw
      cases hw
    rcases Table.rollback_spec s.table i id with e | ⟨v, hv, e⟩
    · rw [e]
      exact hi.look hlt (fun _ h => by cases h) (fun _ _ e => by cases e) fun _ _ _ e => by cases e
    · obtain ⟨h1, h2, h3⟩ := hi.unlock hv
      rw [e]
      exact hi.move (i := i) (x := .idle) rfl rfl hlt (fun k id' _ h => hi.selected k id' h)
        (fun _ h => by cases h) h1 h2 (fun _ _ e => by cases e) (fun _ _ _ e => by cases e)
        (fun id' ho => ⟨(hi.gone id' ho).1, (h3 id' (hi.gone id' ho).2).2⟩) hi.log
  · rw [← Option.some.inj h]
    by_cases hlt : i < s.size
    · exact hi.look hlt (fun _ h => by cases h) (fun _ _ e => by cases e) fun _ _ _ e => by cases e
    · have e : s.set i .idle = s := by
        unfold Sys.set
        rw [← hi.outside i hlt, Function.update_eq_self]
      rw [e]
      exact hi

/-- **One calm step keeps the invariant.** -/
theorem step_inv {a : Label} (hi : Inv s) (hC : Calm s a) (h : step s a = some t) : Inv t := by
  cases a with
  | save j => exact save_inv hi hC h
  | claim => exact claim_inv hi hC h
  | ack => exact ack_inv hi h
  | recoverStale => exact recoverStale_inv hi h
  | failSelect => exact select_inv hi (fun _ _ e => by cases e) (fun _ => rfl) h
  | failWrite => exact failWrite_inv hi h
  | cancelSelect =>
    refine select_inv hi (fun _ _ e => ?_) (fun _ => rfl) h
    cases e
    exact ⟨rfl, rfl⟩
  | cancelDelete => exact cancelDelete_inv hi h
  | rescheduleSelect =>
    refine select_inv hi (fun _ _ e => ?_) (fun _ => rfl) h
    cases e
    exact ⟨rfl, rfl⟩
  | rescheduleUpdate => exact rescheduleUpdate_inv hi h
  | commit => exact commit_inv hi hC h
  | rollback => exact rollback_inv hi h
  | tick d =>
    rw [← Option.some.inj h]
    exact hi.auto rfl rfl rfl hi.selected hi.gone hi.log

end

theorem LogOk.sound {log : List Ev} (h : LogOk log) : Sound log := by
  refine ⟨h.cancelled, h.rescheduled, fun id was w l₁ l₂ l₃ e => ?_⟩
  obtain ⟨x, hx, hc⟩ := (e ▸ h.guarded id).close_between
    (show Ev.cancels id (.cancelled id was) = true from beq_self_eq_true id)
    (show Ev.claims id (.claimed w id) = true from beq_self_eq_true id)
  cases x with
  | saved i =>
    rw [beq_iff_eq.mp (show (i == id) = true from hc)] at hx
    exact hx
  | claimed | cancelled | rescheduled => cases hc

/-- **Calm runs are sound**, in every state and for every pool: a `Cancel` or `Reschedule` that returned
nil found the row pending when it wrote, and no `ClaimDue` returns a cancelled job that was not saved
again. -/
theorem calm_sound (size : Nat) (clock : Time) (l : List Label) (s : Sys)
    (h : run step (Sys.init size clock) l = some s) (hm : Meets step Calm (Sys.init size clock) l) :
    Sound s.log :=
  (run_keep_of (fun _ _ _ hi hC hst => step_inv hi hC hst) hm (init_inv size clock) h).log.sound

/-! ## runs -/

def sampleJob : Job := { id := "j", queue := "q", runAt := 5000, maxAttempts := 3 }

/-- a cancel and a claim of another job, statement by statement -/
def calmRun : List Label :=
  [.save sampleJob, .save { sampleJob with id := "k" }, .cancelSelect 0 "j", .cancelDelete 0,
    .claim "q" 9000 2 "A" 60000 ["k"], .commit 0, .claim "q" 9000 2 "A" 60000 []]

theorem calm_sound_cancel : ∃ s r, run step (Sys.init 2 0) calmRun = some s ∧
    .cancelled "j" (some r) ∈ s.log ∧ r.state = statePending := by
  have hrun : (run step (Sys.init 2 0) calmRun).map Sys.log = some [.saved "j", .saved "k",
      .claimed "A" "k", .cancelled "j" (some sampleJob)] := by decide +kernel
  obtain ⟨s, hs, hlog⟩ := Option.map_eq_some_iff.mp hrun
  have hmem : .cancelled "j" (some sampleJob) ∈ s.log := by
    rw [hlog]
    decide
  obtain ⟨r, hr, hp⟩ := (calm_sound 2 0 calmRun s hs (by decide +kernel)).cancelled _ _ hmem
  exact ⟨s, r, hs, hr ▸ hmem, hp⟩

/-- the sample job, claimed by `A` -/
def claimedJob : Job := claimRow 9000 "A" 60000 sampleJob

/-- **A job that is claimed in between**: `Cancel` removes it, and `Reschedule` moves it, while `A`
holds it, and both return nil. -/
theorem claimed_between :
    (run step (Sys.init 2 0) [.save sampleJob, .cancelSelect 0 "j",
      .claim "q" 9000 1 "A" 60000 ["j"], .cancelDelete 0, .commit 0]).map
        (fun s => (s.table.row "j", s.log)) =
      some (none, [.saved "j", .claimed "A" "j", .cancelled "j" (some claimedJob)]) ∧
    (run step (Sys.init 2 0) [.save sampleJob, .rescheduleSelect 0 "j" 80000,
      .claim "q" 9000 1 "A" 60000 ["j"], .rescheduleUpdate 0 10000, .commit 0]).map
        (fun s => (s.table.row "j", s.log)) =
      some (some (moveRow 80000 10000 claimedJob),
        [.saved "j", .claimed "A" "j", .rescheduled "j" 80000 (some claimedJob)]) ∧
    claimedJob.state = stateClaimed := by decide +kernel

end GS.Postgres.Tx
