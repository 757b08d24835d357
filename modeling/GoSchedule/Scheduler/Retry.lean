import GoSchedule.Scheduler.Life
import GoSchedule.Scheduler.Order

/-!
# From one execution of a job to the next

* `Worker.failure`      the error with which an execution ends, if it fails;
* `Scheduler.delay`     how long the worker asks the store to wait after a failure: the backoff, or an
  hour after the last attempt that it counts and for a job without a handler;
* `finish_call`         the one store call of an execution, in these words;
* `Untouched id`        a move that neither claims nor reschedules `id`;
* `retries_spaced`      **the job is handed out again only after a failure that leaves attempts, not
  before the delay is over, and as the very record that the failure left**.
-/

namespace GS
open Mem Trans

def Worker.failure (x : Outcome) : Worker → Option String
  | .running _ => safeInvoke x.result
  | .missing j => some ("no handler registered for " ++ j.name)
  | _ => none

def Scheduler.delay (sc : Scheduler) : Worker → Duration
  | .running j => if maxAttempts j ≤ j.attempt + 1 then hour else sc.defaultBackoff (j.attempt + 1)
  | _ => hour

/-- an execution makes one call, `Ack` or `Fail` -/
theorem finish_call {sc : Scheduler} {x : Outcome} {s : Mem.Store} {w : Worker} {d : Done} {j : Job}
    (hd : w.finish sc x s = some d) (hj : w.job = some j) :
    d.call = match w.failure x with
      | none => .ack j.id
      | some err => .fail j.id err (x.now.add (sc.delay w)) := by
  cases w with
  | idle => cases hd
  | got k => cases hd
  | missing k =>
    obtain rfl := Option.some.inj hj
    obtain rfl := Option.some.inj hd
    rfl
  | running k =>
    obtain rfl := Option.some.inj hj
    obtain rfl := Option.some.inj hd
    unfold finish Worker.failure Scheduler.delay
    cases safeInvoke x.result with
    | none => rfl
    | some err =>
      dsimp only
      split
      · rfl
      · rfl

def Untouched (id : JobID) (s : Sys) (a : Label) : Prop :=
  (∀ q, ∀ k ∈ batchOf q s a, k.id ≠ id) ∧ ∀ u, a ≠ .reschedule id u

/-- the record of an ID that was given out is `r`, until it is gone -/
structure Waits (id : JobID) (r : Job) (s : Sys) : Prop where
  inv : SysInv s
  known : ¬ s.Fresh id
  record : s.store.jobs id = none ∨ s.store.jobs id = some r

section
variable {s t : Sys} {a : Label} {id : JobID}

/-- IDs are given out for good -/
theorem not_fresh_step (v : SysInv s) (h : step s a = some t) (hs : ¬ s.Fresh id) : ¬ t.Fresh id := by
  intro hf
  have hsame : t.saved = s.saved → False := fun e => hs (by unfold Sys.Fresh at *; rwa [e] at hf)
  cases step_move v.ledger h with
  | quiet _ saved => exact hsame saved
  | save j _ _ _ _ saved => exact hs (fresh_of_append saved hf).1
  | edit _ _ _ _ _ _ _ saved => exact hsame saved
  | claim _ _ _ _ _ _ _ _ saved => exact hsame saved
  | start _ _ _ saved => exact hsame saved
  | finish _ _ _ _ _ _ _ _ _ _ _ _ saved => exact hsame saved

/-- the record is left alone by all that neither claims nor reschedules it -/
theorem Waits.step {r : Job} (W : Waits id r s) (hr : r.state = statePending)
    (ha : Untouched id s a) (h : step s a = some t) : Waits id r t := by
  refine ⟨step_inv W.inv h, not_fresh_step W.inv h W.known, ?_⟩
  have hold : ∀ {j}, s.store.jobs id = some j → j = r := by
    intro j hj
    rcases W.record with e | e
    · cases hj.symm.trans e
    · exact Option.some.inj (hj.symm.trans e)
  cases step_life W.inv.ledger h id with
  | same record =>
    rw [record]
    exact W.record
  | saved j _ _ fresh => exact absurd fresh W.known
  | claimed j q now label old _ _ _ _ batch =>
    subst label
    refine absurd (W.inv.ledger.inv.jobs_id old) (ha.1 q (s.sched.claimed now j) ?_)
    rw [batchOf_claim h, if_pos rfl]
    exact batch
  | finished j _ _ _ _ _ _ _ _ _ old claimed =>
    rw [hold old, hr] at claimed
    exact absurd claimed (by decide)
  | cancelled _ _ _ _ record => exact Or.inl record
  | rescheduled j u label => exact absurd label (ha.2 u)

theorem Waits.run {r : Job} (W : Waits id r s) (hr : r.state = statePending) {l : List Label}
    (hl : Meets GS.step (Untouched id) s l) (h : run GS.step s l = some t) : Waits id r t :=
  run_keep_of (fun _ _ _ W ha h => Waits.step W hr ha h) hl W h

/-- a record that is gone stays away, whatever is done -/
theorem gone_step (h : step s a = some t) (hs : SysInv s ∧ ¬ s.Fresh id ∧ s.store.jobs id = none) :
    SysInv t ∧ ¬ t.Fresh id ∧ t.store.jobs id = none := by
  obtain ⟨v, hf, hnone⟩ := hs
  refine ⟨step_inv v h, not_fresh_step v h hf, ?_⟩
  cases step_life v.ledger h id with
  | same record => exact record.trans hnone
  | saved j _ _ fresh => exact absurd fresh hf
  | claimed j _ _ _ old => cases old.symm.trans hnone
  | finished j _ _ _ _ _ _ _ _ _ old => cases old.symm.trans hnone
  | cancelled j _ old => cases old.symm.trans hnone
  | rescheduled j _ _ old => cases old.symm.trans hnone

theorem gone_run {l : List Label} (h : run step s l = some t)
    (hs : SysInv s ∧ ¬ s.Fresh id ∧ s.store.jobs id = none) : t.store.jobs id = none :=
  (run_keep (P := fun s => SysInv s ∧ ¬ s.Fresh id ∧ s.store.jobs id = none)
    (fun _ _ _ hs h => gone_step h hs) hs h).2.2

/-- a finishing worker leaves the record that its call says -/
theorem finish_record (v : SysInv s) {q : String} {i : Nat} {x : Outcome} {w : Worker} {j : Job}
    (hw : (s.workers q)[i]? = some w) (hj : w.job = some j) (h : step s (.finish q i x) = some t) :
    ¬ t.Fresh j.id ∧ t.store.jobs j.id = match w.failure x with
      | none => none
      | some err => afterFail j err (x.now.add (s.sched.delay w)) := by
  have hrec := ((v.ledger.mem q j).mp (mem_held_of_worker (List.mem_of_getElem? hw) hj)).1
  refine ⟨not_fresh_step v h fun hf => ?_, ?_⟩
  · cases hrec.symm.trans (v.known j.id hf)
  · cases step_flow h with
    | quiet _ _ hfi => exact absurd rfl (hfi q i x)
    | @finish _ _ _ w' d hw' hd =>
      obtain rfl := Option.some.inj (hw.symm.trans hw')
      obtain ⟨_, _, jobs⟩ := finish_jobs v.ledger (mem_held_of_worker (List.mem_of_getElem? hw) hj) hd hj
      show d.store.jobs j.id = _
      rw [jobs, Function.update_self, finish_call hd hj]
      cases w.failure x with
      | none => rfl
      | some err => rfl

end

/-- **Retries are spaced.**  An execution that succeeds, or uses up the attempts that the store allows,
is the last of its job.  After any other one the job is handed out next not before the delay is over,
and with nothing changed but the attempt, the error, the due time and the lock. -/
theorem retries_spaced (sc : Scheduler) (l₁ l₂ : List Label) (s s' u : Sys) (q : String) (i : Nat)
    (x : Outcome) (w : Worker) (j : Job) (h₁ : run step (Sys.init sc) l₁ = some s)
    (hw : (s.workers q)[i]? = some w) (hj : w.job = some j)
    (hfinish : step s (.finish q i x) = some s') (h₂ : run step s' l₂ = some u) :
    (w.failure x = none ∨ Exhausted j → u.store.jobs j.id = none) ∧
      ∀ err, w.failure x = some err → ¬ Exhausted j → Meets step (Untouched j.id) s' l₂ →
        ∀ q' now t, step u (.claim q' now) = some t → ∀ k ∈ t.batch q', k.id = j.id →
          x.now.add (s.sched.delay w) ≤ now ∧
            k = u.sched.claimed now (retried j err (x.now.add (s.sched.delay w))) := by
  have v : SysInv s := run_keep (fun _ _ _ v h => step_inv v h) (init_inv sc) h₁
  have v' := step_inv v hfinish
  obtain ⟨hf, hrec⟩ := finish_record v hw hj hfinish
  constructor
  · intro hlast
    refine gone_run h₂ ⟨v', hf, ?_⟩
    rw [hrec]
    rcases hlast with e | hx
    · rw [e]
    · cases w.failure x with
      | none => rfl
      | some err => exact if_pos hx
  · intro err herr hx hl q' now t hclaim k hk hid
    rw [herr] at hrec
    have W : Waits j.id (retried j err (x.now.add (s.sched.delay w))) s' :=
      ⟨v', hf, Or.inr (hrec.trans (if_neg hx))⟩
    have Wu := W.run rfl hl h₂
    obtain ⟨r, hr, _, _, hdue, rfl⟩ := mem_batch Wu.inv.ledger hclaim hk
    rw [hid] at hr
    rcases Wu.record with e | e
    · cases hr.symm.trans e
    · obtain rfl := Option.some.inj (hr.symm.trans e)
      exact ⟨hdue, rfl⟩

/-- a backoff of one second for each attempt -/
def patient : Scheduler := { oneHandler with defaultBackoff := fun attempt => attempt * second }

/-- a job whose handler runs for the first time -/
def firstTry : List Label :=
  [.schedule 0 0 "id" "job" [] [], .claim "default" 5, .send "default", .receive "default" 0,
    .lookup "default" 0]

theorem retries_spaced_once : ∃ s j s' t k, run step (Sys.init patient) firstTry = some s ∧
    (s.workers "default")[0]? = some (.running j) ∧
    step s (.finish "default" 0 ⟨.error "boom", 5, 6, 7⟩) = some s' ∧
    step s' (.claim "default" 1000000007) = some t ∧ t.batch "default" = [k] ∧
    k = patient.claimed 1000000007 (retried j "boom" 1000000007) := by
  refine ⟨_, _, _, _, _, rfl, rfl, rfl, rfl, rfl, ?_⟩
  exact ((retries_spaced patient firstTry [] _ _ _ "default" 0 ⟨.error "boom", 5, 6, 7⟩ _ _ rfl rfl
    rfl rfl rfl).2 "boom" rfl (by decide) trivial "default" 1000000007 _ rfl _
      (List.mem_singleton.mpr rfl) rfl).2

end GS
