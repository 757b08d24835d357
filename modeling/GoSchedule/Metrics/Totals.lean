import GoSchedule.Metrics.InFlight
import GoSchedule.Scheduler.Life
import GoSchedule.Scheduler.Order
import GoSchedule.Scheduler.Report

/-!
# What the counters add up to

The Prometheus counters on a running scheduler with a memstore: every job that was saved is counted by
`jobs_succeeded_total` or by `jobs_failed_total`, is about to be, was cancelled, or is still stored.  Only
a failure that is reported while the store keeps the job is counted too much.

* `Sys.stored`        the saved jobs that still have a record, by queue and name;
* `cancelledOf`       the job that a move cancels;
* `prematureOf`       the job that a move reports as failed although the store keeps it;
* `step_balances`     a move adds as much on one side as on the other, with every hook of its log;
* `Hooked`            the scheduler with each hook as a step of its own: `executeOne` and `At` call it
  when the store call has returned, and every other goroutine may move in between;
* `run_moves`         without its hooks a run of `Hooked` is one of the scheduler;
* `totals_balanced`   **in every state of every run these numbers balance**; `agreeing_not_premature`
  says that agreeing executions report no failure too early.
-/

namespace GS
open Mem Trans Slots
open Prometheus (Metrics)
open scoped List

def Job.under (queue name : String) (j : Job) : Bool := j.queue == queue && j.name == name

def Sys.stored (s : Sys) (queue name : String) : Nat :=
  (s.saved.map Job.id).countP fun id => (s.store.jobs id).any (Job.under queue name)

def cancelledOf (s : Sys) : Label → List Job
  | .cancel id => if (s.store.cancel id).2 = none then (s.store.jobs id).toList else []
  | _ => []

/-- `OnFailure` is fired by the worker's own rule for the last attempt, and without a handler always -/
def Worker.premature (x : Outcome) : Worker → List Job
  | .running j =>
    if safeInvoke x.result ≠ none ∧ maxAttempts j ≤ j.attempt + 1 ∧ ¬ Exhausted j then [j] else []
  | .missing j => if Exhausted j then [] else [j]
  | _ => []

def prematureOf (s : Sys) : Label → List Job
  | .finish q i x => ((s.workers q)[i]?.map (Worker.premature x)).getD []
  | _ => []

theorem cancelledOf_err {s : Sys} {id : JobID} {e : StoreErr} (h : s.store.cancel id = (s.store, some e)) :
    cancelledOf s (.cancel id) = [] := by
  show (if (s.store.cancel id).2 = none then _ else _) = _
  rw [h]
  rfl

theorem prematureOf_finish {s : Sys} {q : String} {i : Nat} {w : Worker} (x : Outcome)
    (h : (s.workers q)[i]? = some w) : prematureOf s (.finish q i x) = w.premature x := by
  show ((s.workers q)[i]?.map (Worker.premature x)).getD [] = _
  rw [h]
  rfl

/-! ## the counters as counts of events -/

section
variable (queue name : String)

/-- `OnSuccess` or `OnFailure` -/
def ends : Event → Bool
  | .success _ n q _ _ => q == queue && n == name
  | .failure _ n q _ _ => q == queue && n == name
  | _ => false

theorem inc_apply (c : String × String → Nat) (q n : String) :
    Metrics.inc c q n (queue, name) = c (queue, name) + if (q == queue && n == name) then 1 else 0 := by
  unfold Metrics.inc
  by_cases e : (queue, name) = (q, n)
  · obtain ⟨rfl, rfl⟩ := Prod.mk.inj e
    simp
  · rw [Function.update_of_ne e, if_neg, Nat.add_zero]
    intro h
    obtain ⟨h1, h2⟩ := Bool.and_eq_true_iff.mp h
    exact e (by rw [eq_of_beq h1, eq_of_beq h2])

theorem hook_ends (m : Metrics) (e : Event) :
    (m.hook e).succeeded (queue, name) + (m.hook e).failed (queue, name) =
      m.succeeded (queue, name) + m.failed (queue, name) + (if ends queue name e then 1 else 0) := by
  cases e with
  | enqueue id n q => rfl
  | start id n q a => rfl
  | success id n q a d =>
    show Metrics.inc m.succeeded q n (queue, name) + m.failed (queue, name) = _ + if (_ && _) then 1 else 0
    rw [inc_apply]
    omega
  | failure id n q a err =>
    show m.succeeded (queue, name) + Metrics.inc m.failed q n (queue, name) = _ + if (_ && _) then 1 else 0
    rw [inc_apply]
    omega
  | retry id n q a err u => rfl

theorem foldl_hook_ends (log : List Event) (m : Metrics) :
    (log.foldl Metrics.hook m).succeeded (queue, name) + (log.foldl Metrics.hook m).failed (queue, name) =
      m.succeeded (queue, name) + m.failed (queue, name) + log.countP (ends queue name) := by
  induction log generalizing m with
  | nil => rfl
  | cons e log ih =>
    rw [List.foldl_cons, ih (m.hook e), hook_ends, List.countP_cons]
    omega

/-- a duration is observed with every success, and with nothing else -/
theorem hook_durations {m : Metrics} (h : ∀ k, (m.duration k).length = m.succeeded k) (e : Event)
    (k : String × String) : ((m.hook e).duration k).length = (m.hook e).succeeded k := by
  cases e with
  | success id n q a d =>
    show (Function.update m.duration (q, n) (m.duration (q, n) ++ [d]) k).length =
      Function.update m.succeeded (q, n) (m.succeeded (q, n) + 1) k
    by_cases e : k = (q, n)
    · subst e
      rw [Function.update_self, Function.update_self, List.length_append, h]
      rfl
    · rw [Function.update_of_ne e, Function.update_of_ne e, h]
  | _ => exact h k

theorem foldl_hook_durations (log : List Event) {m : Metrics}
    (h : ∀ k, (m.duration k).length = m.succeeded k) (k : String × String) :
    ((log.foldl Metrics.hook m).duration k).length = (log.foldl Metrics.hook m).succeeded k := by
  induction log generalizing m with
  | nil => exact h k
  | cons e log ih => exact ih (hook_durations h e)

end

/-! ## the records -/

/-- every ID was given out once -/
structure Counted (s : Sys) : Prop where
  inv : SysInv s
  nodup : (s.saved.map Job.id).Nodup

section
variable {s t : Sys} {a : Label} {queue name : String}

theorem nodup_saved {j : Job} (C : Counted s) (hf : s.Fresh j.id) (hs : t.saved = s.saved ++ [j]) :
    (t.saved.map Job.id).Nodup := by
  rw [hs, List.map_append]
  refine List.nodup_append.mpr ⟨C.nodup, List.nodup_singleton _, fun x hx y hy e => hf ?_⟩
  rw [← List.mem_singleton.mp hy, ← e]
  exact hx

theorem Counted.step (C : Counted s) (h : step s a = some t) : Counted t := by
  refine ⟨step_inv C.inv h, ?_⟩
  have hsame : t.saved = s.saved → (t.saved.map Job.id).Nodup := fun e => by
    rw [e]
    exact C.nodup
  cases step_move C.inv.ledger h with
  | quiet _ saved => exact hsame saved
  | save j fresh _ _ _ saved => exact nodup_saved C fresh saved
  | edit _ _ _ _ _ _ _ saved => exact hsame saved
  | claim _ _ _ _ _ _ _ _ saved => exact hsame saved
  | start _ _ _ saved => exact hsame saved
  | finish _ _ _ _ _ _ _ _ _ _ _ _ saved => exact hsame saved

theorem stored_same (hs : t.saved = s.saved) (h : ∀ id, (t.store.jobs id).any (Job.under queue name) =
    (s.store.jobs id).any (Job.under queue name)) : t.stored queue name = s.stored queue name := by
  unfold Sys.stored
  rw [hs]
  exact List.countP_congr fun id _ => by rw [h id]

/-- one record of a saved job is written -/
theorem stored_write (queue name : String) (C : Counted s) (hs : t.saved = s.saved) {id : JobID} {j : Job}
    (hj : s.store.jobs id = some j) {r : Option Job}
    (h : t.store.jobs = Function.update s.store.jobs id r) :
    t.stored queue name + (if j.under queue name then 1 else 0) =
      s.stored queue name + (if r.any (Job.under queue name) then 1 else 0) := by
  have hmem : id ∈ s.saved.map Job.id := by
    by_contra hf
    cases hj.symm.trans (C.inv.known id hf)
  have hother : ∀ i, i ≠ id → (t.store.jobs i).any (Job.under queue name) =
      (s.store.jobs i).any (Job.under queue name) := by
    intro i hi
    rw [h, Function.update_of_ne hi]
  have hcount := countP_of_ne C.nodup hmem hother
  rw [hj, h, Function.update_self] at hcount
  unfold Sys.stored
  rw [hs, h]
  exact hcount

theorem stored_save {j : Job} (hf : s.Fresh j.id) (hs : t.saved = s.saved ++ [j])
    (h : t.store.jobs = Function.update s.store.jobs j.id (some j)) :
    t.stored queue name = s.stored queue name + (if j.under queue name then 1 else 0) := by
  unfold Sys.stored
  rw [hs, List.map_append, List.countP_append, h]
  congr 1
  · refine List.countP_congr fun i hi => ?_
    have e : i ≠ j.id := fun e => hf (by rw [← e]; exact hi)
    rw [Function.update_of_ne e]
  · show List.countP _ [j.id] = _
    rw [List.countP_cons, List.countP_nil, Nat.zero_add, Function.update_self]
    rfl

end

/-! ## one move -/

section
variable {s t : Sys} {a : Label} (queue name : String)

/-- what a move adds on both sides -/
def Balances (s : Sys) (a : Label) (t : Sys) : Prop :=
  ∃ evs, t.log = s.log ++ evs ∧
    t.saved.countP (Job.under queue name) + (prematureOf s a).countP (Job.under queue name) +
        s.stored queue name =
      s.saved.countP (Job.under queue name) + evs.countP (ends queue name) +
        (cancelledOf s a).countP (Job.under queue name) + t.stored queue name

variable {queue name}

theorem countP_under (j : Job) :
    [j].countP (Job.under queue name) = if j.under queue name then 1 else 0 := by
  rw [List.countP_cons, List.countP_nil, Nat.zero_add]

/-- a move that ends nothing and keeps what is stored -/
theorem balances_quiet {evs : List Event} (hl : t.log = s.log ++ evs)
    (he : evs.countP (ends queue name) = 0) (hs : t.saved = s.saved) (hp : prematureOf s a = [])
    (hc : cancelledOf s a = []) (h : t.stored queue name = s.stored queue name) :
    Balances queue name s a t := by
  refine ⟨evs, hl, ?_⟩
  rw [he, hs, hp, hc, h]
  rfl

theorem balances_save {j : Job} {evs : List Event} (hl : t.log = s.log ++ evs)
    (he : evs.countP (ends queue name) = 0) (hs : t.saved = s.saved ++ [j])
    (hp : prematureOf s a = []) (hc : cancelledOf s a = []) (v : Inv s.store) (hf : s.Fresh j.id)
    (h : t.store = s.store.save j) : Balances queue name s a t := by
  refine ⟨evs, hl, ?_⟩
  rw [stored_save hf hs (by rw [h]; exact (save_spec v j).2), he, hs, hp, hc, List.countP_append,
    countP_under]
  show _ + 0 + _ = _ + 0 + 0 + _
  omega

theorem balances_cancel (C : Counted s) (id : JobID) :
    Balances queue name s (.cancel id) { s with store := (s.store.cancel id).1 } := by
  cases hj : s.store.jobs id with
  | none =>
    have e := cancel_err_missing hj
    exact balances_quiet (List.append_nil _).symm rfl rfl rfl (cancelledOf_err e) (by rw [e])
  | some j =>
    by_cases hp : j.state = statePending
    · obtain ⟨hok, _, hjobs⟩ := cancel_ok C.inv.ledger.inv hj hp
      have hw := stored_write (t := { s with store := (s.store.cancel id).1 }) queue name C rfl hj hjobs
      refine ⟨[], (List.append_nil _).symm, ?_⟩
      have hone : cancelledOf s (.cancel id) = [j] := by
        show (if (s.store.cancel id).2 = none then (s.store.jobs id).toList else []) = _
        rw [if_pos hok, hj]
        rfl
      rw [hone, countP_under]
      show s.saved.countP _ + 0 + _ = s.saved.countP _ + 0 + _ + _
      rw [show (none : Option Job).any (Job.under queue name) = false from rfl] at hw
      simp only [Bool.false_eq_true, if_false] at hw
      omega
    · have e := cancel_err_state hj hp
      exact balances_quiet (List.append_nil _).symm rfl rfl rfl (cancelledOf_err e) (by rw [e])

/-- one hook about `j` -/
theorem countP_ends {j : Job} {e : Event} (h : ends queue name e = j.under queue name) :
    [e].countP (ends queue name) = if j.under queue name then 1 else 0 := by
  rw [List.countP_cons, List.countP_nil, h, Nat.zero_add]

/-- the record that `Fail` leaves has the queue and the name of the job, if there is one -/
theorem any_afterFail (j : Job) (msg : String) (u : Time) :
    (afterFail j msg u).any (Job.under queue name) = if Exhausted j then false else j.under queue name := by
  unfold afterFail
  split
  · rfl
  · rfl

/-- a reported failure is premature exactly if the store keeps the job -/
theorem failure_ends {j : Job} {e : Event} (h : ends queue name e = j.under queue name) (msg : String)
    (u : Time) :
    (if Exhausted j then [] else [j]).countP (Job.under queue name) +
        (if j.under queue name then 1 else 0) =
      [e].countP (ends queue name) +
        (if (afterFail j msg u).any (Job.under queue name) then 1 else 0) := by
  rw [countP_ends h, any_afterFail]
  by_cases hx : Exhausted j
  · rw [if_pos hx, if_pos hx]
    exact Nat.zero_add _
  · rw [if_neg hx, if_neg hx, countP_under]

/-- the three ways in which an execution with a handler ends, when its store call succeeds -/
theorem finish_ways {sc : Scheduler} {x : Outcome} {st : Mem.Store} {j : Job}
    (hok : (finish sc x j st).result = none) :
    (safeInvoke x.result = none ∧ (finish sc x j st).call = .ack j.id ∧
      ∃ dur, (finish sc x j st).events = [.success j.id j.name j.queue (j.attempt + 1) dur]) ∨
    (safeInvoke x.result ≠ none ∧ maxAttempts j ≤ j.attempt + 1 ∧ ∃ err u,
      (finish sc x j st).call = .fail j.id err u ∧
        (finish sc x j st).events = [.failure j.id j.name j.queue (j.attempt + 1) err]) ∨
    ¬ maxAttempts j ≤ j.attempt + 1 ∧ ∃ err u, (finish sc x j st).call = .fail j.id err u ∧
      (finish sc x j st).events = [.retry j.id j.name j.queue (j.attempt + 1) err u] := by
  unfold finish at *
  cases hr : safeInvoke x.result with
  | none => exact Or.inl ⟨rfl, rfl, _, rfl⟩
  | some err =>
    simp only [hr] at hok
    dsimp only
    by_cases hlast : maxAttempts j ≤ j.attempt + 1
    · rw [if_pos hlast]
      exact Or.inr (Or.inl ⟨by simp, hlast, _, _, rfl, rfl⟩)
    · rw [if_neg hlast] at hok ⊢
      exact Or.inr (Or.inr ⟨hlast, _, _, rfl, if_pos hok⟩)

/-- while the worker counts an attempt that is left, the store does too -/
theorem not_exhausted {j : Job} (h : ¬ maxAttempts j ≤ j.attempt + 1) : ¬ Exhausted j := by
  unfold Exhausted
  unfold maxAttempts at h
  split at h <;> grind

/-- the hooks at the end of an execution, against the record that it leaves -/
theorem finish_ends (queue name : String) {sc : Scheduler} {x : Outcome} {st : Mem.Store}
    {w : Worker} {d : Done} {j : Job} (hd : w.finish sc x st = some d) (hj : w.job = some j)
    (hok : d.result = none) :
    (w.premature x).countP (Job.under queue name) + (if j.under queue name then 1 else 0) =
      d.events.countP (ends queue name) +
        (if (d.call.record j).any (Job.under queue name) then 1 else 0) := by
  cases w with
  | idle => cases hd
  | got k => cases hd
  | missing k =>
    obtain rfl := Option.some.inj hj
    obtain rfl := Option.some.inj hd
    exact failure_ends rfl _ _
  | running k =>
    obtain rfl := Option.some.inj hj
    obtain rfl := Option.some.inj hd
    rcases finish_ways hok with
      ⟨hr, hc, dur, he⟩ | ⟨hr, hlast, err, u, hc, he⟩ | ⟨hlast, err, u, hc, he⟩
    · have hpre : Worker.premature x (.running k) = [] := if_neg fun h => h.1 hr
      rw [hc, he, hpre, countP_ends (j := k) rfl]
      exact (Nat.zero_add _).trans (Nat.add_zero _).symm
    · have hpre : Worker.premature x (.running k) = if Exhausted k then [] else [k] := by
        by_cases hx : Exhausted k
        · rw [if_pos hx]
          exact if_neg fun h => h.2.2 hx
        · rw [if_neg hx]
          exact if_pos ⟨hr, hlast, hx⟩
      rw [hc, he, hpre]
      exact failure_ends rfl _ _
    · have hpre : Worker.premature x (.running k) = [] := if_neg fun h => hlast h.2.1
      rw [hc, he, hpre]
      show _ = 0 + if (afterFail k err u).any (Job.under queue name) then 1 else 0
      rw [any_afterFail, if_neg (not_exhausted hlast)]
      rfl

/-- the records keep their queue and name -/
theorem stored_life (hs : t.saved = s.saved)
    (h : ∀ id, t.store.jobs id = s.store.jobs id ∨ ∃ j k, s.store.jobs id = some j ∧
      t.store.jobs id = some k ∧ k.under queue name = j.under queue name) :
    t.stored queue name = s.stored queue name := by
  refine stored_same hs fun id => ?_
  rcases h id with e | ⟨j, k, hj, hk, e⟩
  · rw [e]
  · rw [hj, hk]
    exact e

theorem balances_reschedule (C : Counted s) (id : JobID) (u : Time) :
    Balances queue name s (.reschedule id u) { s with store := (s.store.reschedule id u).1 } := by
  refine balances_quiet (List.append_nil _).symm rfl rfl rfl rfl (stored_life rfl fun i => ?_)
  cases life_reschedule C.inv.ledger i id u with
  | same record => exact Or.inl record
  | rescheduled j _ _ old _ record => exact Or.inr ⟨j, _, old, record, rfl⟩
  | saved _ label => cases label
  | claimed _ _ _ label => cases label
  | finished _ _ _ _ _ _ label => cases label
  | cancelled _ label => cases label

theorem balances_claim (C : Counted s) {q : String} {now : Time} (h : step s (.claim q now) = some t) :
    Balances queue name s (.claim q now) t := by
  have hstored : t.saved = s.saved → t.stored queue name = s.stored queue name := fun hs =>
    stored_life hs fun i => by
      cases life_claim C.inv.ledger i h with
      | same record => exact Or.inl record
      | claimed j _ _ _ old _ _ _ record => exact Or.inr ⟨j, _, old, record, rfl⟩
      | saved _ label => cases label
      | finished _ _ _ _ _ _ label => cases label
      | cancelled _ label => cases label
      | rescheduled _ _ label => cases label
  cases step_flow h with
  | quiet hcl => exact absurd rfl (hcl q now)
  | claim => exact balances_quiet (List.append_nil _).symm rfl rfl rfl rfl (hstored rfl)

theorem balances_finish (C : Counted s) {q : String} {i : Nat} {x : Outcome} {w : Worker} {d : Done}
    (hw : (s.workers q)[i]? = some w) (hd : w.finish s.sched x s.store = some d) :
    Balances queue name s (.finish q i x)
      { s.setWorker q i .idle with store := d.store, log := s.log ++ d.events } := by
  obtain ⟨j, hj, _⟩ := Worker.finish_spec hd
  have hheld := mem_held_of_worker (List.mem_of_getElem? hw) hj
  obtain ⟨hok, _, hjobs⟩ := finish_jobs C.inv.ledger hheld hd hj
  have hold := ((C.inv.ledger.mem q j).mp hheld).1
  have hwrite := stored_write
    (t := { s.setWorker q i .idle with store := d.store, log := s.log ++ d.events })
    queue name C rfl hold hjobs
  have hends := finish_ends queue name hd hj hok
  refine ⟨d.events, rfl, ?_⟩
  rw [prematureOf_finish x hw]
  show s.saved.countP _ + _ + _ = s.saved.countP _ + _ + 0 + _
  omega

/-- **A move adds as much on one side as on the other.** -/
theorem step_balances (queue name : String) (C : Counted s) (h : step s a = some t) :
    Balances queue name s a t := by
  have v := C.inv.ledger.inv
  cases a with
  | register n =>
    obtain rfl := Option.some.inj h
    exact balances_quiet (List.append_nil _).symm rfl rfl rfl rfl rfl
  | save j =>
    obtain ⟨⟨_, hf⟩, h⟩ := Option.ite_none_right_eq_some.mp h
    obtain rfl := Option.some.inj h
    exact balances_save (List.append_nil _).symm rfl rfl rfl rfl v hf rfl
  | schedule now u uuid n payload opts =>
    obtain ⟨hf, h⟩ := Option.ite_none_right_eq_some.mp h
    split at h
    · obtain rfl := Option.some.inj h
      exact balances_quiet (List.append_nil _).symm rfl rfl rfl rfl rfl
    · rename_i e
      obtain rfl := Option.some.inj h
      obtain ⟨hstore, _, _, _, hev⟩ := at_ok e
      dsimp only at hev
      subst hev
      obtain ⟨hid, _⟩ := Scheduler.atJob_kept now u uuid n payload opts
      exact balances_save rfl rfl rfl rfl rfl v (hid.symm ▸ hf) hstore
  | fire spec uuid now fireAt =>
    obtain ⟨hf, h⟩ := Option.ite_none_right_eq_some.mp h
    obtain rfl := Option.some.inj h
    exact balances_save (List.append_nil _).symm rfl rfl rfl rfl v hf rfl
  | cancel id =>
    obtain rfl := Option.some.inj h
    exact balances_cancel C id
  | reschedule id u =>
    obtain rfl := Option.some.inj h
    exact balances_reschedule C id u
  | claim q now => exact balances_claim C h
  | send q =>
    simp only [step] at h
    split at h
    · obtain ⟨_, h⟩ := Option.ite_none_right_eq_some.mp h
      obtain rfl := Option.some.inj h
      exact balances_quiet (List.append_nil _).symm rfl rfl rfl rfl rfl
    · cases h
  | receive q i =>
    simp only [step] at h
    split at h
    · obtain rfl := Option.some.inj h
      exact balances_quiet (List.append_nil _).symm rfl rfl rfl rfl rfl
    · cases h
  | lookup q i =>
    simp only [step] at h
    split at h
    · split at h
      · obtain rfl := Option.some.inj h
        exact balances_quiet rfl rfl rfl rfl rfl rfl
      · obtain rfl := Option.some.inj h
        exact balances_quiet (List.append_nil _).symm rfl rfl rfl rfl rfl
    · cases h
  | finish q i x =>
    cases step_flow h with
    | quiet _ _ hfi => exact absurd rfl (hfi q i x)
    | finish hw hd => exact balances_finish C hw hd

/-- an agreeing execution reports no failure too early -/
theorem agreeing_not_premature {x : Outcome} {w : Worker} (h : Agreeing x w) : w.premature x = [] := by
  cases w with
  | idle => rfl
  | got j => rfl
  | missing j => exact if_pos h
  | running j =>
    refine if_neg fun ⟨herr, hlast, hx⟩ => ?_
    rcases h with h | h | h
    · exact herr h
    · refine hx ⟨h, ?_⟩
      unfold maxAttempts at hlast
      split at hlast <;> grind
    · refine hx ?_
      unfold maxAttempts at hlast
      unfold Exhausted
      split at hlast <;> grind

end

/-! ## whole runs -/

section
variable {sc : Scheduler} {l : List Label} {t : Sys}

theorem run_counted (h : run step (Sys.init sc) l = some t) : Counted t :=
  run_keep (P := Counted) (fun _ _ _ C h => C.step h) ⟨init_inv sc, List.nodup_nil⟩ h

theorem run_balances (h : run step (Sys.init sc) l = some t) (queue name : String) :
    t.saved.countP (Job.under queue name) +
        (outputs step prematureOf (Sys.init sc) l).countP (Job.under queue name) =
      t.log.countP (ends queue name) +
        (outputs step cancelledOf (Sys.init sc) l).countP (Job.under queue name) +
        t.stored queue name := by
  refine run_induct (P := fun l u => u.saved.countP (Job.under queue name) +
      (outputs step prematureOf (Sys.init sc) l).countP (Job.under queue name) =
    u.log.countP (ends queue name) +
      (outputs step cancelledOf (Sys.init sc) l).countP (Job.under queue name) +
      u.stored queue name) rfl ?_ h
  intro l s a u hs ih hu
  obtain ⟨evs, hev, hbal⟩ := step_balances queue name (run_counted hs) hu
  rw [outputs_snoc _ a hs, outputs_snoc _ a hs, hev, List.countP_append, List.countP_append,
    List.countP_append]
  omega

theorem run_not_premature (h : run step (Sys.init sc) l = some t)
    (hm : Meets step StepAgrees (Sys.init sc) l) : outputs step prematureOf (Sys.init sc) l = [] := by
  refine run_induct (P := fun l u => Meets step StepAgrees (Sys.init sc) l →
    outputs step prematureOf (Sys.init sc) l = []) (fun _ => rfl) ?_ h hm
  intro l s a u hs ih hu hm
  obtain ⟨h1, h2⟩ := hm.append hs
  rw [outputs_snoc _ a hs, ih h1, List.nil_append]
  cases a with
  | finish q i x =>
    cases hw : (s.workers q)[i]? with
    | none =>
      show ((s.workers q)[i]?.map (Worker.premature x)).getD [] = []
      rw [hw]
      rfl
    | some w =>
      rw [prematureOf_finish x hw]
      exact agreeing_not_premature (h2.1 w hw)
  | _ => rfl

end

/-! ## the hook comes after the store call -/

/-- the worker that makes a move -/
def Label.worker : Label → Option (String × Nat)
  | .receive q i => some (q, i)
  | .lookup q i => some (q, i)
  | .finish q i _ => some (q, i)
  | _ => none

/-- `due` are the hooks that have not been called although their store call (for `OnStart` the lookup) has
returned, each with the worker that is about to; the hook of `At` is left to its caller -/
structure Hooked where
  sys : Sys
  due : List (Option (String × Nat) × Event)
  fired : List Event

namespace Hooked

inductive Turn where
  | move (a : Label)
  | hook (k : Nat)

def Turn.moves : Turn → List Label
  | .move a => [a]
  | .hook _ => []

def init (sc : Scheduler) : Hooked := ⟨Sys.init sc, [], []⟩

def metrics (s : Hooked) : Metrics := s.fired.foldl Metrics.hook .newMetrics

/-- the move is one of a worker that has to call a hook first -/
def busy (s : Hooked) (a : Label) : Bool := a.worker.any fun w => s.due.any fun p => p.1 == some w

def step (s : Hooked) : Turn → Option Hooked
  | .move a =>
    if s.busy a then none
    else (GS.step s.sys a).map fun t =>
      { s with
        sys := t
        due := s.due ++ (t.log.drop s.sys.log.length).map fun e => (a.worker, e) }
  | .hook k => s.due[k]?.map fun p => { s with due := s.due.eraseIdx k, fired := s.fired ++ [p.2] }

section
variable {sc : Scheduler} {l : List Turn} {s t : Hooked}

theorem run_moves (h : run step (init sc) l = some t) :
    run GS.step (Sys.init sc) (l.flatMap Turn.moves) = some t.sys := by
  refine run_flatMap (f := sys) (fun s a t h => ?_) h
  cases a with
  | move a =>
    obtain ⟨_, h⟩ := Option.ite_none_left_eq_some.mp h
    obtain ⟨u, hu, rfl⟩ := Option.map_eq_some_iff.mp h
    exact run_cons.mpr ⟨u, hu, rfl⟩
  | hook k =>
    obtain ⟨p, _, rfl⟩ := Option.map_eq_some_iff.mp h
    rfl

/-- every hook of the log has been called or is due -/
def Logged (s : Hooked) : Prop := (s.due.map Prod.snd ++ s.fired).Perm s.sys.log

theorem Logged.step {a : Turn} (L : Logged s) (C : Counted s.sys) (h : step s a = some t) : Logged t := by
  unfold Logged at *
  cases a with
  | move a =>
    obtain ⟨_, h⟩ := Option.ite_none_left_eq_some.mp h
    obtain ⟨u, hu, rfl⟩ := Option.map_eq_some_iff.mp h
    obtain ⟨evs, hlog, _⟩ := step_balances "" "" C hu
    dsimp only
    rw [hlog, List.drop_left, List.map_append, List.map_map, List.append_assoc]
    show (s.due.map Prod.snd ++ (evs.map id ++ s.fired)).Perm _
    rw [List.map_id]
    calc s.due.map Prod.snd ++ (evs ++ s.fired)
      _ ~ s.due.map Prod.snd ++ (s.fired ++ evs) := List.perm_append_comm.append_left _
      _ = s.due.map Prod.snd ++ s.fired ++ evs := (List.append_assoc ..).symm
      _ ~ s.sys.log ++ evs := L.append_right evs
  | hook k =>
    obtain ⟨p, hp, rfl⟩ := Option.map_eq_some_iff.mp h
    obtain ⟨hk, rfl⟩ := List.getElem?_eq_some_iff.mp hp
    have hdue := (List.getElem_cons_eraseIdx_perm hk).map Prod.snd
    calc (s.due.eraseIdx k).map Prod.snd ++ (s.fired ++ [s.due[k].2])
      _ = (s.due.eraseIdx k).map Prod.snd ++ s.fired ++ [s.due[k].2] := (List.append_assoc ..).symm
      _ ~ (s.due[k].2 :: (s.due.eraseIdx k).map Prod.snd) ++ s.fired := List.perm_append_singleton _ _
      _ ~ s.due.map Prod.snd ++ s.fired := hdue.append_right _
      _ ~ s.sys.log := L

theorem run_logged (h : run step (init sc) l = some t) : Logged t := by
  have hinit : Logged (init sc) := List.Perm.refl []
  refine run_induct (P := fun _ u => Logged u) hinit ?_ h
  intro l s a u hs L hu
  exact L.step (run_counted (run_moves hs)) hu

/-- **The counters balance**: the saved jobs, and the failures that are reported too early, are the
successes, the failures, those about to be reported, the cancelled and the stored jobs. -/
theorem totals_balanced (sc : Scheduler) (l : List Turn) (t : Hooked)
    (h : run step (init sc) l = some t) (queue name : String) :
    t.sys.saved.countP (Job.under queue name) +
        (outputs GS.step prematureOf (Sys.init sc) (l.flatMap Turn.moves)).countP
          (Job.under queue name) =
      t.metrics.succeeded (queue, name) + t.metrics.failed (queue, name) +
        (t.due.map Prod.snd).countP (ends queue name) +
        (outputs GS.step cancelledOf (Sys.init sc) (l.flatMap Turn.moves)).countP
          (Job.under queue name) +
        t.sys.stored queue name ∧
    (t.metrics.duration (queue, name)).length = t.metrics.succeeded (queue, name) ∧
    (Meets GS.step StepAgrees (Sys.init sc) (l.flatMap Turn.moves) →
      outputs GS.step prematureOf (Sys.init sc) (l.flatMap Turn.moves) = []) := by
  refine ⟨?_, foldl_hook_durations t.fired (fun _ => rfl) _, run_not_premature (run_moves h)⟩
  have hbal := run_balances (run_moves h) queue name
  have hfired : t.metrics.succeeded (queue, name) + t.metrics.failed (queue, name) =
      t.fired.countP (ends queue name) :=
    (foldl_hook_ends queue name t.fired .newMetrics).trans (Nat.zero_add _)
  have hlog := (run_logged h).countP_eq (ends queue name)
  rw [List.countP_append] at hlog
  omega

/-- every hook is called at once -/
def withHook : Label → List Turn
  | a@(.schedule ..) => [.move a, .hook 0]
  | a@(.lookup ..) => [.move a, .hook 0]
  | a@(.finish ..) => [.move a, .hook 0]
  | a => [.move a]

/-- a job without a limit, before the hook of its fourth attempt: one failure is counted, one is about
to be, and the job is still there -/
theorem totals_balanced_unlimited : ∃ t,
    run step (init oneHandler) (unlimited.flatMap withHook).dropLast = some t ∧
    t.sys.saved.countP (Job.under "default" "job") +
        (outputs GS.step prematureOf (Sys.init oneHandler) unlimited).countP
          (Job.under "default" "job") =
      t.metrics.succeeded ("default", "job") + t.metrics.failed ("default", "job") +
        (t.due.map Prod.snd).countP (ends "default" "job") +
        (outputs GS.step cancelledOf (Sys.init oneHandler) unlimited).countP
          (Job.under "default" "job") +
        t.sys.stored "default" "job" ∧
    t.metrics.failed ("default", "job") = 1 ∧ t.due.length = 1 ∧ t.sys.stored "default" "job" = 1 := by
  have hsome : ((run step (init oneHandler) (unlimited.flatMap withHook).dropLast).map fun t =>
      (t.metrics.failed ("default", "job"), t.due.length, t.sys.stored "default" "job")) =
        some (1, 1, 1) := by decide +kernel
  obtain ⟨t, ht, e⟩ := Option.map_eq_some_iff.mp hsome
  obtain ⟨e1, e2⟩ := Prod.mk.inj e
  obtain ⟨e2, e3⟩ := Prod.mk.inj e2
  exact ⟨t, ht, (totals_balanced oneHandler _ t ht "default" "job").1, e1, e2, e3⟩

end
end Hooked
end GS
