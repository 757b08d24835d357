import GoSchedule.Scheduler.Conserve
import GoSchedule.Scheduler.Flow

/-!
# The life of one job

What a move of a running scheduler does to the record of one ID.  A record is saved once, pending; a
claim and the end of the execution take turns, and while it is pending it can be cancelled or moved.

* `Label.job`      the job that a call saves, if it accepts it;
* `Life s a t id`  the six ways in which the record of `id` can go on;
* `step_life`      every step is one of them, for every ID;
* `mem_batch`      a job of a new batch was a pending record, and due.
-/

namespace GS
open Mem

def Label.job : Label → Option Job
  | .save j => some j
  | .schedule now t uuid name payload opts => some (Scheduler.atJob now t uuid name payload opts)
  | .fire spec uuid now fireAt => some (Recurring.fireJob spec uuid now fireAt)
  | _ => none

/-- the record as a claim of the scheduler's own dispatcher leaves it -/
def Scheduler.claimed (sc : Scheduler) (now : Time) (j : Job) : Job :=
  Store.markClaimed now sc.workerID (now.add sc.visibilityTimeout) j

inductive Life (s : Sys) (a : Label) (t : Sys) (id : JobID) : Prop
  | same (record : t.store.jobs id = s.store.jobs id)
  | saved (j : Job) (label : a.job = some j) (hid : j.id = id) (fresh : s.Fresh id)
      (pending : j.state = statePending) (record : t.store.jobs id = some j)
  | claimed (j : Job) (q : String) (now : Time) (label : a = .claim q now)
      (old : s.store.jobs id = some j) (pending : j.state = statePending) (queue : j.queue = q)
      (due : j.runAt ≤ now) (record : t.store.jobs id = some (s.sched.claimed now j))
      (batch : s.sched.claimed now j ∈ t.batch q)
  | finished (j : Job) (q : String) (i : Nat) (x : Outcome) (w : Worker) (d : Done)
      (label : a = .finish q i x) (slot : (s.workers q)[i]? = some w) (job : w.job = some j)
      (call : w.finish s.sched x s.store = some d) (old : s.store.jobs id = some j)
      (claimed : j.state = stateClaimed) (record : t.store.jobs id = d.call.record j)
  | cancelled (j : Job) (label : a = .cancel id) (old : s.store.jobs id = some j)
      (pending : j.state = statePending) (record : t.store.jobs id = none)
  | rescheduled (j : Job) (u : Time) (label : a = .reschedule id u) (old : s.store.jobs id = some j)
      (pending : j.state = statePending) (record : t.store.jobs id = some { j with runAt := u })

section
variable {s t : Sys} {a : Label} {id : JobID}

theorem life_of_store (h : t.store = s.store) : Life s a t id := .same (by rw [h])

section
variable (l : Ledger s.store s.held)
include l

theorem life_save {j : Job} (label : a.job = some j) (hf : s.Fresh j.id)
    (hp : j.state = statePending) (h : t.store = s.store.save j) : Life s a t id := by
  have hjobs := (save_spec l.inv j).2
  by_cases e : id = j.id
  · subst e
    exact .saved j label rfl hf hp (by rw [h, hjobs, Function.update_self])
  · exact .same (by rw [h, hjobs, Function.update_of_ne e])

theorem life_cancel (id i : JobID) :
    Life s (.cancel i) { s with store := (s.store.cancel i).1 } id := by
  cases hj : s.store.jobs i with
  | none => exact life_of_store (by rw [cancel_err_missing hj])
  | some j =>
    by_cases hp : j.state = statePending
    · obtain ⟨_, _, hjobs⟩ := cancel_ok l.inv hj hp
      by_cases e : id = i
      · subst e
        exact .cancelled j rfl hj hp ((congrFun hjobs id).trans (Function.update_self ..))
      · exact .same ((congrFun hjobs id).trans (Function.update_of_ne e ..))
    · exact life_of_store (by rw [cancel_err_state hj hp])

theorem life_reschedule (id i : JobID) (u : Time) :
    Life s (.reschedule i u) { s with store := (s.store.reschedule i u).1 } id := by
  cases hj : s.store.jobs i with
  | none => exact life_of_store (by rw [reschedule_err_missing hj])
  | some j =>
    by_cases hp : j.state = statePending
    · obtain ⟨_, _, hjobs⟩ := reschedule_ok l.inv hj hp u
      by_cases e : id = i
      · subst e
        exact .rescheduled j u rfl hj hp ((congrFun hjobs id).trans (Function.update_self ..))
      · exact .same ((congrFun hjobs id).trans (Function.update_of_ne e ..))
    · exact life_of_store (by rw [reschedule_err_state hj hp])

/-- a claim by the dispatcher, as a batch of records -/
theorem claim_batch {q : String} {now : Time} (h : step s (.claim q now) = some t) :
    ∃ c L, Batch s.store.jobs q now c s.sched.workerID (now.add s.sched.visibilityTimeout) L
      t.store.jobs ∧ t.batch q = L.map (s.sched.claimed now) := by
  cases step_flow h with
  | quiet hcl => exact absurd rfl (hcl q now)
  | @claim _ _ c r _ _ call =>
    obtain ⟨st, L, e, _, B, _⟩ := claimDue_spec l.inv q now (Int.natCast_nonneg c) s.sched.workerID
      (now.add s.sched.visibilityTimeout)
    rw [call] at e
    obtain rfl := Option.some.inj e
    exact ⟨c, L, B, Function.update_self ..⟩

theorem life_claim (id : JobID) {q : String} {now : Time} (h : step s (.claim q now) = some t) :
    Life s (.claim q now) t id := by
  obtain ⟨c, L, B, hb⟩ := claim_batch l h
  by_cases hL : ∃ j ∈ L, j.id = id
  · obtain ⟨j, hj, rfl⟩ := hL
    obtain ⟨h1, h2, h3, h4⟩ := B.mem j hj
    exact .claimed j q now rfl h1 h2 h3 h4 (B.eq_in j hj) (hb ▸ List.mem_map_of_mem hj)
  · exact .same (B.eq_out id fun j hj e => hL ⟨j, hj, e⟩)

/-- **A job of a new batch was a pending record, and due.** -/
theorem mem_batch {q : String} {now : Time} (h : step s (.claim q now) = some t) {k : Job}
    (hk : k ∈ t.batch q) : ∃ j, s.store.jobs k.id = some j ∧ j.state = statePending ∧
      j.queue = q ∧ j.runAt ≤ now ∧ k = s.sched.claimed now j := by
  obtain ⟨c, L, B, hb⟩ := claim_batch l h
  rw [hb] at hk
  obtain ⟨j, hj, rfl⟩ := List.mem_map.mp hk
  obtain ⟨h1, h2, h3, h4⟩ := B.mem j hj
  exact ⟨j, h1, h2, h3, h4, rfl⟩

theorem life_finish {q : String} {i : Nat} {x : Outcome} {w : Worker} {d : Done}
    (hw : (s.workers q)[i]? = some w) (hd : w.finish s.sched x s.store = some d)
    (ht : t.store = d.store) : Life s (.finish q i x) t id := by
  obtain ⟨j, hj, _⟩ := Worker.finish_spec hd
  have hheld := mem_held_of_worker (List.mem_of_getElem? hw) hj
  obtain ⟨_, _, jobs⟩ := finish_jobs l hheld hd hj
  obtain ⟨h1, h2, _⟩ := (l.mem q j).mp hheld
  rw [← ht] at jobs
  by_cases e : id = j.id
  · subst e
    exact .finished j q i x w d rfl hw hj hd h1 h2 (by rw [jobs, Function.update_self])
  · exact .same (by rw [jobs, Function.update_of_ne e])

/-- **Every step is one of these, for every ID.** -/
theorem step_life (h : step s a = some t) (id : JobID) : Life s a t id := by
  cases a with
  | register name =>
    obtain rfl := Option.some.inj h
    exact life_of_store rfl
  | save j =>
    obtain ⟨⟨hp, hf⟩, h⟩ := Option.ite_none_right_eq_some.mp h
    obtain rfl := Option.some.inj h
    exact life_save l rfl hf hp rfl
  | schedule now u uuid name payload opts =>
    obtain ⟨hf, h⟩ := Option.ite_none_right_eq_some.mp h
    obtain ⟨hid, _, _, _, hp⟩ := Scheduler.atJob_kept now u uuid name payload opts
    split at h
    · obtain rfl := Option.some.inj h
      exact life_of_store rfl
    · rename_i e
      obtain rfl := Option.some.inj h
      exact life_save l rfl (hid.symm ▸ hf) hp (at_ok e).1
  | fire spec uuid now fireAt =>
    obtain ⟨hf, h⟩ := Option.ite_none_right_eq_some.mp h
    obtain rfl := Option.some.inj h
    exact life_save l rfl hf rfl rfl
  | cancel i =>
    obtain rfl := Option.some.inj h
    exact life_cancel l id i
  | reschedule i u =>
    obtain rfl := Option.some.inj h
    exact life_reschedule l id i u
  | claim q now => exact life_claim l id h
  | send q =>
    simp only [step] at h
    split at h
    · obtain ⟨_, h⟩ := Option.ite_none_right_eq_some.mp h
      obtain rfl := Option.some.inj h
      exact life_of_store rfl
    · cases h
  | receive q i =>
    cases step_flow h with
    | quiet _ hre => exact absurd rfl (hre q i)
    | receive => exact life_of_store rfl
  | lookup q i =>
    simp only [step] at h
    split at h
    · split at h
      · obtain rfl := Option.some.inj h
        exact life_of_store rfl
      · obtain rfl := Option.some.inj h
        exact life_of_store rfl
    · cases h
  | finish q i x =>
    cases step_flow h with
    | quiet _ _ hfi => exact absurd rfl (hfi q i x)
    | finish hw hd => exact life_finish l hw hd rfl

end
end
end GS
