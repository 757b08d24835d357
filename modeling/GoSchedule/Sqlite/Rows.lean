import GoSchedule.Lib.MapOn
import GoSchedule.Sqlite.Basic

/-!
# The operations of the SQLite store, row by row

The table of jobs is read through `lookup`, the row of an ID.  For every operation: what it returns and
what the lookups are after it, for a job that is there in the right state and for one that is not.

* `save_fresh`, `claimRows_lookup`, `recover_lookup`;
* `ack_claimed`, `ack_refused`;  `fail_claimed`, `fail_refused`;
* `cancel_pending`, `cancel_missing`, `cancel_refused`;  the same for `reschedule`.
-/

namespace GS.Sqlite
open MapOn

/-- the row after a failed attempt, if it was not the last -/
def failRow (errMsg : String) (nextAttemptAt now : Int64) (r : Row) : Option Row :=
  if 0 < r.maxAttempts ∧ r.maxAttempts ≤ r.attempt + 1 then none
  else some (retryRow errMsg nextAttemptAt now r)

namespace Db

section
variable {db : Db} {id : JobID}

theorem save_fresh {j : Job} (h : db.jobs.lookup j.id = none) :
    (db.save j).jobs.lookup = Function.update db.jobs.lookup j.id (some (rowOf j)) := by
  funext i
  refine (Keyed.lookup_upsert ..).trans ?_
  rw [show (rowOf j).id = j.id from rfl]
  by_cases hi : i = j.id
  · subst hi
    rw [Function.update_self, if_pos rfl, h]
    rfl
  · rw [Function.update_of_ne hi, if_neg hi]

theorem claimRows_lookup (ids : List JobID) (w : String) (lu now : Int64) :
    (db.claimRows ids w lu now).jobs.lookup = mapOn db.jobs.lookup (claimRow w lu now) ids := by
  funext i
  refine (Keyed.lookup_update _ _ (claimRow w lu now) (fun _ => rfl) i).trans ?_
  rw [mapOn]
  cases hl : db.jobs.lookup i with
  | none => simp
  | some r =>
    rw [Option.map_some, Keyed.lookup_key hl]
    by_cases hi : i ∈ ids
    · simp [hi]
    · simp [hi]

/-- the statement releases the rows of `ids`, if these are the rows that it finds expired -/
theorem recover_lookup {expired : Int64 → Bool} {ids : List JobID}
    (hids : ∀ i, i ∈ ids ↔ ∃ r, db.jobs.lookup i = some r ∧ r.state = stateClaimed ∧
      expired r.lockedUntil) (now : Int64) :
    (db.recover expired now).1.jobs.lookup = mapOn db.jobs.lookup (releaseRow now) ids := by
  funext i
  refine (Keyed.lookup_update _ _ (releaseRow now) (fun _ => rfl) i).trans ?_
  rw [mapOn]
  cases hl : db.jobs.lookup i with
  | none => simp
  | some r =>
    have hi : i ∈ ids ↔ r.state = stateClaimed ∧ expired r.lockedUntil := by
      rw [hids i, hl]
      simp
    rw [Option.map_some]
    by_cases hr : r.state = stateClaimed ∧ expired r.lockedUntil
    · simp [hi, hr]
    · rw [if_neg (mt hi.mp hr), if_neg]
      rw [Bool.and_eq_true, decide_eq_true_eq]
      exact hr

theorem deleteJob_lookup {r : Row} (h : db.jobs.lookup id = some r) :
    (db.deleteJob id).jobs.lookup = Function.update db.jobs.lookup id none :=
  Keyed.lookup_delete_key h (fun _ hy => of_decide_eq_true hy)
    (decide_eq_true (Keyed.lookup_key h))

/-! ## Ack -/

theorem ack_claimed {r : Row} (h : db.jobs.lookup id = some r) (hs : r.state = stateClaimed) :
    (db.ack id).2 = none ∧
      (db.ack id).1.jobs.lookup = Function.update db.jobs.lookup id none := by
  have hhit : decide (r.id = id ∧ r.state = stateClaimed) = true :=
    decide_eq_true ⟨Keyed.lookup_key h, hs⟩
  have hcount : ¬ db.jobs.count (fun r => decide (r.id = id ∧ r.state = stateClaimed)) = 0 :=
    fun h0 => Keyed.count_eq_zero.mp h0 r (Keyed.mem_of_lookup h) hhit
  unfold ack
  rw [if_neg hcount]
  exact ⟨rfl, Keyed.lookup_delete_key h (fun _ hy => (of_decide_eq_true hy).1) hhit⟩

theorem ack_refused (h : ∀ r, db.jobs.lookup id = some r → r.state ≠ stateClaimed) :
    db.ack id = (db, some .jobNotFound) := by
  refine if_pos (Keyed.count_eq_zero.mpr fun r hr hhit => ?_)
  obtain ⟨rfl, hs⟩ := of_decide_eq_true hhit
  exact h r (Keyed.lookup_of_mem hr) hs

/-! ## Fail -/

theorem fail_claimed {r : Row} (h : db.jobs.lookup id = some r) (hs : r.state = stateClaimed)
    (msg : String) (t now : Time) : (db.fail id msg t now).2 = none ∧
      (db.fail id msg t now).1.jobs.lookup =
        Function.update db.jobs.lookup id (failRow msg (toUnixNano t) (toUnixNano now) r) := by
  unfold fail failRow
  rw [h]
  dsimp only
  rw [if_neg (not_not.mpr hs)]
  split
  · exact ⟨rfl, deleteJob_lookup h⟩
  · exact ⟨rfl, Keyed.lookup_update_key h (retryRow msg (toUnixNano t) (toUnixNano now))
      (fun _ => rfl) (fun _ hy => (of_decide_eq_true hy).1)
      (decide_eq_true ⟨Keyed.lookup_key h, hs⟩)⟩

theorem fail_refused (h : ∀ r, db.jobs.lookup id = some r → r.state ≠ stateClaimed) (msg : String)
    (t now : Time) : db.fail id msg t now = (db, some .jobNotFound) := by
  unfold fail
  cases hl : db.jobs.lookup id with
  | none => rfl
  | some r => exact if_pos (h r hl)

/-! ## Cancel and Reschedule -/

theorem cancel_pending {r : Row} (h : db.jobs.lookup id = some r) (hs : r.state = statePending) :
    (db.cancel id).2 = none ∧
      (db.cancel id).1.jobs.lookup = Function.update db.jobs.lookup id none := by
  unfold cancel
  rw [h]
  dsimp only
  rw [if_neg (not_not.mpr hs)]
  exact ⟨rfl, deleteJob_lookup h⟩

theorem cancel_missing (h : db.jobs.lookup id = none) :
    db.cancel id = (db, some .jobNotFound) := by
  unfold cancel
  rw [h]

theorem cancel_refused {r : Row} (h : db.jobs.lookup id = some r) (hs : r.state ≠ statePending) :
    db.cancel id = (db, some .jobNotPending) := by
  unfold cancel
  rw [h]
  exact if_pos hs

theorem reschedule_pending {r : Row} (h : db.jobs.lookup id = some r)
    (hs : r.state = statePending) (t now : Time) : (db.reschedule id t now).2 = none ∧
      (db.reschedule id t now).1.jobs.lookup = Function.update db.jobs.lookup id
        (some { r with runAt := toUnixNano t, updatedAt := toUnixNano now }) := by
  unfold reschedule
  rw [h]
  dsimp only
  rw [if_neg (not_not.mpr hs)]
  exact ⟨rfl, Keyed.lookup_update_key h
    (fun r => { r with runAt := toUnixNano t, updatedAt := toUnixNano now }) (fun _ => rfl)
    (fun _ hy => of_decide_eq_true hy) (decide_eq_true (Keyed.lookup_key h))⟩

theorem reschedule_missing (h : db.jobs.lookup id = none) (t now : Time) :
    db.reschedule id t now = (db, some .jobNotFound) := by
  unfold reschedule
  rw [h]

theorem reschedule_refused {r : Row} (h : db.jobs.lookup id = some r) (hs : r.state ≠ statePending)
    (t now : Time) : db.reschedule id t now = (db, some .jobNotPending) := by
  unfold reschedule
  rw [h]
  exact if_pos hs

end
end Db
end GS.Sqlite
