import GoSchedule.Attempts.Sheet
import GoSchedule.Sqlite.Rows

/-!
# The attempts of a job in the SQLite store

* `Op`, `call`   the operations on jobs, and the jobs that each returns;
* `claims id`, `recoveries id`   whether a call returns the job, and whether it takes it back from a
  claim that has run out;
* `call_move`    a call is a move of the job's sheet;
* `claims_le_max`   the bound.
-/

namespace GS.Sqlite
open Attempts MapOn Trans

inductive Op where
  | save (j : Job)
  | claimDue (queue : String) (now : Time) (n : Int) (workerID : String) (lockUntil : Time)
  | ack (id : JobID)
  | fail (id : JobID) (errMsg : String) (nextAttemptAt now : Time)
  | cancel (id : JobID)
  | reschedule (id : JobID) (newTime now : Time)
  | recoverStale (now : Time)
deriving DecidableEq, Repr

/-- the tables after a call, and the jobs that it returns -/
def call (db : Db) : Op → Db × List Job
  | .save j => (db.save j, [])
  | .claimDue queue now n workerID lockUntil => db.claimDue queue now n workerID lockUntil
  | .ack id => ((db.ack id).1, [])
  | .fail id errMsg nextAttemptAt now => ((db.fail id errMsg nextAttemptAt now).1, [])
  | .cancel id => ((db.cancel id).1, [])
  | .reschedule id newTime now => ((db.reschedule id newTime now).1, [])
  | .recoverStale now => ((db.recoverStale now).1, [])

def step (db : Db) (o : Op) : Option Db := some (call db o).1

/-- a claim that `recoverStaleSQL` finds expired -/
def Stale (now : Time) (r : Row) : Prop :=
  r.state = stateClaimed ∧ 0 < r.lockedUntil ∧ r.lockedUntil < toUnixNano now

instance (now : Time) : DecidablePred (Stale now) := fun _ => inferInstanceAs (Decidable (_ ∧ _))

def claims (id : JobID) (db : Db) (o : Op) : Nat := ((call db o).2.map Job.id).count id

def recoveries (id : JobID) (db : Db) : Op → Nat
  | .recoverStale now => if ∃ r ∈ db.jobs.lookup id, Stale now r then 1 else 0
  | _ => 0

/-- a call that does not save the job -/
def Keeps (id : JobID) : Op → Prop
  | .save j => j.id ≠ id
  | _ => True

instance (id : JobID) : DecidablePred (Keeps id)
  | .save _ => inferInstanceAs (Decidable (_ ≠ _))
  | .claimDue .. | .ack _ | .fail .. | .cancel _ | .reschedule .. | .recoverStale _ => isTrue trivial

def sheet (r : Row) : Sheet := ⟨r.state, r.attempt.toInt, r.maxAttempts.toInt⟩

def sheetOf (db : Db) (id : JobID) : Option Sheet := (db.jobs.lookup id).map sheet

/-! ## the operations -/

section
variable {db : Db} {id : JobID}

theorem sheetOf_of_eq {db' : Db} (h : db'.jobs.lookup id = db.jobs.lookup id) :
    Attempts.Move (sheetOf db id) 0 0 (sheetOf db' id) := by
  unfold sheetOf
  rw [h]
  exact .same _

/-- a call that writes the row of one job, and of no other -/
theorem sheetOf_update {db' : Db} {i : JobID} {o : Option Row}
    (h : db'.jobs.lookup = Function.update db.jobs.lookup i o)
    (ho : i = id → Attempts.Move (sheetOf db id) 0 0 (o.map sheet)) :
    Attempts.Move (sheetOf db id) 0 0 (sheetOf db' id) := by
  by_cases e : id = i
  · subst e
    have hm := ho rfl
    unfold sheetOf
    rw [h, Function.update_self]
    exact hm
  · refine sheetOf_of_eq ?_
    rw [h, Function.update_of_ne e]

theorem mem_claimSelect {q : String} {now : Int64} {n : Int} {r : Row}
    (h : r ∈ db.claimSelect q now n) : db.jobs.lookup r.id = some r ∧ isDue q now r = true := by
  have hdue : r ∈ (db.jobs.rows.filter (isDue q now)).insertionSort RowLE := by
    unfold Db.claimSelect at h
    dsimp only at h
    split at h
    · exact h
    · exact List.mem_of_mem_take h
  obtain ⟨hr, hd⟩ := List.mem_filter.mp ((List.mem_insertionSort RowLE).mp hdue)
  exact ⟨Keyed.lookup_of_mem hr, hd⟩

theorem nodup_claimSelect (db : Db) (q : String) (now : Int64) (n : Int) :
    ((db.claimSelect q now n).map Row.id).Nodup := by
  have hnd : (((db.jobs.rows.filter (isDue q now)).insertionSort RowLE).map Row.id).Nodup :=
    ((List.perm_insertionSort RowLE _).map Row.id).nodup_iff.mpr
      (db.jobs.nodup.sublist (List.filter_sublist.map Row.id))
  unfold Db.claimSelect
  dsimp only
  split
  · exact hnd
  · rw [List.map_take]
    exact hnd.sublist (List.take_sublist _ _)

theorem claimDue_move (q : String) (now : Time) (n : Int) (w : String) (lu : Time) :
    Attempts.Move (sheetOf db id) (claims id db (.claimDue q now n w lu)) 0
      (sheetOf (db.claimDue q now n w lu).1 id) := by
  set ids := (db.claimSelect q (toUnixNano now) n).map Row.id with hids
  have hcount : claims id db (.claimDue q now n w lu) = ids.count id := by
    show (((db.claimSelect q (toUnixNano now) n).map (claimedJob now w lu)).map Job.id).count id = _
    rw [List.map_map]
    rfl
  have hlookup : (db.claimDue q now n w lu).1.jobs.lookup id =
      mapOn db.jobs.lookup (claimRow w (toUnixNano lu) (toUnixNano now)) ids id :=
    congrFun (Db.claimRows_lookup ids w (toUnixNano lu) (toUnixNano now)) id
  rw [hcount]
  by_cases hid : id ∈ ids
  · obtain ⟨r, hr, rfl⟩ := List.mem_map.mp hid
    obtain ⟨hl, hdue⟩ := mem_claimSelect hr
    have hst : r.state = statePending := (of_decide_eq_true hdue).2.1
    rw [List.count_eq_one_of_mem (nodup_claimSelect db q _ n) hid]
    unfold sheetOf
    rw [hlookup, mapOn, if_pos hid, hl]
    exact .claim (c := sheet r) hst
  · rw [List.count_eq_zero_of_not_mem hid]
    refine sheetOf_of_eq ?_
    rw [hlookup, mapOn, if_neg hid]

/-- the row after a failure, in the columns of the sheet -/
theorem failRow_move {r : Row} (hs : r.state = stateClaimed) (hlt : r.attempt.toInt < r.maxAttempts.toInt)
    (msg : String) (t now : Int64) :
    Attempts.Move (some (sheet r)) 0 0 ((failRow msg t now r).map sheet) := by
  have hadd := toInt_add_one hlt
  unfold failRow
  split
  · exact .gone _
  · rename_i hlast
    rw [Int64.lt_iff_toInt_lt, Int64.le_iff_toInt_le, hadd] at hlast
    have e : sheet (retryRow msg t now r) = (sheet r).retried := by
      show Sheet.mk statePending (r.attempt + 1).toInt r.maxAttempts.toInt = _
      rw [hadd]
      rfl
    rw [Option.map_some, e]
    exact .retry hs hlast

theorem fail_move (ho : Open (sheetOf db id)) (i : JobID) (msg : String) (t now : Time) :
    Attempts.Move (sheetOf db id) 0 0 (sheetOf (db.fail i msg t now).1 id) := by
  by_cases h : ∃ r, db.jobs.lookup i = some r ∧ r.state = stateClaimed
  · obtain ⟨r, hr, hs⟩ := h
    refine sheetOf_update (Db.fail_claimed hr hs msg t now).2 fun e => ?_
    subst e
    have hsheet : sheetOf db i = some (sheet r) := by
      unfold sheetOf
      rw [hr]
      rfl
    rw [hsheet] at ho ⊢
    exact failRow_move hs (ho (sheet r) rfl).2 msg _ _
  · rw [Db.fail_refused (fun r hr hs => h ⟨r, hr, hs⟩)]
    exact .same _

theorem ack_move (i : JobID) : Attempts.Move (sheetOf db id) 0 0 (sheetOf (db.ack i).1 id) := by
  by_cases h : ∃ r, db.jobs.lookup i = some r ∧ r.state = stateClaimed
  · obtain ⟨r, hr, hs⟩ := h
    exact sheetOf_update (Db.ack_claimed hr hs).2 fun _ => .gone _
  · rw [Db.ack_refused fun r hr hs => h ⟨r, hr, hs⟩]
    exact .same _

theorem cancel_move (i : JobID) : Attempts.Move (sheetOf db id) 0 0 (sheetOf (db.cancel i).1 id) := by
  cases hr : db.jobs.lookup i with
  | none =>
    rw [Db.cancel_missing hr]
    exact .same _
  | some r =>
    by_cases hs : r.state = statePending
    · exact sheetOf_update (Db.cancel_pending hr hs).2 fun _ => .gone _
    · rw [Db.cancel_refused hr hs]
      exact .same _

theorem reschedule_move (i : JobID) (t now : Time) :
    Attempts.Move (sheetOf db id) 0 0 (sheetOf (db.reschedule i t now).1 id) := by
  cases hr : db.jobs.lookup i with
  | none =>
    rw [Db.reschedule_missing hr]
    exact .same _
  | some r =>
    by_cases hs : r.state = statePending
    · refine sheetOf_update (Db.reschedule_pending hr hs t now).2 fun e => ?_
      subst e
      unfold sheetOf
      rw [hr]
      exact .same _
    · rw [Db.reschedule_refused hr hs]
      exact .same _

theorem recoverStale_move (now : Time) :
    Attempts.Move (sheetOf db id) 0 (recoveries id db (.recoverStale now))
      (sheetOf (db.recoverStale now).1 id) := by
  have hlookup : (db.recoverStale now).1.jobs.lookup id = (db.jobs.lookup id).map fun r =>
      if (decide (r.state = stateClaimed) &&
        decide (0 < r.lockedUntil ∧ r.lockedUntil < toUnixNano now)) = true then
        releaseRow (toUnixNano now) r else r :=
    Keyed.lookup_update _ _ (releaseRow (toUnixNano now)) (fun _ => rfl) id
  have hrec : recoveries id db (.recoverStale now) =
      if ∃ r ∈ db.jobs.lookup id, Stale now r then 1 else 0 := rfl
  unfold sheetOf
  rw [hlookup, hrec]
  cases hr : db.jobs.lookup id with
  | none =>
    rw [if_neg (by simp)]
    exact .same _
  | some r =>
    rw [Option.map_some, Option.map_some, Option.map_some]
    by_cases hst : Stale now r
    · have hhit : (decide (r.state = stateClaimed) &&
          decide (0 < r.lockedUntil ∧ r.lockedUntil < toUnixNano now)) = true := by
        rw [decide_eq_true hst.1, decide_eq_true hst.2]
        rfl
      rw [if_pos hhit, if_pos ⟨r, rfl, hst⟩]
      exact .recover (c := sheet r) hst.1
    · have hhit : ¬ (decide (r.state = stateClaimed) &&
          decide (0 < r.lockedUntil ∧ r.lockedUntil < toUnixNano now)) = true := by
        rw [Bool.and_eq_true, decide_eq_true_eq, decide_eq_true_eq]
        exact hst
      rw [if_neg hhit, if_neg]
      · exact .same _
      · intro h
        obtain ⟨r', hr', hst'⟩ := h
        rw [← Option.some.inj hr'] at hst'
        exact hst hst'

/-- **A call is a move of the job's sheet.** -/
theorem call_move (o : Op) (ho : Open (sheetOf db id)) (hk : Keeps id o) :
    Attempts.Move (sheetOf db id) (claims id db o) (recoveries id db o) (sheetOf (call db o).1 id) := by
  cases o with
  | save j =>
    refine sheetOf_of_eq ?_
    exact (Keyed.lookup_upsert ..).trans (if_neg fun e => hk e.symm)
  | claimDue q now n w lu => exact claimDue_move q now n w lu
  | ack i => exact ack_move i
  | fail i msg t now => exact fail_move ho i msg t now
  | cancel i => exact cancel_move i
  | reschedule i t now => exact reschedule_move i t now
  | recoverStale now => exact recoverStale_move now

end

/-- a job that was just saved -/
theorem sheetOf_save (db : Db) (j : Job) : ∃ st, sheetOf (db.save j) j.id =
    some ⟨st, j.attempt.toInt, (if j.maxAttempts = 0 then 3 else j.maxAttempts).toInt⟩ := by
  have hlookup : (db.save j).jobs.lookup j.id = _ := Keyed.lookup_upsert _ (rowOf j) _ _ j.id
  unfold sheetOf
  rw [hlookup, if_pos (show j.id = (rowOf j).id from rfl)]
  cases db.jobs.lookup j.id with
  | none => exact ⟨_, rfl⟩
  | some r => exact ⟨_, rfl⟩

theorem claims_le_max (db : Db) (j : Job) (ops : List Op) (h0 : j.attempt = 0) (hmax : 0 < j.maxAttempts)
    (hk : ∀ o ∈ ops, Keeps j.id o) :
    total step (claims j.id) (db.save j) ops ≤
      j.maxAttempts.toInt.toNat + total step (recoveries j.id) (db.save j) ops := by
  obtain ⟨st, hsheet⟩ := sheetOf_save db j
  have hne : j.maxAttempts ≠ 0 := fun e => by
    rw [e] at hmax
    exact absurd hmax (by decide)
  rw [if_neg hne, h0] at hsheet
  have hrun : ∃ t, run step (db.save j) ops = some t := exists_run (fun _ _ => ⟨_, rfl⟩) _ _
  obtain ⟨t, ht⟩ := hrun
  have hstep : ∀ s a t o, sheetOf s j.id = o → Open o → Keeps j.id a → step s a = some t →
      ∃ o', sheetOf t j.id = o' ∧ Attempts.Move o (claims j.id s a) (recoveries j.id s a) o' := by
    intro s a t o hs ho ha hst
    obtain rfl := Option.some.inj hst
    subst hs
    exact ⟨_, rfl, call_move a ho ha⟩
  exact claims_le hstep hsheet rfl (Int64.lt_iff_toInt_lt.mp hmax)
    (meets_of_forall fun o ho _ => hk o ho) ht

end GS.Sqlite
