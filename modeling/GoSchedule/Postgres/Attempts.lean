import GoSchedule.Attempts.Sheet
import GoSchedule.Postgres.Fail

/-!
# The attempts of a job in the Postgres store

* `claims id`, `recoveries id`   whether a statement claims the job, and whether it takes it back from a
  claim that has run out;
* `step_move`   a step of a steady run is a move of the job's sheet, as far as it is committed;
* `claims_le_max`   the bound.
-/

namespace GS.Postgres.Tx
open Attempts Trans

/-- `ClaimDue` returns the rows that it has picked -/
def claims (id : JobID) (_ : Sys) : Label → Nat
  | .claim _ _ _ _ _ picked => picked.count id
  | _ => 0

def recoveries (id : JobID) (s : Sys) : Label → Nat
  | .recoverStale _ => if ∃ r ∈ s.table.row id, Stale s.clock r then 1 else 0
  | _ => 0

/-- a statement that does not save the job -/
def Keeps (id : JobID) : Label → Prop
  | .save j => j.id ≠ id
  | _ => True

instance (id : JobID) : DecidablePred (Keeps id)
  | .save _ => inferInstanceAs (Decidable (_ ≠ _))
  | .claim .. | .ack _ | .recoverStale _ | .failSelect .. | .failWrite .. | .cancelSelect ..
  | .cancelDelete _ | .rescheduleSelect .. | .rescheduleUpdate .. | .commit _ | .rollback _
  | .tick _ => isTrue trivial

def sheet (r : Job) : Sheet := ⟨r.state, r.attempt.toInt, r.maxAttempts.toInt⟩

def sheetOf (s : Sys) (id : JobID) : Option Sheet := (s.table.row id).map sheet

section
variable {s t : Sys} {id : JobID}

/-- the version that a transaction commits -/
theorem version_move {r : Job} {v : Option Job} (hv : Raises r v ∨ Moves r v)
    (ho : Open (some (sheet r))) : Attempts.Move (some (sheet r)) 0 0 (v.map sheet) := by
  rcases hv with (rfl | ⟨hst, msg, at', now, rfl, hb⟩) | ⟨at', now, rfl⟩
  · exact .gone _
  · obtain ⟨h0, hlt⟩ := ho _ rfl
    have hadd : (r.attempt + 1).toInt = r.attempt.toInt + 1 := toInt_add_one hlt
    have hlt' : r.attempt + 1 < r.maxAttempts := hb (Int64.lt_iff_toInt_lt.mpr h0)
    rw [Int64.lt_iff_toInt_lt, hadd] at hlt'
    have e : sheet (retryRow msg at' now r) = (sheet r).retried := by
      show Sheet.mk statePending (r.attempt + 1).toInt r.maxAttempts.toInt = _
      rw [hadd]
      rfl
    rw [Option.map_some, e]
    exact .retry hst fun h => absurd hlt' (not_lt.mpr h.2)
  · exact .same _

/-- what a statement does that neither claims nor recovers -/
theorem RowStep.move {a : Label} {o o' : Option Job} (h : RowStep s a id o o') (hi : Counted s)
    (hrow : s.table.row id = o) (hk : Keeps id a)
    (hc : ∀ q now n w lu picked, a ≠ .claim q now n w lu picked) (hr : ∀ now, a ≠ .recoverStale now)
    (ho : Open (o.map sheet)) : Attempts.Move (o.map sheet) 0 0 (o'.map sheet) := by
  cases h with
  | same => exact .same _
  | saved ha hid =>
    subst ha
    exact absurd hid hk
  | claimed ha => exact absurd ha (hc _ _ _ _ _ _)
  | acked => exact .gone _
  | recovered ha => exact absurd ha (hr _)
  | committed ha hl =>
    obtain ⟨r, hr, hv⟩ := hi.locks id _ _ hl
    obtain rfl := hrow.symm.trans hr
    exact version_move hv ho

/-- **A step is a move of the job's sheet.** -/
theorem step_move {a : Label} (hi : Counted s) (ho : Open (sheetOf s id)) (hk : Keeps id a)
    (h : step s a = some t) :
    Attempts.Move (sheetOf s id) (claims id s a) (recoveries id s a) (sheetOf t id) := by
  have hrow := step_row h id
  cases a with
  | claim q now n w lu picked =>
    have hnd : picked.Nodup := (Option.ite_none_right_eq_some.mp h).1.1
    show Attempts.Move _ (picked.count id) 0 _
    unfold sheetOf
    by_cases hid : id ∈ picked
    · obtain ⟨r, hr, hst, hr'⟩ := (claim_row h).1 hid
      rw [List.count_eq_one_of_mem hnd hid, hr, hr']
      exact .claim (c := sheet r) hst
    · rw [List.count_eq_zero_of_not_mem hid, (claim_row h).2 hid]
      exact .same _
  | recoverStale now =>
    show Attempts.Move _ 0 (if ∃ r ∈ s.table.row id, Stale s.clock r then 1 else 0) _
    unfold sheetOf
    by_cases hst : ∃ r ∈ s.table.row id, Stale s.clock r
    · rw [if_pos hst]
      obtain ⟨r, hr, hst⟩ := hst
      rw [(recover_row h).1 r hr hst, Option.mem_def.mp hr]
      exact .recover (c := sheet r) hst.1
    · rw [if_neg hst, (recover_row h).2 fun r hr hs => hst ⟨r, hr, hs⟩]
      exact .same _
  | save | ack | failSelect | failWrite | cancelSelect | cancelDelete | rescheduleSelect
  | rescheduleUpdate | commit | rollback | tick =>
    exact hrow.move hi rfl hk (fun _ _ _ _ _ _ e => by cases e) (fun _ e => by cases e) ho

end

theorem claims_le_max {size : Nat} {clock : Time} {pre post : List Label} {j : Job} {s t : Sys}
    (hs : run step (Sys.init size clock) (pre ++ [.save j]) = some s) (ht : run step s post = some t)
    (hm : Meets step Steady (Sys.init size clock) (pre ++ .save j :: post)) (h0 : j.attempt = 0)
    (hmax : 0 < j.maxAttempts) (hk : ∀ a ∈ post, Keeps j.id a) :
    total step (claims j.id) s post ≤
      j.maxAttempts.toInt.toNat + total step (recoveries j.id) s post := by
  have hm' : Meets step Steady (Sys.init size clock) ((pre ++ [.save j]) ++ post) := by
    rw [List.append_assoc]
    exact hm
  obtain ⟨hpre, hpost⟩ := hm'.append hs
  have hne : j.maxAttempts ≠ 0 := fun e => by
    rw [e] at hmax
    exact absurd hmax (by decide)
  -- the row of the job is the one that was saved
  obtain ⟨u, _, hlast⟩ := run_append.mp hs
  obtain ⟨s', hstep, e⟩ := run_cons.mp hlast
  obtain rfl := Option.some.inj e
  have hsheet : ∃ st, sheetOf s' j.id = some ⟨st, 0, j.maxAttempts.toInt⟩ := by
    obtain ⟨_, e⟩ := Option.ite_none_right_eq_some.mp hstep
    rw [← Option.some.inj e]
    refine ⟨(storedJob j).state, ?_⟩
    show (Function.update u.table.row j.id (some _) j.id).map sheet = _
    rw [Function.update_self]
    have hsaved : ∀ o, sheet (upsertRow o j) =
        ⟨(storedJob j).state, j.attempt.toInt, (if j.maxAttempts = 0 then 3 else j.maxAttempts).toInt⟩ := by
      intro o
      cases o with
      | none => rfl
      | some r => rfl
    rw [Option.map_some, hsaved, h0, if_neg hne]
    rfl
  obtain ⟨st, hsheet⟩ := hsheet
  have hmove : ∀ s a t o, (Counted s ∧ sheetOf s j.id = o) → Open o → Steady s a ∧ Keeps j.id a →
      step s a = some t →
      ∃ o', (Counted t ∧ sheetOf t j.id = o') ∧
        Attempts.Move o (claims j.id s a) (recoveries j.id s a) o' := by
    intro s a t o hs ho hC hst
    obtain ⟨hi, rfl⟩ := hs
    exact ⟨_, ⟨step_counted hi hC.1 hst, rfl⟩, step_move hi ho hC.2 hst⟩
  exact claims_le hmove ⟨run_counted hs hpre, hsheet⟩ rfl (Int64.lt_iff_toInt_lt.mp hmax)
    (hpost.and_forall hk) ht

end GS.Postgres.Tx
