import GoSchedule.Backoff
import GoSchedule.Scheduler.Worker
import GoSchedule.Sqlite.Attempts

/-!
# No job of the SQLite store is claimed early

`ClaimDue` compares two INTEGER columns, and an instant beyond the range of the column is stored with a
different sign.

* `Dated`    the tables, and for every job the instant that it was last given: by `Save`, or by a `Fail`
  or `Reschedule` that succeeded;
* `gives`    the job and the instant of a call;  `call_runAt` is all that a call does to `run_at`;
* `Encodes`  the column holds that instant, wrapped;  every call keeps it (`encodes_step`);
* `le_of_toUnixNano_le`   the comparison of the columns, for an instant that is not past the range;
* `claimed_due`   **a claimed job is due, unless its instant is past the range**;
* `wrapped_due`   when an instant past it is due: for the next 292 years at once.
-/

namespace GS.Sqlite
open MapOn Trans

structure Dated where
  db : Db
  runAt : JobID → Time

def Dated.empty : Dated := ⟨Db.empty, fun _ => zeroTime⟩

def gives (db : Db) : Op → Option (JobID × Time)
  | .save j => some (j.id, j.runAt)
  | .fail id errMsg t now => if (db.fail id errMsg t now).2 = none then some (id, t) else none
  | .reschedule id t now => if (db.reschedule id t now).2 = none then some (id, t) else none
  | .claimDue .. | .ack _ | .cancel _ | .recoverStale _ => none

def Dated.step (s : Dated) (o : Op) : Option Dated :=
  some { db := (call s.db o).1
         runAt := match gives s.db o with
           | none => s.runAt
           | some (id, t) => Function.update s.runAt id t }

/-- the column holds the instant, as `toUnixNano` gives it -/
def Encodes (s : Dated) : Prop :=
  ∀ id r, s.db.jobs.lookup id = some r → r.runAt = toUnixNano (s.runAt id)

/-! ## what a call does to `run_at` -/

section
variable {db : Db} {id : JobID}

/-- the row of a job after a call: with the instant that the call gives it, or as it was -/
def Writes (db db' : Db) (given : Option (JobID × Time)) : Prop :=
  ∀ id r', db'.jobs.lookup id = some r' →
    (∃ t, given = some (id, t) ∧ r'.runAt = toUnixNano t) ∨
      (∀ t, given ≠ some (id, t)) ∧ ∃ r, db.jobs.lookup id = some r ∧ r'.runAt = r.runAt

theorem writes_same (db : Db) : Writes db db none :=
  fun _ r' h => Or.inr ⟨fun _ e => (nomatch e), r', h, rfl⟩

theorem writes_gone {db' : Db} {i : JobID}
    (h : db'.jobs.lookup = Function.update db.jobs.lookup i none) : Writes db db' none := by
  intro id r' hr
  rw [h] at hr
  by_cases e : id = i
  · rw [e, Function.update_self] at hr
    cases hr
  · rw [Function.update_of_ne e] at hr
    exact Or.inr ⟨fun _ e => (nomatch e), r', hr, rfl⟩

/-- a statement that changes other columns of some rows -/
theorem writes_mapOn {db' : Db} {f : Row → Row} {ids : List JobID}
    (h : db'.jobs.lookup = mapOn db.jobs.lookup f ids) (hf : ∀ r, (f r).runAt = r.runAt) :
    Writes db db' none := by
  intro id r' hr
  refine Or.inr ⟨fun _ e => (nomatch e), ?_⟩
  rw [h, mapOn] at hr
  split at hr
  · obtain ⟨r, hl, rfl⟩ := Option.map_eq_some_iff.mp hr
    exact ⟨r, hl, hf r⟩
  · exact ⟨r', hr, rfl⟩

/-- a statement that writes the row of one job -/
theorem writes_update {db' : Db} {i : JobID} {o : Option Row} {t : Time}
    (h : db'.jobs.lookup = Function.update db.jobs.lookup i o)
    (ho : ∀ r, o = some r → r.runAt = toUnixNano t) : Writes db db' (some (i, t)) := by
  intro id r' hr
  rw [h] at hr
  by_cases e : id = i
  · subst e
    rw [Function.update_self] at hr
    exact Or.inl ⟨t, rfl, ho r' hr⟩
  · rw [Function.update_of_ne e] at hr
    refine Or.inr ⟨fun u hu => e ?_, r', hr, rfl⟩
    injection hu with hu
    injection hu with h1 _
    exact h1.symm

theorem save_writes (db : Db) (j : Job) : Writes db (db.save j) (some (j.id, j.runAt)) := by
  refine writes_update (o := some (((db.jobs.lookup j.id).map fun r =>
    { rowOf j with id := r.id, createdAt := r.createdAt }).getD (rowOf j))) ?_ fun r hr => ?_
  · funext i
    refine (Keyed.lookup_upsert ..).trans ?_
    rw [show (rowOf j).id = j.id from rfl]
    by_cases hi : i = j.id
    · subst hi
      rw [Function.update_self, if_pos rfl]
    · rw [Function.update_of_ne hi, if_neg hi]
  · obtain rfl := Option.some.inj hr
    cases db.jobs.lookup j.id with
    | none => rfl
    | some r => rfl

theorem ack_writes (db : Db) (i : JobID) : Writes db (db.ack i).1 none := by
  by_cases h : ∃ r, db.jobs.lookup i = some r ∧ r.state = stateClaimed
  · obtain ⟨r, hr, hs⟩ := h
    exact writes_gone (Db.ack_claimed hr hs).2
  · rw [Db.ack_refused fun r hr hs => h ⟨r, hr, hs⟩]
    exact writes_same db

theorem fail_writes (db : Db) (i : JobID) (msg : String) (t now : Time) :
    Writes db (db.fail i msg t now).1 (gives db (.fail i msg t now)) := by
  show Writes db _ (if (db.fail i msg t now).2 = none then some (i, t) else none)
  by_cases h : ∃ r, db.jobs.lookup i = some r ∧ r.state = stateClaimed
  · obtain ⟨r, hr, hs⟩ := h
    obtain ⟨hres, hlookup⟩ := Db.fail_claimed hr hs msg t now
    rw [if_pos hres]
    refine writes_update hlookup fun r' hr' => ?_
    unfold failRow at hr'
    split at hr'
    · cases hr'
    · rw [← Option.some.inj hr']
      rfl
  · rw [Db.fail_refused fun r hr hs => h ⟨r, hr, hs⟩]
    exact writes_same db

theorem cancel_writes (db : Db) (i : JobID) : Writes db (db.cancel i).1 none := by
  cases hr : db.jobs.lookup i with
  | none =>
    rw [Db.cancel_missing hr]
    exact writes_same db
  | some r =>
    by_cases hs : r.state = statePending
    · exact writes_gone (Db.cancel_pending hr hs).2
    · rw [Db.cancel_refused hr hs]
      exact writes_same db

theorem reschedule_writes (db : Db) (i : JobID) (t now : Time) :
    Writes db (db.reschedule i t now).1 (gives db (.reschedule i t now)) := by
  show Writes db _ (if (db.reschedule i t now).2 = none then some (i, t) else none)
  cases hr : db.jobs.lookup i with
  | none =>
    rw [Db.reschedule_missing hr]
    exact writes_same db
  | some r =>
    by_cases hs : r.state = statePending
    · obtain ⟨hres, hlookup⟩ := Db.reschedule_pending hr hs t now
      rw [if_pos hres]
      refine writes_update hlookup fun r' hr' => ?_
      rw [← Option.some.inj hr']
    · rw [Db.reschedule_refused hr hs]
      exact writes_same db

theorem recoverStale_writes (db : Db) (now : Time) : Writes db (db.recoverStale now).1 none := by
  intro id r' hr
  refine Or.inr ⟨fun _ e => (nomatch e), ?_⟩
  have hlookup := Keyed.lookup_update db.jobs
    (fun r : Row => decide (r.state = stateClaimed) &&
      decide (0 < r.lockedUntil ∧ r.lockedUntil < toUnixNano now))
    (releaseRow (toUnixNano now)) (fun _ => rfl) id
  obtain ⟨r, hl, rfl⟩ := Option.map_eq_some_iff.mp (hlookup.symm.trans hr)
  refine ⟨r, hl, ?_⟩
  split
  · rfl
  · rfl

/-- **All that a call does to `run_at`.** -/
theorem call_runAt (db : Db) (o : Op) : Writes db (call db o).1 (gives db o) := by
  cases o with
  | save j => exact save_writes db j
  | claimDue q now n w lu => exact writes_mapOn (Db.claimRows_lookup ..) fun _ => rfl
  | ack i => exact ack_writes db i
  | fail i msg t now => exact fail_writes db i msg t now
  | cancel i => exact cancel_writes db i
  | reschedule i t now => exact reschedule_writes db i t now
  | recoverStale now => exact recoverStale_writes db now

end

theorem encodes_step {s t : Dated} {o : Op} (hs : Encodes s) (h : s.step o = some t) : Encodes t := by
  obtain rfl := Option.some.inj h
  intro id r' hr
  rcases call_runAt s.db o id r' hr with ⟨t, hg, ht⟩ | ⟨hg, r, hr, hrun⟩
  · dsimp only
    rw [hg]
    dsimp only
    rw [Function.update_self]
    exact ht
  · rw [hrun, hs id r hr]
    dsimp only
    cases hgiven : gives s.db o with
    | none => rfl
    | some p =>
      obtain ⟨i, t⟩ := p
      have hne : id ≠ i := fun e => hg t (by rw [hgiven, e])
      dsimp only
      rw [Function.update_of_ne hne]

theorem encodes_run {s : Dated} {ops : List Op} (h : run Dated.step Dated.empty ops = some s) :
    Encodes s :=
  run_keep (fun _ _ _ hs hst => encodes_step hs hst) (fun _ _ hr => by cases hr) h

/-! ## the comparison of a claim -/

/-- an instant at or before the end of the range is never stored before its time -/
theorem le_of_toUnixNano_le {t now : Int} (ht : t ≤ 9223372036854775807) (hnow : 0 ≤ now)
    (h : toUnixNano t ≤ toUnixNano now) : t ≤ now := by
  -- if `t` is later than `now`, both are in the range of the column
  by_contra hlt
  rw [not_le] at hlt
  rw [Int64.le_iff_toInt_le, toInt_toUnixNano (by omega) ht, toInt_toUnixNano (by omega) (by omega)] at h
  omega

/-- an instant past the range is stored some turns of the column earlier -/
theorem toInt_toUnixNano_past {t : Int} (h : 9223372036854775807 < t) :
    (toUnixNano t).toInt = t.bmod 18446744073709551616 := by
  have hz : t ≠ zeroTime := by
    intro e
    rw [e] at h
    exact absurd h (by decide)
  unfold toUnixNano
  rw [if_neg hz, Int64.toInt_ofInt]

/-- less than one turn, and that is before the epoch -/
theorem bmod_neg {t : Int} (h1 : 9223372036854775807 < t) (h2 : t < 18446744073709551616) :
    t.bmod 18446744073709551616 < 0 := by
  rw [Int.bmod_def]
  split
  · omega
  · omega

/-- **A claimed job is due**, unless it was given an instant past the range of the column. -/
theorem claimed_due {ops : List Op} {s : Dated} (h : run Dated.step Dated.empty ops = some s)
    (queue : String) (now : Time) (n : Int) (workerID : String) (lockUntil : Time) (hnow : 0 ≤ now)
    {j : Job} (hj : j ∈ (s.db.claimDue queue now n workerID lockUntil).2)
    (ht : s.runAt j.id ≤ 9223372036854775807) : s.runAt j.id ≤ now := by
  obtain ⟨r, hr, rfl⟩ := List.mem_map.mp hj
  obtain ⟨hl, hdue⟩ := mem_claimSelect hr
  have hle : r.runAt ≤ toUnixNano now := (of_decide_eq_true hdue).2.2
  rw [encodes_run h r.id r hl] at hle
  exact le_of_toUnixNano_le ht hnow hle

/-- a retry after the default backoff: the claim five minutes later returns the job -/
theorem claimed_due_retry :
    let t : Time := 1767225600000000000
    let later : Time := t.add (ExponentialBackoff.default.next 13)
    let ops : List Op := [.save (Scheduler.atJob t t "a" "job" [] []),
      .claimDue "default" t 1 "w" (t.add hour), .fail "a" "boom" later t]
    ∃ s, run Dated.step Dated.empty ops = some s ∧
      (s.db.claimDue "default" later 1 "w" later).2.map Job.id = ["a"] ∧
      ∀ j ∈ (s.db.claimDue "default" later 1 "w" later).2, s.runAt j.id ≤ later := by
  intro t later ops
  have hids : ∀ l : List Job, l.map Job.id = ["a"] → ∀ j ∈ l, j.id = "a" :=
    fun l hl j hj => List.mem_singleton.mp (hl ▸ List.mem_map_of_mem hj)
  refine ⟨_, rfl, by decide +kernel, fun j hj => ?_⟩
  refine claimed_due (rfl : run Dated.step Dated.empty ops = some _) _ _ _ _ _
    (by decide +kernel) hj ?_
  rw [hids _ (by decide +kernel) j hj]
  decide +kernel

/-- a job that is saved with an instant past the range is due when that instant, wrapped, has come; before
`2^64` the wrapped one is before the epoch, so the job is due at once -/
theorem wrapped_due {j : Job} (hst : j.state = statePending) (h : 9223372036854775807 < j.runAt) {now : Int}
    (hnow : 0 ≤ now) (hmax : now ≤ 9223372036854775807) :
    (isDue j.queue (toUnixNano now) (rowOf j) = true ↔ Int.bmod j.runAt 18446744073709551616 ≤ now) ∧
      (j.runAt < 18446744073709551616 → isDue j.queue (toUnixNano now) (rowOf j) = true) := by
  have hstate : (rowOf j).state = statePending := by
    show (if j.state = 0 then statePending else j.state) = statePending
    rw [hst]
    rfl
  have hdue : isDue j.queue (toUnixNano now) (rowOf j) = true ↔
      Int.bmod j.runAt 18446744073709551616 ≤ now := by
    unfold isDue
    rw [decide_eq_true_eq, hstate, Int64.le_iff_toInt_le, toInt_toUnixNano (by omega) hmax,
      ← toInt_toUnixNano_past h]
    exact ⟨fun h => h.2.2, fun h => ⟨rfl, rfl, h⟩⟩
  refine ⟨hdue, fun h2 => hdue.mpr ?_⟩
  exact le_of_lt (lt_of_lt_of_le (bmod_neg h h2) hnow)

/-- a job for the year 2263, one that is to wait for the largest duration, and a retry whose backoff has
no cap: each is claimed in 2026 -/
theorem claimed_early :
    let now : Time := 1767225600000000000
    let claim := fun db : Db => (db.claimDue "default" now 1 "w" (now.add hour)).2.map Job.id
    let far : Time := 9246182400000000000
    let later := now.add Int64.maxValue
    let sc := { oneHandler with defaultBackoff := (ExponentialBackoff.mk 1000000 0).next }
    let j : Job :=
      { id := "a", queue := "default", state := stateClaimed, attempt := 99, maxAttempts := 200 }
    now < far ∧ claim (Db.empty.save (Scheduler.atJob now far "a" "job" [] [])) = ["a"] ∧
      now < later ∧ claim (Db.empty.save (Scheduler.atJob now later "a" "job" [] [])) = ["a"] ∧
      (finish sc ⟨.error "boom", now, now, now⟩ j Mem.Store.new).call = .fail "a" "boom" later ∧
      claim ((Db.empty.save j).fail "a" "boom" later now).1 = ["a"] := by
  refine ⟨?_, ?_, ?_, ?_, ?_, ?_⟩ <;> decide +kernel

end GS.Sqlite
