import GoSchedule.MemStore.Map
import GoSchedule.Sqlite.Attempts

/-!
# One job through rounds of `ClaimDue` and `Fail`

A job is saved in an empty store, then claimed and failed round after round.

* `Round`       the arguments of one `ClaimDue` and of the `Fail` after it;
* `Left`        what is compared of a job that is still stored;
* `rowRound`    what a round does to the one row of a table, `rowRounds` what all of them do.
  `rowRound_eq`: a row that is claimed, or that the claim takes, fails; any other stays;
* `sqlite_eq`   the SQLite store does that to its row;
* `memory_eq`   the in-memory store does that to its job, if its instants are ones that a column keeps
  (`Storable`).  It starts with the `MaxAttempts` of the job as it is, where the SQLite store starts with
  three for zero.
-/

namespace GS.Retries
open Sqlite

/-- `clock` is the client's clock at the `Fail`, which only `updated_at` keeps -/
structure Round where
  queue : String
  now : Time
  n : Int
  workerID : String
  lockUntil : Time
  errMsg : String
  nextAttemptAt : Time
  clock : Time
deriving DecidableEq, Repr

structure Left where
  attempt : Int64
  lastError : String
  runAt : Time
deriving DecidableEq, Repr

def left (j : Job) : Left := ⟨j.attempt, j.lastError, j.runAt⟩

def Round.memoryOps (id : JobID) (r : Round) : List Mem.Op :=
  [.claimDue r.queue r.now r.n r.workerID r.lockUntil, .fail id r.errMsg r.nextAttemptAt]

def Round.sqliteOps (id : JobID) (r : Round) : List Sqlite.Op :=
  [.claimDue r.queue r.now r.n r.workerID r.lockUntil, .fail id r.errMsg r.nextAttemptAt r.clock]

/-- the job in the in-memory store, after its save and the rounds -/
def memory (j : Job) (rounds : List Round) : Option Left :=
  ((Mem.runOps (.save j :: rounds.flatMap (Round.memoryOps j.id))).jobs j.id).map left

/-- the job in the SQLite store -/
def sqlite (j : Job) (rounds : List Round) : Option Left :=
  ((((Op.save j :: rounds.flatMap (Round.sqliteOps j.id)).foldl (fun db o => (call db o).1)
    Db.empty).jobs.lookup j.id).map scanJob).map left

/-! ## the row -/

def rowClaim (r : Round) (x : Row) : Row :=
  if isDue r.queue (toUnixNano r.now) x ∧ 0 < r.n then
    claimRow r.workerID (toUnixNano r.lockUntil) (toUnixNano r.now) x
  else x

def rowFail (r : Round) (x : Row) : Option Row :=
  if x.state = stateClaimed then
    failRow r.errMsg (toUnixNano r.nextAttemptAt) (toUnixNano r.clock) x
  else some x

def rowRound (r : Round) (x : Row) : Option Row := rowFail r (rowClaim r x)

def rowRounds (rounds : List Round) (x : Row) : Option Row :=
  rounds.foldl (fun o r => o.bind (rowRound r)) (some x)

section
variable {r : Round} {x : Row}

theorem rowClaim_id (r : Round) (x : Row) : (rowClaim r x).id = x.id := by
  unfold rowClaim
  split
  · rfl
  · rfl

theorem rowFail_id {y : Row} (h : rowFail r x = some y) : y.id = x.id := by
  unfold rowFail failRow at h
  split at h
  · split at h
    · cases h
    · cases h
      rfl
  · cases h
    rfl

theorem rowRound_id {y : Row} (h : rowRound r x = some y) : y.id = x.id :=
  (rowFail_id h).trans (rowClaim_id r x)

/-- what a failure writes does not depend on the claim before it -/
theorem rowRound_eq (r : Round) (x : Row) : rowRound r x =
    if x.state = stateClaimed ∨ isDue r.queue (toUnixNano r.now) x ∧ 0 < r.n then
      failRow r.errMsg (toUnixNano r.nextAttemptAt) (toUnixNano r.clock) x
    else some x := by
  unfold rowRound rowClaim
  by_cases hd : isDue r.queue (toUnixNano r.now) x ∧ 0 < r.n
  · rw [if_pos hd, if_pos (Or.inr hd)]
    exact if_pos rfl
  · rw [if_neg hd]
    exact if_congr (or_iff_left hd).symm rfl rfl

theorem rowRounds_concat (rounds : List Round) (r : Round) (x : Row) :
    rowRounds (rounds ++ [r]) x = (rowRounds rounds x).bind (rowRound r) := by
  unfold rowRounds
  rw [List.foldl_append]
  rfl

end

/-! ## the SQLite store -/

/-- the table has this row and no other -/
structure Tabled (id : JobID) (t : Db) (o : Option Row) : Prop where
  rows : t.jobs.rows = o.toList
  id : ∀ x, o = some x → x.id = id

theorem Tabled.lookup {id : JobID} {t : Db} {o : Option Row} (T : Tabled id t o) :
    t.jobs.lookup id = o := by
  rw [Keyed.lookup_eq_iff]
  intro x
  rw [T.rows, Option.mem_toList]
  exact ⟨fun h => ⟨h, T.id x h⟩, And.left⟩

theorem tabled_save (j : Job) : Tabled j.id (Db.empty.save j) (some (rowOf j)) :=
  ⟨rfl, fun _ h => by cases h; rfl⟩

theorem tabled_claim {id : JobID} {t : Db} {o : Option Row} (T : Tabled id t o) {r : Round}
    (hn : 0 ≤ r.n) : Tabled id (t.claimDue r.queue r.now r.n r.workerID r.lockUntil).1
      (o.map (rowClaim r)) := by
  refine ⟨?_, fun y hy => ?_⟩
  · have hsel : t.claimSelect r.queue (toUnixNano r.now) r.n =
        ((t.jobs.rows.filter (isDue r.queue (toUnixNano r.now))).insertionSort RowLE).take r.n.toNat :=
      if_neg (not_lt.mpr hn)
    show t.jobs.rows.map _ = _
    rw [hsel, T.rows]
    cases o with
    | none => rfl
    | some x =>
      unfold rowClaim
      by_cases hd : isDue r.queue (toUnixNano r.now) x = true
      · by_cases hpos : 0 < r.n
        · have htake : [x].take r.n.toNat = [x] :=
            List.take_of_length_le (show 1 ≤ r.n.toNat by omega)
          simp [hd, hpos, htake]
        · have hzero : r.n.toNat = 0 := by omega
          simp [hpos, hzero]
      · simp [hd]
  · obtain ⟨x, hx, rfl⟩ := Option.map_eq_some_iff.mp hy
    rw [rowClaim_id]
    exact T.id x hx

theorem tabled_fail {id : JobID} {t : Db} {o : Option Row} (T : Tabled id t o) (r : Round) :
    Tabled id (t.fail id r.errMsg r.nextAttemptAt r.clock).1 (o.bind (rowFail r)) := by
  refine ⟨?_, fun y hy => ?_⟩
  · unfold Db.fail
    rw [T.lookup]
    cases o with
    | none => exact T.rows
    | some x =>
      have hid : x.id = id := T.id x rfl
      dsimp only [Option.bind_some]
      unfold rowFail failRow
      by_cases hs : x.state = stateClaimed
      · rw [if_neg (not_not.mpr hs), if_pos hs]
        by_cases hlast : 0 < x.maxAttempts ∧ x.maxAttempts ≤ x.attempt + 1
        · rw [if_pos hlast, if_pos hlast]
          show t.jobs.rows.filter _ = _
          rw [T.rows]
          simp [hid]
        · rw [if_neg hlast, if_neg hlast]
          show t.jobs.rows.map _ = _
          rw [T.rows]
          simp [hid, hs]
      · rw [if_pos hs, if_neg hs]
        exact T.rows
  · obtain ⟨x, hx, hy⟩ := Option.bind_eq_some_iff.mp hy
    rw [rowFail_id hy]
    exact T.id x hx

/-- **The SQLite store plays the rounds on its row.** -/
theorem sqlite_eq (j : Job) {rounds : List Round} (hn : ∀ r ∈ rounds, 0 ≤ r.n) :
    sqlite j rounds = ((rowRounds rounds (rowOf j)).map scanJob).map left := by
  have h : Tabled j.id ((Op.save j :: rounds.flatMap (Round.sqliteOps j.id)).foldl
      (fun db o => (call db o).1) Db.empty) (rowRounds rounds (rowOf j)) := by
    rw [List.foldl_cons, List.foldl_flatMap]
    refine List.foldl_rel (r := fun t o => Tabled j.id t o) (tabled_save j) fun r hr t o T => ?_
    have h := tabled_fail (tabled_claim T (hn r hr)) r
    rw [Option.bind_map] at h
    exact h
  unfold sqlite
  rw [h.lookup]

/-! ## the in-memory store -/

/-- an instant that a column keeps as it is -/
def Storable (t : Time) : Prop := InRange t ∧ t ≠ 0

instance (t : Time) : Decidable (Storable t) := inferInstanceAs (Decidable (_ ∧ _))

theorem Storable.fromUnixNano {t : Int} (h : Storable t) : fromUnixNano (toUnixNano t) = t := by
  obtain ⟨h | ⟨h1, h2⟩, h0⟩ := h
  · rw [h]
    rfl
  · have hi : (toUnixNano t).toInt = t := toInt_toUnixNano h1 h2
    have hne : toUnixNano t ≠ 0 := by
      intro e
      rw [e] at hi
      exact h0 hi.symm
    unfold Sqlite.fromUnixNano
    rw [if_neg hne, hi]

/-- the comparison of the columns at a time after the epoch -/
theorem Storable.le_iff {t now : Int} (h : Storable t) (h0 : 0 ≤ now)
    (hm : now ≤ 9223372036854775807) : toUnixNano t ≤ toUnixNano now ↔ t ≤ now := by
  rw [Int64.le_iff_toInt_le, toInt_toUnixNano (by omega) hm]
  obtain ⟨h | ⟨h1, h2⟩, _⟩ := h
  · have hz : (toUnixNano t).toInt = 0 := by
      rw [h]
      rfl
    have ht : t < 0 := by
      rw [h]
      decide
    rw [hz]
    omega
  · rw [toInt_toUnixNano h1 h2]

def jobClaim (r : Round) (j : Job) : Job :=
  if j.queue = r.queue ∧ j.state = statePending ∧ j.runAt ≤ r.now ∧ 0 < r.n then
    Mem.Store.markClaimed r.now r.workerID r.lockUntil j
  else j

def jobFail (r : Round) (j : Job) : Option Job :=
  if j.state = stateClaimed then
    if 0 < j.maxAttempts ∧ j.maxAttempts ≤ j.attempt + 1 then none
    else some { j with
      attempt := j.attempt + 1, lastError := r.errMsg, state := statePending,
      runAt := r.nextAttemptAt, lockedBy := "", lockedUntil := zeroTime }
  else some j

/-- the map with this record and no other -/
def only (id : JobID) (o : Option Job) : Mem.JobMap := Function.update (fun _ => none) id o

theorem only_eq_some {id i : JobID} {o : Option Job} {j : Job} :
    only id o i = some j ↔ i = id ∧ o = some j := by
  unfold only
  by_cases h : i = id
  · subst h
    rw [Function.update_self]
    exact (and_iff_right rfl).symm
  · rw [Function.update_of_ne h]
    exact ⟨fun e => (nomatch e), fun e => absurd e.1 h⟩

theorem only_self (id : JobID) (o : Option Job) : only id o id = o := Function.update_self ..

theorem only_of_ne {id i : JobID} (h : i ≠ id) (o : Option Job) : only id o i = none :=
  Function.update_of_ne h ..

section
variable {s : Mem.Store} {id : JobID} {o : Option Job}

/-- a claim takes the one record, if it is due -/
theorem only_claim (h : Mem.Stands s (only id o)) (hid : ∀ j, o = some j → j.id = id) {r : Round}
    (hn : 0 ≤ r.n) :
    Mem.Stands ((Mem.Op.claimDue r.queue r.now r.n r.workerID r.lockUntil).apply s)
      (only id (o.map (jobClaim r))) := by
  obtain ⟨v, hs⟩ := h
  obtain ⟨s', L, e, v', B, _⟩ := Mem.claimDue_spec v r.queue r.now hn r.workerID r.lockUntil
  rw [hs] at B
  have hstate : (Mem.Op.claimDue r.queue r.now r.n r.workerID r.lockUntil).apply s = s' := by
    show ((s.claimDue r.queue r.now r.n r.workerID r.lockUntil).map Prod.fst).getD s = s'
    rw [e]
    rfl
  rw [hstate]
  refine ⟨v', funext fun i => ?_⟩
  have hmem : ∀ x ∈ L, x.id = id ∧ o = some x := fun x hx => only_eq_some.mp (B.mem x hx).1
  by_cases hi : i = id
  · subst hi
    rw [only_self]
    cases o with
    | none =>
      have hout : ∀ x ∈ L, x.id ≠ i := fun x hx _ => nomatch (hmem x hx).2
      rw [B.eq_out i hout, only_self]
      rfl
    | some j =>
      have hj : j.id = i := hid j rfl
      have hall : ∀ x ∈ L, x = j := fun x hx => (Option.some.inj (hmem x hx).2).symm
      have hat : only i (some j) j.id = some j := only_eq_some.mpr ⟨hj, rfl⟩
      rw [Option.map_some, jobClaim]
      by_cases hd : j.queue = r.queue ∧ j.state = statePending ∧ j.runAt ≤ r.now ∧ 0 < r.n
      · obtain ⟨hq, hp, hdue, hpos⟩ := hd
        rw [if_pos ⟨hq, hp, hdue, hpos⟩]
        -- the claim can only stop before the record if it takes none or meets one that is not due
        have hin : j ∈ L := by
          rcases B.stop with hlen | hrest | ⟨b, hb, _, _, hlate, _⟩
          · cases L with
            | nil => exact absurd hlen.symm (ne_of_gt hpos)
            | cons x l =>
              rw [hall x List.mem_cons_self]
              exact List.mem_cons_self
          · exact hrest j hat hp hq
          · rw [← Option.some.inj (only_eq_some.mp hb).2] at hlate
            exact absurd hdue (not_le.mpr hlate)
        rw [← hj]
        exact B.eq_in j hin
      · have hout : ∀ x ∈ L, x.id ≠ i := fun x hx _ => by
          obtain ⟨_, h2, h3, h4⟩ := B.mem x hx
          have hpos : 0 < r.n := by
            have := B.le
            have := List.length_pos_of_mem hx
            omega
          rw [hall x hx] at h2 h3 h4
          exact hd ⟨h3, h2, h4, hpos⟩
        rw [if_neg hd, B.eq_out i hout, only_self]
  · have hout : ∀ x ∈ L, x.id ≠ i := fun x hx e => hi (e.symm.trans (hmem x hx).1)
    rw [only_of_ne hi, B.eq_out i hout, only_of_ne hi]

theorem only_fail (h : Mem.Stands s (only id o)) (r : Round) :
    Mem.Stands ((Mem.Op.fail id r.errMsg r.nextAttemptAt).apply s)
      (only id (o.bind (jobFail r))) := by
  obtain ⟨v, hs⟩ := h
  obtain ⟨_, v', hs'⟩ := Mem.fail_stands v id r.errMsg r.nextAttemptAt
  refine ⟨v', hs'.trans ?_⟩
  rw [hs]
  unfold Mem.JobMap.fail
  cases o with
  | none => rw [Mem.onState_missing (only_self id none)]; rfl
  | some j =>
    have hj := only_self id (some j)
    rw [Option.bind_some, jobFail]
    by_cases hc : j.state = stateClaimed
    · rw [Mem.onState_ok hj hc, if_pos hc]
      unfold only
      exact Function.update_idem ..
    · rw [Mem.onState_wrong hj hc, if_neg hc]

end

/-- the job and the row agree in all that a round reads, and in what is compared -/
structure Alike (j : Job) (x : Row) : Prop where
  id : j.id = x.id
  queue : j.queue = x.queue
  state : j.state = x.state
  attempt : j.attempt = x.attempt
  maxAttempts : j.maxAttempts = x.maxAttempts
  lastError : j.lastError = x.lastError
  runAt : toUnixNano j.runAt = x.runAt
  storable : Storable j.runAt

theorem Alike.left_eq {j : Job} {x : Row} (h : Alike j x) : left j = left (scanJob x) := by
  unfold left scanJob
  rw [h.attempt, h.lastError, ← h.runAt, h.storable.fromUnixNano]

/-- a round whose instants are compared and stored exactly -/
structure Round.Plain (r : Round) : Prop where
  n_nonneg : 0 ≤ r.n
  now_nonneg : 0 ≤ r.now
  now_le : r.now ≤ 9223372036854775807
  storable : Storable r.nextAttemptAt

instance (r : Round) : Decidable r.Plain :=
  decidable_of_iff (0 ≤ r.n ∧ 0 ≤ r.now ∧ r.now ≤ 9223372036854775807 ∧ Storable r.nextAttemptAt)
    ⟨fun h => ⟨h.1, h.2.1, h.2.2.1, h.2.2.2⟩, fun h => ⟨h.1, h.2, h.3, h.4⟩⟩

theorem Alike.claim {j : Job} {x : Row} (h : Alike j x) {r : Round} (hr : r.Plain) :
    Alike (jobClaim r j) (rowClaim r x) := by
  have hiff : (j.queue = r.queue ∧ j.state = statePending ∧ j.runAt ≤ r.now ∧ 0 < r.n) ↔
      isDue r.queue (toUnixNano r.now) x = true ∧ 0 < r.n := by
    unfold isDue
    rw [decide_eq_true_eq, ← h.queue, ← h.state, ← h.runAt,
      h.storable.le_iff hr.now_nonneg hr.now_le, and_assoc, and_assoc]
  unfold jobClaim rowClaim
  by_cases hd : j.queue = r.queue ∧ j.state = statePending ∧ j.runAt ≤ r.now ∧ 0 < r.n
  · rw [if_pos hd, if_pos (hiff.mp hd)]
    exact ⟨h.id, h.queue, rfl, h.attempt, h.maxAttempts, h.lastError, h.runAt, h.storable⟩
  · rw [if_neg hd, if_neg (mt hiff.mpr hd)]
    exact h

theorem Alike.fail {j : Job} {x : Row} (h : Alike j x) {r : Round} (hr : r.Plain) :
    Option.Rel Alike (jobFail r j) (rowFail r x) := by
  unfold jobFail rowFail failRow
  rw [h.state, h.attempt, h.maxAttempts]
  by_cases hc : x.state = stateClaimed
  · rw [if_pos hc, if_pos hc]
    by_cases hlast : 0 < x.maxAttempts ∧ x.maxAttempts ≤ x.attempt + 1
    · rw [if_pos hlast, if_pos hlast]
      exact .none
    · rw [if_neg hlast, if_neg hlast]
      exact .some ⟨h.id, h.queue, rfl, rfl, rfl, rfl, rfl, hr.storable⟩
  · rw [if_neg hc, if_neg hc]
    exact .some h

/-- the store has the one job that is like the row -/
def Stored (id : JobID) (s : Mem.Store) (o : Option Row) : Prop :=
  ∃ o', Mem.Stands s (only id o') ∧ Option.Rel Alike o' o ∧ ∀ x, o = some x → x.id = id

theorem Stored.round {id : JobID} {s : Mem.Store} {o : Option Row} (h : Stored id s o) {r : Round}
    (hr : r.Plain) :
    Stored id ((r.memoryOps id).foldl Mem.Op.apply s) (o.bind (rowRound r)) := by
  obtain ⟨o', hs, hrel, hid⟩ := h
  have hid' : ∀ j, o' = some j → j.id = id := by
    intro j hj
    cases hrel with
    | none => cases hj
    | some ha =>
      cases hj
      exact ha.id.trans (hid _ rfl)
  have hs' := only_fail (only_claim hs hid' hr.n_nonneg) r
  rw [Option.bind_map] at hs'
  refine ⟨_, hs', ?_, fun y hy => ?_⟩
  · cases hrel with
    | none => exact .none
    | some ha => exact (ha.claim hr).fail hr
  · obtain ⟨x, hx, hy⟩ := Option.bind_eq_some_iff.mp hy
    exact (rowRound_id hy).trans (hid x hx)

/-- the row of a job with its `MaxAttempts` as it is -/
def plainRow (j : Job) : Row := { rowOf j with maxAttempts := j.maxAttempts }

theorem alike_plainRow {j : Job} (h : Storable j.runAt) : Alike j (plainRow j) where
  id := rfl
  queue := rfl
  state := by
    show j.state = if j.state = 0 then statePending else j.state
    split
    · next e => exact e
    · rfl
  attempt := rfl
  maxAttempts := rfl
  lastError := rfl
  runAt := rfl
  storable := h

/-- **The in-memory store plays the rounds on its job.** -/
theorem memory_eq {j : Job} (hj : Storable j.runAt) {rounds : List Round}
    (hr : ∀ r ∈ rounds, r.Plain) :
    memory j rounds = ((rowRounds rounds (plainRow j)).map scanJob).map left := by
  have h : Stored j.id (Mem.runOps (.save j :: rounds.flatMap (Round.memoryOps j.id)))
      (rowRounds rounds (plainRow j)) := by
    unfold Mem.runOps
    rw [List.foldl_cons, List.foldl_flatMap]
    refine List.foldl_rel (r := fun s o => Stored j.id s o) ?_ fun r hmem s o hs => hs.round (hr r hmem)
    obtain ⟨v, hs⟩ := Mem.save_spec Mem.new_inv j
    exact ⟨some j, ⟨v, hs⟩, .some (alike_plainRow hj), fun x hx => by cases hx; rfl⟩
  obtain ⟨o', ⟨_, hs⟩, hrel, _⟩ := h
  unfold memory
  rw [hs, only_self]
  generalize rowRounds rounds (plainRow j) = o at hrel
  cases hrel with
  | none => rfl
  | some ha => exact congrArg some ha.left_eq

end GS.Retries
