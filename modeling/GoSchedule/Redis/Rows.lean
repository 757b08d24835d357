import GoSchedule.Redis.Calls
import GoSchedule.Redis.Table
import GoSchedule.Sqlite.Rows

/-!
# The Redis store as rows of a table

`Rep` says where the ID of a job is a member; here the whole hash is read, as a row of the `jobs` table
of the SQL stores.

* `HashRow h r`   the fields of the hash are the columns of the row, `updated_at` apart;
* `Holds db J`    the server holds exactly the rows `J`, each in the set where it belongs;
* `save_holds`, `ack_holds`, `fail_holds`, `cancel_holds`, `reschedule_holds`   what the scripts on
  one job do to the rows, in the words of the SQL statements (`claimRow`, `retryRow`, `releaseRow`);
* `Scores.ofTime`, `Scores.isDue`, `Scores.RowLE`   an instant, what is due and in which order, in the
  numbers of the server;
* `claim_holds`, `recoverStale_holds`   the two scripts with a loop.
-/

namespace GS.Redis
open Decimal MapOn Sqlite

variable {ρ : Scores}

/-! ## numbers and times -/

theorem toInt_toUnixNano (t : Time) : (toUnixNano t).toInt = stamp t := by
  unfold toUnixNano stamp unixNano
  by_cases h : t = zeroTime
  · rw [if_pos h, if_pos h]
    rfl
  · rw [if_neg h, if_neg h]

theorem formatTime_toInt (t : Time) : formatTime t = itoa (toUnixNano t).toInt := by
  rw [formatTime_eq, toInt_toUnixNano]

theorem zero_eq : "0" = itoa (0 : Int64).toInt := by decide

theorem parseTime_itoa (n : Int64) : parseTime (itoa n.toInt) = fromUnixNano n := by
  rw [parseTime, atoi_itoa]
  rfl

/-! ## hashes -/

structure HashRow (h : String → Option String) (r : Row) : Prop where
  id : h "id" = some r.id
  queue : h "queue" = some r.queue
  name : h "name" = some r.name
  payload : h "payload" = some (bytesToString r.payload)
  codecName : h "codec_name" = some r.codecName
  priority : h "priority" = some (itoa r.priority.toNat)
  runAt : h "run_at" = some (itoa r.runAt.toInt)
  attempt : h "attempt" = some (itoa r.attempt.toInt)
  maxAttempts : h "max_attempts" = some (itoa r.maxAttempts.toInt)
  state : h "state" = some (itoa r.state.toNat)
  timeout : h "timeout_ns" = some (itoa r.timeoutNs.toInt)
  lockedBy : h "locked_by" = some r.lockedBy
  lockedUntil : h "locked_until" = some (itoa r.lockedUntil.toInt)
  lastError : h "last_error" = some r.lastError
  recurringID : h "recurring_id" = some r.recurringID
  createdAt : h "created_at" = some (itoa r.createdAt.toInt)

/-- the fields of a job that every store keeps as they are: `updated_at` is left out, and an instant
is what its column can hold -/
def seen (j : Job) : Job :=
  { j with lockedUntil := fromUnixNano (toUnixNano j.lockedUntil), updatedAt := zeroTime }

/-- the client reads the row -/
theorem HashRow.seen_eq {h : String → Option String} {r : Row} (hr : HashRow h r) :
    seen (deserializeJob h) = seen (scanJob r) := by
  unfold deserializeJob scanJob seen
  simp only [hr.id, hr.queue, hr.name, hr.payload, hr.codecName, hr.priority, hr.runAt, hr.attempt,
    hr.maxAttempts, hr.state, hr.timeout, hr.lockedBy, hr.lockedUntil, hr.lastError, hr.recurringID,
    hr.createdAt, Option.getD_some, atoi_byte, atoi_itoa, parseTime_itoa,
    stringToBytes_bytesToString]

abbrev Rows := JobID → Option Row

def recOfRow (r : Row) : Rec :=
  ⟨r.queue, r.priority, r.runAt.toInt, r.state = stateClaimed, r.lockedBy, r.lockedUntil.toInt⟩

theorem recOfRow_claimed {r : Row} (hs : r.state = stateClaimed) : (recOfRow r).claimed = true :=
  decide_eq_true hs

theorem recOfRow_pending {r : Row} (hs : r.state = statePending) : (recOfRow r).claimed = false := by
  show decide (r.state = stateClaimed) = false
  rw [hs]
  rfl

structure Holds (db : Db ρ) (J : Rows) : Prop where
  rep : Rep db fun id => (J id).map recOfRow
  hash : ∀ id r, J id = some r → ∃ h, db.hash (jobKey id) = some h ∧ HashRow h r
  live : ∀ id r, J id = some r → r.state = statePending ∨ r.state = stateClaimed

theorem empty_holds : Holds (Db.empty ρ) fun _ => none :=
  ⟨empty_rep, fun _ _ h => (nomatch h), fun _ _ h => (nomatch h)⟩

theorem map_update (J : Rows) (id : JobID) (o : Option Row) :
    (fun i => (Function.update J id o i).map recOfRow) =
      Function.update (fun i => (J i).map recOfRow) id (o.map recOfRow) := by
  funext i
  by_cases h : i = id
  · subst h
    rw [Function.update_self, Function.update_self]
  · rw [Function.update_of_ne h, Function.update_of_ne h]

theorem table_at {J : Rows} {id : JobID} {r : Row} (hJ : J id = some r) :
    (fun i => (J i).map recOfRow) id = some (recOfRow r) := by
  show (J id).map recOfRow = _
  rw [hJ]
  rfl

theorem Holds.hash_none {db : Db ρ} {J : Rows} (H : Holds db J) {id : JobID} (hJ : J id = none) :
    db.hash (jobKey id) = none := by
  have h : RepAt db id ((J id).map recOfRow) := H.rep id
  rw [hJ] at h
  exact h.1

/-! ## what a script leaves alone -/

section
variable (id : JobID) (db : Db ρ)

/-- the hash that a save leaves, over the fields that were there -/
theorem hash_save (j : Job) : (save j db).hash (jobKey j.id) =
    some (writeFields (serializeJob (normalize j)) ((db.hash (jobKey j.id)).getD fun _ => none)) := by
  unfold save
  dsimp only
  split
  · exact hash_hset_self ..
  · exact hash_hset_self ..

theorem save_hashRow (j : Job) :
    ∃ h, (save j db).hash (jobKey j.id) = some h ∧ HashRow h (rowOf j) :=
  ⟨_, hash_save db j, rfl, rfl, rfl, rfl, rfl, rfl, congrArg some (formatTime_toInt _), rfl, rfl, rfl,
    rfl, rfl, congrArg some (formatTime_toInt _), rfl, rfl, congrArg some (formatTime_toInt _)⟩

theorem save_touches (j : Job) : Touches j.id db (save j db) := by
  unfold save
  dsimp only
  split
  · exact (touches_hset _).trans (touches_zadd _ _)
  · exact touches_hset _

theorem claimOne_touches (zset now w lu : String) :
    Touches id db (claimOne zset claimedKey now w lu (keyPrefix ++ "job:") stateClaimedArg db id) :=
  ((touches_zrem _).trans (touches_zadd _ _)).trans (touches_hset _)

theorem claimOne_hashRow {h : String → Option String} {r : Row} (hh : db.hash (jobKey id) = some h)
    (hr : HashRow h r) (zset now w : String) (lu u : Int64) :
    ∃ h', (claimOne zset claimedKey now w (itoa lu.toInt) (keyPrefix ++ "job:") stateClaimedArg db
      id).hash (jobKey id) = some h' ∧ HashRow h' (claimRow w lu u r) := by
  refine ⟨_, hash_hset_self .., ?_⟩
  rw [show ((db.zrem zset id).zadd claimedKey (itoa lu.toInt) id).hash
    (keyPrefix ++ "job:" ++ id) = some h from hh]
  exact ⟨hr.id, hr.queue, hr.name, hr.payload, hr.codecName, hr.priority, hr.runAt, hr.attempt,
    hr.maxAttempts, rfl, hr.timeout, rfl, rfl, hr.lastError, hr.recurringID, hr.createdAt⟩

theorem recoverOne_touches (lua : Lua) (now : Int) : Touches id db (recoverOne lua claimedKey
    (keyPrefix ++ "job:") (keyPrefix ++ "pending:") statePendingArg now db id).1 := by
  unfold recoverOne
  dsimp only
  split
  · exact ((touches_zrem _).trans (touches_hset _)).trans (touches_zadd _ _)
  · exact touches_zrem _

end

/-! ## scripts on one job -/

section
variable {db db' : Db ρ} {J : Rows} {id : JobID}

/-- a step that touches one ID writes one row -/
theorem Holds.write {o : Option Row} (H : Holds db J) (tc : Touches id db db')
    (hrep : Rep db' (Function.update (fun i => (J i).map recOfRow) id (o.map recOfRow)))
    (hhash : ∀ r, o = some r → ∃ h, db'.hash (jobKey id) = some h ∧ HashRow h r)
    (hlive : ∀ r, o = some r → r.state = statePending ∨ r.state = stateClaimed) :
    Holds db' (Function.update J id o) := by
  refine ⟨by rw [map_update]; exact hrep, fun i r hi => ?_, fun i r hi => ?_⟩
  · by_cases e : i = id
    · subst e
      rw [Function.update_self] at hi
      exact hhash r hi
    · rw [Function.update_of_ne e] at hi
      rw [tc.hash i e]
      exact H.hash i r hi
  · by_cases e : i = id
    · subst e
      rw [Function.update_self] at hi
      exact hlive r hi
    · rw [Function.update_of_ne e] at hi
      exact H.live i r hi

theorem save_holds (H : Holds db J) {j : Job} (hJ : J j.id = none) (hs : j.state = statePending) :
    Holds (save j db) (Function.update J j.id (some (rowOf j))) := by
  have hn : (normalize j).state = statePending := by
    show (if j.state = 0 then statePending else j.state) = statePending
    rw [hs]
    rfl
  have hrow : recOfRow (rowOf j) = recOf j := by
    unfold recOfRow recOf
    simp only [rowOf, toInt_toUnixNano, hs]
    rfl
  refine H.write (save_touches db j) ?_ ?_ ?_
  · rw [Option.map_some, hrow]
    refine save_rep H.rep ?_ hs
    show (J j.id).map recOfRow = none
    rw [hJ]
    rfl
  · rintro r ⟨⟩
    exact save_hashRow db j
  · rintro r ⟨⟩
    exact Or.inl hn

variable {r : Row} (H : Holds db J) (hJ : J id = some r)
include H hJ

theorem Holds.hget : ∃ h, db.hash (jobKey id) = some h ∧ HashRow h r ∧
    ∀ f, db.hget (jobKey id) f = h f := by
  obtain ⟨h, hh, hr⟩ := H.hash id r hJ
  exact ⟨h, hh, hr, fun f => by rw [Db.hget, hh]; rfl⟩

theorem claimOne_holds (hs : r.state = statePending) (now w : String) (lu u : Int64) :
    Holds (claimOne (pendingKey r.queue r.priority) claimedKey now w (itoa lu.toInt)
      (keyPrefix ++ "job:") stateClaimedArg db id)
      (Function.update J id (some (claimRow w lu u r))) := by
  obtain ⟨h, hh, hr, _⟩ := H.hget hJ
  refine H.write (claimOne_touches id db _ _ _ _)
    (claimOne_rep H.rep (table_at hJ) (recOfRow_pending hs) now w lu.toInt) ?_ ?_
  · rintro _ ⟨⟩
    exact claimOne_hashRow id db hh hr _ now w lu u
  · rintro _ ⟨⟩
    exact Or.inr rfl

theorem ack_holds (hs : r.state = stateClaimed) : (ack id db).2 = "ok" ∧
    Holds (ack id db).1 (Function.update J id none) := by
  obtain ⟨hok, hrep⟩ := ack_rep H.rep (table_at hJ) (recOfRow_claimed hs)
  exact ⟨hok, H.write (ack_edit id db).touches hrep (fun _ h => nomatch h) (fun _ h => nomatch h)⟩

theorem cancel_holds (hs : r.state = statePending) :
    (cancel (pendingKey r.queue r.priority) id db).2 = "ok" ∧
      Holds (cancel (pendingKey r.queue r.priority) id db).1 (Function.update J id none) := by
  obtain ⟨hok, hrep⟩ := cancel_rep H.rep (table_at hJ) (recOfRow_pending hs)
  exact ⟨hok, H.write (cancel_edit id db _).touches hrep (fun _ h => nomatch h) (fun _ h => nomatch h)⟩

theorem reschedule_holds (hs : r.state = statePending) (t now : Time) (u : Int64) :
    (reschedule (pendingKey r.queue r.priority) id t now db).2 = "ok" ∧
      Holds (reschedule (pendingKey r.queue r.priority) id t now db).1
        (Function.update J id (some { r with runAt := toUnixNano t, updatedAt := u })) := by
  obtain ⟨h, hh, hr, hget⟩ := H.hget hJ
  obtain ⟨hok, hrep⟩ := reschedule_rep H.rep (table_at hJ) (recOfRow_pending hs) t now
  have hrow : recOfRow { r with runAt := toUnixNano t, updatedAt := u } =
      (recOfRow r).move (stamp t) := by
    rw [← toInt_toUnixNano]
    rfl
  have e : (reschedule (pendingKey r.queue r.priority) id t now db).1.hash (jobKey id) =
      (db.hset (jobKey id) [("run_at", formatTime t), ("updated_at", formatTime now)]).hash
        (jobKey id) := by
    unfold reschedule rescheduleScript
    rw [if_neg (by rw [hh]; simp), hget, hr.state, hs]
    rfl
  refine ⟨hok, H.write (reschedule_edit id db _ _ _).touches ?_ ?_ ?_⟩
  · rw [Option.map_some, hrow]
    exact hrep
  · rintro _ ⟨⟩
    refine ⟨_, e.trans (hash_hset_self ..), ?_⟩
    rw [hh]
    exact ⟨hr.id, hr.queue, hr.name, hr.payload, hr.codecName, hr.priority,
      congrArg some (formatTime_toInt t), hr.attempt, hr.maxAttempts, hr.state, hr.timeout,
      hr.lockedBy, hr.lockedUntil, hr.lastError, hr.recurringID, hr.createdAt⟩
  · rintro _ ⟨⟩
    exact Or.inl hs

theorem recoverOne_holds (lua : Lua) (hs : r.state = stateClaimed) (now : Int) (u : Int64) :
    (recoverOne lua claimedKey (keyPrefix ++ "job:") (keyPrefix ++ "pending:") statePendingArg now db
      id).2 = true ∧
    Holds (recoverOne lua claimedKey (keyPrefix ++ "job:") (keyPrefix ++ "pending:") statePendingArg
      now db id).1 (Function.update J id (some (releaseRow u r))) := by
  obtain ⟨h, hh, hr, hget⟩ := H.hget hJ
  obtain ⟨hok, hrep⟩ := recoverOne_rep H.rep (table_at hJ) lua (recOfRow_claimed hs) now
  have e : (recoverOne lua claimedKey (keyPrefix ++ "job:") (keyPrefix ++ "pending:")
      statePendingArg now db id).1.hash (jobKey id) =
      ((db.zrem claimedKey id).hset (jobKey id) [("state", statePendingArg), ("locked_by", ""),
        ("locked_until", "0"), ("updated_at", lua.tostring now)]).hash (jobKey id) := by
    unfold recoverOne
    rw [show keyPrefix ++ "job:" ++ id = jobKey id from rfl]
    simp only [hget, hr.queue, hr.priority, hr.runAt]
    rfl
  refine ⟨hok, H.write (recoverOne_touches id db lua now) hrep ?_ ?_⟩
  · rintro _ ⟨⟩
    refine ⟨_, e.trans (hash_hset_self ..), ?_⟩
    rw [show (db.zrem claimedKey id).hash (jobKey id) = some h from hh]
    exact ⟨hr.id, hr.queue, hr.name, hr.payload, hr.codecName, hr.priority, hr.runAt, hr.attempt,
      hr.maxAttempts, rfl, hr.timeout, rfl, congrArg some zero_eq, hr.lastError, hr.recurringID,
      hr.createdAt⟩
  · rintro _ ⟨⟩
    exact Or.inl rfl

end

/-! ## Fail -/

theorem toInt_succ {a : Int64} (h : (a.toInt + 1).natAbs < 100000000000000) :
    (a + 1).toInt = a.toInt + 1 := by
  rw [Int64.toInt_add]
  exact Int.bmod_eq_of_le (by simp; omega) (by simp; omega)

/-- the test of the script, in doubles, is the test of the SQL stores -/
theorem exhausted_iff {a m : Int64} (h : (a.toInt + 1).natAbs < 100000000000000) :
    (0 < Double.round m.toInt ∧ Double.round m.toInt ≤ a.toInt + 1) ↔ 0 < m ∧ m ≤ a + 1 := by
  rw [Double.round_pos, Double.round_le_iff _ (lt_trans h (by decide)), Int64.lt_iff_toInt_lt,
    Int64.le_iff_toInt_le, toInt_succ h]
  rfl

/-- what a retry writes, with the attempts printed by `itoa` -/
def retryFields (attempt : Int64) (msg : String) (t now : Time) : List (String × String) :=
  [("attempt", itoa attempt.toInt), ("last_error", msg), ("state", statePendingArg),
    ("run_at", formatTime t), ("locked_by", ""), ("locked_until", "0"), ("updated_at", formatTime now)]

section
variable {db : Db ρ} {id : JobID} {h : String → Option String} {r : Row}
  (hh : db.hash (jobKey id) = some h) (hr : HashRow h r)
include hh hr

/-- the script below fourteen digits of attempts -/
theorem failScript_eq (hs : r.state = stateClaimed)
    (ha : (r.attempt.toInt + 1).natAbs < 100000000000000) (bucket msg : String) (t now : Time) :
    fail lua51 bucket id msg t now db =
      if 0 < r.maxAttempts ∧ r.maxAttempts ≤ r.attempt + 1 then
        ((db.zrem claimedKey id).del (jobKey id), "ok")
      else
        (((db.zrem claimedKey id).hset (jobKey id) (retryFields (r.attempt + 1) msg t now)).zadd bucket
          (formatTime t) id, "ok") := by
  have hget : ∀ f, db.hget (jobKey id) f = h f := fun f => by rw [Db.hget, hh]; rfl
  have hattempt : lua51.tonumber (itoa r.attempt.toInt) = some r.attempt.toInt :=
    lua51.tonumber_itoa _ (by omega)
  have hmax : lua51.tonumber (itoa r.maxAttempts.toInt) = some (Double.round r.maxAttempts.toInt) :=
    Double.read_itoa _
  have hstate : ¬ some (itoa stateClaimed.toNat) ≠ some stateClaimedArg := not_not.mpr rfl
  unfold fail failScript
  rw [hget, hget, hget, hr.state, hr.attempt, hr.maxAttempts, Option.bind_some, Option.bind_some,
    hattempt, hmax, Option.getD_some, Option.getD_some, hs, if_neg hstate]
  dsimp only
  rw [lua51.tostring_eq _ ha, ← toInt_succ ha]
  exact ite_congr (propext (by rw [toInt_succ ha]; exact exhausted_iff ha)) (fun _ => rfl) fun _ => rfl

theorem retry_hashRow (bucket msg : String) (t now : Time) (u : Int64) :
    ∃ h', (((db.zrem claimedKey id).hset (jobKey id) (retryFields (r.attempt + 1) msg t now)).zadd bucket
      (formatTime t) id).hash (jobKey id) = some h' ∧ HashRow h' (retryRow msg (toUnixNano t) u r) := by
  refine ⟨_, hash_hset_self .., ?_⟩
  rw [show (db.zrem claimedKey id).hash (jobKey id) = some h from hh]
  exact ⟨hr.id, hr.queue, hr.name, hr.payload, hr.codecName, hr.priority,
    congrArg some (formatTime_toInt t), rfl, hr.maxAttempts, rfl, hr.timeout, rfl,
    congrArg some zero_eq, rfl, hr.recurringID, hr.createdAt⟩

end

theorem fail_holds {db : Db ρ} {J : Rows} {id : JobID} {r : Row} (H : Holds db J) (hJ : J id = some r)
    (hs : r.state = stateClaimed) (ha : (r.attempt.toInt + 1).natAbs < 100000000000000)
    (msg : String) (t now : Time) (u : Int64) :
    (fail lua51 (pendingKey r.queue r.priority) id msg t now db).2 = "ok" ∧
      Holds (fail lua51 (pendingKey r.queue r.priority) id msg t now db).1
        (Function.update J id (failRow msg (toUnixNano t) u r)) := by
  obtain ⟨h, hh, hr, _⟩ := H.hget hJ
  obtain ⟨hok, r', hr', hrep⟩ := fail_rep H.rep (table_at hJ) lua51 (recOfRow_claimed hs) msg t now
  refine ⟨hok, ?_⟩
  have htouch := (fail_edit id db lua51 (pendingKey r.queue r.priority) msg t now).touches
  have hat := hrep id
  rw [Function.update_self] at hat
  rw [failScript_eq hh hr hs ha] at hrep htouch hat ⊢
  unfold failRow
  by_cases hx : 0 < r.maxAttempts ∧ r.maxAttempts ≤ r.attempt + 1
  · rw [if_pos hx] at hrep htouch hat ⊢
    rw [if_pos hx]
    -- the hash is gone, so the record is
    rcases hr' with rfl | rfl
    · exact H.write htouch hrep (fun _ h => nomatch h) (fun _ h => nomatch h)
    · obtain ⟨⟨m, hm, _⟩, _⟩ := hat
      rw [hash_del_self] at hm
      cases hm
  · rw [if_neg hx] at hrep htouch hat ⊢
    rw [if_neg hx]
    rcases hr' with rfl | rfl
    · have hm : (((db.zrem claimedKey id).hset (jobKey id) _).zadd _ _ id).hash (jobKey id) = none :=
        hat.1
      rw [show ∀ d : Db ρ, ∀ k s, (d.zadd k s id).hash = d.hash from fun _ _ _ => rfl, hash_hset_self]
        at hm
      cases hm
    · have hrow : recOfRow (retryRow msg (toUnixNano t) u r) = (recOfRow r).retry (stamp t) := by
        rw [← toInt_toUnixNano]
        rfl
      refine H.write htouch (by rw [Option.map_some, hrow]; exact hrep) ?_ ?_
      · rintro _ ⟨⟩
        exact retry_hashRow hh hr _ msg t now u
      · rintro _ ⟨⟩
        exact Or.inl rfl

/-! ## the scripts with a loop -/

/-- the score of an instant.  The zero time is stored as `0`. -/
def Scores.ofTime (ρ : Scores) (t : Time) : Int := ρ.ofInt (toUnixNano t).toInt

/-- `isDue` in the numbers of the server -/
def Scores.isDue (ρ : Scores) (queue : String) (now : Int64) (r : Row) : Bool :=
  r.queue = queue ∧ r.state = statePending ∧ ρ.ofInt r.runAt.toInt ≤ ρ.ofInt now.toInt

/-- `RowLE` in the numbers of the server -/
def Scores.RowLE (ρ : Scores) (a b : Row) : Prop :=
  b.priority < a.priority ∨ a.priority = b.priority ∧ ρ.ofInt a.runAt.toInt ≤ ρ.ofInt b.runAt.toInt

section
variable {db : Db ρ} {J : Rows} (H : Holds db J)
include H

/-- the score of an ID in a bucket is what is kept of the `run_at` of its row -/
theorem Holds.score_iff {q : String} {p : Priority} {id : JobID} {s : Int} :
    (db.zset (pendingKey q p)).score id = some s ↔
      ∃ r, J id = some r ∧ r.state = statePending ∧ r.queue = q ∧ r.priority = p ∧
        ρ.ofInt r.runAt.toInt = s := by
  constructor
  · intro h
    obtain ⟨x, hx, hc, hq, hp, hs⟩ := pending_of_score H.rep h
    obtain ⟨r, hr, rfl⟩ := Option.map_eq_some_iff.mp hx
    refine ⟨r, hr, (H.live id r hr).resolve_right fun e => ?_, hq, hp, hs⟩
    rw [recOfRow_claimed e] at hc
    cases hc
  · rintro ⟨r, hr, hst, rfl, rfl, rfl⟩
    rw [(H.rep.at_some (table_at hr)).2, Rec.home, Rec.score, recOfRow_pending hst]
    exact if_pos rfl

theorem Holds.claimed_iff {id : JobID} {s : Int} : (db.zset claimedKey).score id = some s ↔
    ∃ r, J id = some r ∧ r.state = stateClaimed ∧ ρ.ofInt r.lockedUntil.toInt = s := by
  constructor
  · intro h
    obtain ⟨x, hx, hc, hs⟩ := claimed_of_score H.rep h
    obtain ⟨r, hr, rfl⟩ := Option.map_eq_some_iff.mp hx
    exact ⟨r, hr, of_decide_eq_true hc, hs⟩
  · rintro ⟨r, hr, hst, rfl⟩
    rw [(H.rep.at_some (table_at hr)).2, Rec.home, Rec.score, recOfRow_claimed hst]
    exact if_pos rfl

theorem Holds.mem_picks {q : String} {now : Time} {z id : String} :
    (z, id) ∈ picks (formatTime now) (priorityBuckets q) db ↔
      ∃ r, J id = some r ∧ ρ.isDue q (toUnixNano now) r ∧ r.priority ≤ 3 ∧
        z = pendingKey q r.priority := by
  unfold picks
  rw [formatTime_toInt, number_itoa]
  simp only [List.mem_flatMap, List.mem_map, Prod.mk.injEq, ZSet.mem_rangeByScore,
    Scores.isDue, decide_eq_true_eq]
  constructor
  · rintro ⟨_, hz, _, ⟨s, hs, _, hle⟩, rfl, rfl⟩
    obtain ⟨p, hp, rfl⟩ := mem_priorityBuckets.mp hz
    obtain ⟨r, hr, hst, hq, rfl, rfl⟩ := H.score_iff.mp hs
    exact ⟨r, hr, ⟨hq, hst, hle⟩, hp, rfl⟩
  · rintro ⟨r, hr, ⟨hq, hst, hle⟩, hp, rfl⟩
    refine ⟨_, mem_priorityBuckets.mpr ⟨_, hp, rfl⟩, id, ⟨ρ.ofInt r.runAt.toInt, ?_, ?_, hle⟩, rfl, rfl⟩
    · exact H.score_iff.mpr ⟨r, hr, hst, hq, rfl, rfl⟩
    · exact fun _ h => nomatch h

theorem Holds.mem_dueIDs {q : String} {now : Time} {id : JobID} : id ∈ dueIDs q now db ↔
    ∃ r, J id = some r ∧ ρ.isDue q (toUnixNano now) r ∧ r.priority ≤ 3 := by
  unfold dueIDs
  rw [List.mem_map]
  constructor
  · rintro ⟨⟨z, _⟩, h, rfl⟩
    obtain ⟨r, hr, hd, hp, _⟩ := H.mem_picks.mp h
    exact ⟨r, hr, hd, hp⟩
  · rintro ⟨r, hr, hd, hp⟩
    exact ⟨(_, id), H.mem_picks.mpr ⟨r, hr, hd, hp, rfl⟩, rfl⟩

theorem Holds.one_bucket (q : String) (p p' : Priority) (id : JobID) (s s' : Int)
    (h : (db.zset (pendingKey q p)).score id = some s)
    (h' : (db.zset (pendingKey q p')).score id = some s') : p = p' := by
  obtain ⟨r, hr, _, _, hp, _⟩ := H.score_iff.mp h
  obtain ⟨r', hr', _, _, hp', _⟩ := H.score_iff.mp h'
  rw [← hp, ← hp', Option.some.inj (hr.symm.trans hr')]

theorem Holds.nodup_dueIDs (q : String) (now : Time) : (dueIDs q now db).Nodup :=
  GS.Redis.nodup_dueIDs (H.one_bucket q) now

/-- a member of a bucket that is due is a row of its queue and priority -/
theorem Holds.row_of_range {q : String} {p : Priority} {now : Int} {id : JobID} {r : Row}
    (h : id ∈ (db.zset (pendingKey q p)).rangeByScore none now) (hr : J id = some r) :
    r.priority = p ∧ (db.zset (pendingKey q p)).score id = some (ρ.ofInt r.runAt.toInt) := by
  obtain ⟨s, hs, _⟩ := ZSet.mem_rangeByScore.mp h
  obtain ⟨r', hr', _, _, hp, rfl⟩ := H.score_iff.mp hs
  obtain rfl := Option.some.inj (hr.symm.trans hr')
  exact ⟨hp, hs⟩

/-- the claim script's order is the order of the SQL stores, in the numbers of the server -/
theorem Holds.sorted_dueIDs (q : String) (now : Time) : (dueIDs q now db).Pairwise fun a b =>
    ∀ x y, J a = some x → J b = some y → ρ.RowLE x y := by
  rw [dueIDs_eq, List.pairwise_flatMap]
  constructor
  · intro z hz
    obtain ⟨p, _, rfl⟩ := mem_priorityBuckets.mp hz
    refine (ZSet.sorted_rangeByScore _ _ _).imp_of_mem fun {a b} ha hb hle x y hx hy => ?_
    obtain ⟨hp, hs⟩ := H.row_of_range ha hx
    obtain ⟨hp', hs'⟩ := H.row_of_range hb hy
    exact Or.inr ⟨hp.trans hp'.symm, hle _ _ hs hs'⟩
  · refine (List.pairwise_map.mpr ?_ : ([priorityCritical, priorityHigh, priorityNormal,
      priorityLow].map (pendingKey q)).Pairwise _)
    have hdesc : [priorityCritical, priorityHigh, priorityNormal, priorityLow].Pairwise
        fun p p' => p' < p := by decide
    refine hdesc.imp fun hlt a ha b hb x y hx hy => Or.inl ?_
    rw [(H.row_of_range ha hx).1, (H.row_of_range hb hy).1]
    exact hlt

/-- **The script of `ClaimDue`**: the first `n` due IDs are claimed, as `claimUpdateSQL` does it. -/
theorem claim_holds (q : String) (now : Time) (n : Int) (w : String) (lu : Time) (u : Int64) :
    (claim q now n w lu db).2 = (dueIDs q now db).take n.toNat ∧
      Holds (claim q now n w lu db).1
        (mapOn J (claimRow w (toUnixNano lu) u) ((dueIDs q now db).take n.toNat)) := by
  refine ⟨claim_ids q now n w lu db, ?_⟩
  rw [← claim_ids q now n w lu db]
  refine claim_maps (K := fun z r => r.state = statePending ∧ z = pendingKey r.queue r.priority)
    (fun db J z id r H hJ hok => ?_) H (fun p id s hs => ?_) (H.one_bucket q) n
  · rw [hok.2, formatTime_toInt lu]
    exact claimOne_holds H hJ hok.1 _ w (toUnixNano lu) u
  · obtain ⟨r, hr, hst, rfl, rfl, _⟩ := H.score_iff.mp hs
    exact ⟨r, hr, hst, rfl⟩

theorem recoverStale_holds (lua : Lua) (clock : Int) (u : Int64) :
    (recoverStale lua clock db).2 = (db.zset claimedKey).rangeByScore (some 1) clock ∧
      Holds (recoverStale lua clock db).1
        (mapOn J (releaseRow u) ((db.zset claimedKey).rangeByScore (some 1) clock)) := by
  refine recoverStale_maps (K := fun r => r.state = stateClaimed)
    (fun db J id r H hJ hst => recoverOne_holds H hJ lua hst clock u) H fun id s hs => ?_
  obtain ⟨r, hr, hst, _⟩ := H.claimed_iff.mp hs
  exact ⟨r, hr, hst⟩

end

end GS.Redis
