import GoSchedule.Redis.Loops

/-!
# The Redis store as one table

The store keeps a job in three places: its hash, one of the pending sets, the claimed set.  `Rec` is
what they say together about one job, a table is a map from IDs to `Rec`, and `Rep db T` says that the
server `db` holds exactly the table `T`: every hash has the fields of its record, and an ID is a member
of the one set where its record belongs, with what `ρ` keeps of the record's score.

* `Touches id db db'`   only the hash and the scores of `id` differ, kept by every command on `id`;
* `JobEdit`   all that the scripts of `Ack`, `Fail`, `Cancel` and `Reschedule` do to the server;
* `save_rep`, `claim_rep`, `ack_rep`, `fail_rep`, `cancel_rep`, `reschedule_rep`, `recoverStale_rep`
  what each atomic step does to the table.
-/

namespace GS.Redis
open Decimal MapOn

variable {ρ : Scores}

/-! ## records -/

structure Rec where
  queue : String
  priority : Priority
  runAt : Int
  claimed : Bool
  lockedBy : String
  lockedUntil : Int
deriving DecidableEq, Repr

namespace Rec

/-- the sorted set where the ID belongs, and its score there -/
def home (r : Rec) : String := if r.claimed then claimedKey else pendingKey r.queue r.priority

def score (r : Rec) : Int := if r.claimed then r.lockedUntil else r.runAt

def claim (w : String) (lu : Int) (r : Rec) : Rec :=
  { r with claimed := true, lockedBy := w, lockedUntil := lu }

def release (r : Rec) : Rec := { r with claimed := false, lockedBy := "", lockedUntil := 0 }

def retry (t : Int) (r : Rec) : Rec :=
  { r with claimed := false, lockedBy := "", lockedUntil := 0, runAt := t }

def move (t : Int) (r : Rec) : Rec := { r with runAt := t }

end Rec

abbrev Table := JobID → Option Rec

structure Fields (h : String → Option String) (r : Rec) : Prop where
  queue : h "queue" = some r.queue
  priority : h "priority" = some (itoa r.priority.toNat)
  runAt : h "run_at" = some (itoa r.runAt)
  state : h "state" = some (if r.claimed then stateClaimedArg else statePendingArg)
  lockedBy : h "locked_by" = some r.lockedBy
  lockedUntil : h "locked_until" = some (itoa r.lockedUntil)

def RepAt (db : Db ρ) (id : JobID) : Option Rec → Prop
  | none => db.hash (jobKey id) = none ∧ ∀ k, (db.zset k).score id = none
  | some r => (∃ h, db.hash (jobKey id) = some h ∧ Fields h r) ∧
      ∀ k, (db.zset k).score id = if k = r.home then some (ρ.ofInt r.score) else none

def Rep (db : Db ρ) (T : Table) : Prop := ∀ id, RepAt db id (T id)

theorem empty_rep : Rep (Db.empty ρ) fun _ => none := fun _ => ⟨rfl, fun _ => rfl⟩

/-! ## commands -/

/-- a field that HSET writes has a value that does not depend on the hash -/
theorem writeFields_of_mem {fs : List (String × String)} {f : String} (hf : f ∈ fs.map Prod.fst) :
    ∃ v, ∀ m, writeFields fs m f = some v := by
  unfold writeFields
  induction fs using List.reverseRecOn with
  | nil => exact absurd hf List.not_mem_nil
  | append_singleton fs p ih =>
    by_cases e : f = p.1
    · refine ⟨p.2, fun m => ?_⟩
      rw [List.foldl_append, e]
      exact Function.update_self ..
    · rw [List.map_append] at hf
      obtain ⟨v, hv⟩ := ih ((List.mem_append.mp hf).resolve_right fun h => e (List.mem_singleton.mp h))
      refine ⟨v, fun m => ?_⟩
      rw [List.foldl_append]
      exact (Function.update_of_ne e ..).trans (hv m)

theorem writeFields_of_not_mem {fs : List (String × String)} {f : String} (hf : f ∉ fs.map Prod.fst)
    (m : String → Option String) : writeFields fs m f = m f := by
  unfold writeFields
  induction fs generalizing m with
  | nil => rfl
  | cons x fs ih =>
    obtain ⟨hx, hfs⟩ := not_or.mp (mt List.mem_cons.mpr hf)
    exact (ih hfs _).trans (Function.update_of_ne hx ..)

section
variable (db : Db ρ)

theorem hash_hset_self (key : String) (fs : List (String × String)) :
    (db.hset key fs).hash key = some (writeFields fs ((db.hash key).getD fun _ => none)) :=
  Function.update_self ..

theorem hash_hset_ne {key key' : String} (h : key' ≠ key) (fs : List (String × String)) :
    (db.hset key fs).hash key' = db.hash key' := Function.update_of_ne h ..

theorem hash_del_self (key : String) : (db.del key).hash key = none := Function.update_self ..

theorem hash_del_ne {key key' : String} (h : key' ≠ key) : (db.del key).hash key' = db.hash key' :=
  Function.update_of_ne h ..

theorem score_zadd (key score m k m' : String) : ((db.zadd key score m).zset k).score m' =
    if k = key ∧ m' = m then some (ρ.number score) else (db.zset k).score m' := by
  unfold Db.zadd
  by_cases h : k = key
  · subst h
    simp only [Function.update_self, ZSet.score_add, true_and]
  · simp only [Function.update_of_ne h, h, false_and, if_false]

theorem score_zrem (key m k m' : String) : ((db.zrem key m).zset k).score m' =
    if k = key ∧ m' = m then none else (db.zset k).score m' := by
  unfold Db.zrem
  by_cases h : k = key
  · subst h
    simp only [Function.update_self, ZSet.score_rem, true_and]
  · simp only [Function.update_of_ne h, h, false_and, if_false]

end

theorem lookup_hash {db : Db ρ} {id : JobID} {h : String → Option String} {q : String} {p : Priority}
    (hh : db.hash (jobKey id) = some h) (hq : h "queue" = some q)
    (hp : h "priority" = some (itoa p.toNat)) : lookup id db = some (pendingKey q p) := by
  have hget : ∀ f, db.hget (jobKey id) f = h f := fun f => by rw [Db.hget, hh]; rfl
  rw [lookup, hget, hget, hq, hp]
  show some (pendingKey q (UInt8.ofInt (atoi (itoa p.toNat)).toInt)) = _
  rw [atoi_byte]

structure Touches (id : JobID) (db db' : Db ρ) : Prop where
  hash : ∀ id', id' ≠ id → db'.hash (jobKey id') = db.hash (jobKey id')
  score : ∀ k id', id' ≠ id → (db'.zset k).score id' = (db.zset k).score id'

section
variable {id : JobID} {db db' db'' : Db ρ}

theorem Touches.trans (h1 : Touches id db db') (h2 : Touches id db' db'') : Touches id db db'' :=
  ⟨fun i h => (h2.hash i h).trans (h1.hash i h), fun k i h => (h2.score k i h).trans (h1.score k i h)⟩

theorem touches_hset (fs : List (String × String)) : Touches id db (db.hset (jobKey id) fs) :=
  ⟨fun _ h => hash_hset_ne db (fun e => h (jobKey_inj e)) fs, fun _ _ _ => rfl⟩

theorem touches_del : Touches id db (db.del (jobKey id)) :=
  ⟨fun _ h => hash_del_ne db (fun e => h (jobKey_inj e)), fun _ _ _ => rfl⟩

theorem touches_zadd (key score : String) : Touches id db (db.zadd key score id) :=
  ⟨fun _ _ => rfl, fun k i h => by rw [score_zadd, if_neg (fun e => h e.2)]⟩

theorem touches_zrem (key : String) : Touches id db (db.zrem key id) :=
  ⟨fun _ _ => rfl, fun k i h => by rw [score_zrem, if_neg (fun e => h e.2)]⟩

end

/-! ## the scripts on one job -/

section
variable (id : JobID) (db : Db ρ)

theorem touches_refl : Touches id db db := ⟨fun _ _ => rfl, fun _ _ _ => rfl⟩

/-- a script that found a field finds the hash -/
theorem hash_ne_none {key f v : String} (h : db.hget key f = some v) : db.hash key ≠ none := by
  intro e
  unfold Db.hget at h
  rw [e] at h
  cases h

/-- the fields that only `Save` writes -/
def savedFields : List String :=
  ["id", "queue", "name", "payload", "codec_name", "priority", "max_attempts", "timeout_ns",
    "recurring_id", "created_at"]

/-- **All that a script on one job does**: nothing; or it removes the job; or it writes fields of the hash,
the time of the job among them, and adds the job with that time to a bucket of `B` -/
inductive JobEdit (B : Set String) (id : JobID) (db : Db ρ) : Db ρ → Prop
  | refused : JobEdit B id db db
  | removed (z : String) : JobEdit B id db ((db.zrem z id).del (jobKey id))
  | written {d : Db ρ} {fs : List (String × String)} {bucket : String} {t : Time}
      (hd : d = db ∨ d = db.zrem claimedKey id) (hne : db.hash (jobKey id) ≠ none)
      (hfs : ∀ f ∈ savedFields, f ∉ fs.map Prod.fst)
      (hrun : (d.hset (jobKey id) fs).hget (jobKey id) "run_at" = some (formatTime t))
      (hb : bucket ∈ B) :
      JobEdit B id db ((d.hset (jobKey id) fs).zadd bucket (formatTime t) id)

theorem ack_edit : JobEdit ∅ id db (ack id db).1 := by
  unfold ack ackScript
  split
  · exact .refused
  · exact .removed claimedKey

theorem fail_edit (lua : Lua) (bucket msg : String) (t now : Time) :
    JobEdit {bucket} id db (fail lua bucket id msg t now db).1 := by
  unfold fail failScript
  dsimp only
  split
  · exact .refused
  · next hst =>
    split
    · exact .removed claimedKey
    · refine .written (Or.inr rfl) (hash_ne_none db (not_not.mp hst)) (by simp [savedFields]) ?_ rfl
      rw [Db.hget, hash_hset_self]
      rfl

theorem cancel_edit (bucket : String) : JobEdit ∅ id db (cancel bucket id db).1 := by
  unfold cancel cancelScript
  split
  · exact .refused
  · split
    · exact .refused
    · exact .removed bucket

theorem reschedule_edit (bucket : String) (t now : Time) :
    JobEdit {bucket} id db (reschedule bucket id t now db).1 := by
  unfold reschedule rescheduleScript
  split
  · exact .refused
  · next hne =>
    split
    · exact .refused
    · refine .written (Or.inl rfl) hne (by simp [savedFields]) ?_ rfl
      rw [Db.hget, hash_hset_self]
      rfl

end

section
variable {id : JobID} {db db' : Db ρ}

theorem JobEdit.touches {B : Set String} (h : JobEdit B id db db') : Touches id db db' := by
  cases h with
  | refused => exact touches_refl id db
  | removed z => exact (touches_zrem z).trans touches_del
  | written hd =>
    refine Touches.trans ?_ ((touches_hset _).trans (touches_zadd _ _))
    rcases hd with rfl | rfl
    · exact touches_refl id _
    · exact touches_zrem claimedKey

/-- a step that touches one ID writes one record of the table -/
theorem Rep.write {T : Table} {r : Option Rec} (R : Rep db T) (tc : Touches id db db')
    (h : RepAt db' id r) : Rep db' (Function.update T id r) := by
  intro i
  by_cases e : i = id
  · subst e
    rw [Function.update_self]
    exact h
  · rw [Function.update_of_ne e]
    have hi := R i
    cases hT : T i with
    | none =>
      rw [hT] at hi
      exact ⟨(tc.hash i e).trans hi.1, fun k => (tc.score k i e).trans (hi.2 k)⟩
    | some x =>
      rw [hT] at hi
      obtain ⟨⟨m, hm, hf⟩, hs⟩ := hi
      exact ⟨⟨m, (tc.hash i e).trans hm, hf⟩, fun k => (tc.score k i e).trans (hs k)⟩

end

/-! ## Save -/

/-- the record of a job that is saved as pending -/
def recOf (j : Job) : Rec :=
  ⟨j.queue, j.priority, stamp j.runAt, false, j.lockedBy, stamp j.lockedUntil⟩

theorem save_rep {db : Db ρ} {T : Table} (R : Rep db T) {j : Job} (hT : T j.id = none)
    (hs : j.state = statePending) : Rep (save j db) (Function.update T j.id (some (recOf j))) := by
  have hold := R j.id
  rw [hT] at hold
  have hn : (normalize j).state = statePending := by
    show (if j.state = 0 then statePending else j.state) = statePending
    rw [hs]
    rfl
  have e : save j db = (db.hset (jobKey j.id) (serializeJob (normalize j))).zadd
      (pendingKey j.queue j.priority) (itoa (stamp j.runAt)) j.id := if_pos hn
  rw [e]
  refine R.write ((touches_hset _).trans (touches_zadd _ _)) ⟨⟨_, hash_hset_self .., ?_⟩, fun k => ?_⟩
  · rw [hold.1]
    refine ⟨rfl, rfl, ?_, ?_, rfl, ?_⟩
    · exact congrArg some (formatTime_eq j.runAt)
    · show some (itoa (normalize j).state.toNat) = _
      rw [hn]
      rfl
    · exact congrArg some (formatTime_eq j.lockedUntil)
  · rw [score_zadd, number_itoa]
    show (if k = pendingKey j.queue j.priority ∧ j.id = j.id then _ else (db.zset k).score j.id) = _
    rw [hold.2 k]
    simp [recOf, Rec.home, Rec.score]

/-! ## one job of a claim -/

section
variable {db : Db ρ} {T : Table} (R : Rep db T) {id : JobID} {r : Rec} (hT : T id = some r)
include R hT

theorem Rep.at_some : (∃ h, db.hash (jobKey id) = some h ∧ Fields h r) ∧
    ∀ k, (db.zset k).score id = if k = r.home then some (ρ.ofInt r.score) else none := by
  have h := R id
  rwa [hT] at h

theorem Rep.state : db.hget (jobKey id) "state" =
    some (if r.claimed then stateClaimedArg else statePendingArg) := by
  obtain ⟨⟨h, hh, hf⟩, _⟩ := R.at_some hT
  rw [Db.hget, hh]
  exact hf.state

/-- after the ID is taken out of its set it is in none -/
theorem score_zrem_home (k : String) : ((db.zrem r.home id).zset k).score id = none := by
  rw [score_zrem, (R.at_some hT).2 k]
  by_cases h : k = r.home
  · simp [h]
  · simp [h]

theorem claimOne_rep (hc : r.claimed = false) (now w : String) (lu : Int) :
    Rep (claimOne (pendingKey r.queue r.priority) claimedKey now w (itoa lu) (keyPrefix ++ "job:")
      stateClaimedArg db id) (Function.update T id (some (r.claim w lu))) := by
  have hhome : r.home = pendingKey r.queue r.priority := by simp [Rec.home, hc]
  obtain ⟨⟨h, hh, hf⟩, _⟩ := R.at_some hT
  unfold claimOne
  rw [show keyPrefix ++ "job:" ++ id = jobKey id from rfl]
  refine R.write (((touches_zrem _).trans (touches_zadd _ _)).trans (touches_hset _))
    ⟨⟨_, hash_hset_self .., ?_⟩, fun k => ?_⟩
  · rw [show ((db.zrem (pendingKey r.queue r.priority) id).zadd claimedKey (itoa lu) id).hash
      (jobKey id) = some h from hh]
    exact ⟨hf.queue, hf.priority, hf.runAt, rfl, rfl, rfl⟩
  · show (((db.zrem (pendingKey r.queue r.priority) id).zadd claimedKey (itoa lu) id).zset k).score
      id = _
    rw [score_zadd, number_itoa, ← hhome, score_zrem_home R hT]
    simp [Rec.claim, Rec.home, Rec.score]

/-! ## Ack, Fail, Cancel, Reschedule on a record -/

theorem ack_rep (hc : r.claimed = true) : (ack id db).2 = "ok" ∧
    Rep (ack id db).1 (Function.update T id none) := by
  have hhome : r.home = claimedKey := by simp [Rec.home, hc]
  have e : ack id db = ((db.zrem claimedKey id).del (jobKey id), "ok") := by
    unfold ack ackScript
    rw [R.state hT, hc]
    exact if_neg (not_not.mpr rfl)
  rw [e]
  refine ⟨rfl, R.write ((touches_zrem _).trans touches_del) ⟨hash_del_self .., fun k => ?_⟩⟩
  exact hhome ▸ score_zrem_home R hT k

theorem fail_rep (lua : Lua) (hc : r.claimed = true) (msg : String) (t now : Time) :
    (fail lua (pendingKey r.queue r.priority) id msg t now db).2 = "ok" ∧
      ∃ r', (r' = none ∨ r' = some (r.retry (stamp t))) ∧
        Rep (fail lua (pendingKey r.queue r.priority) id msg t now db).1
          (Function.update T id r') := by
  have hhome : r.home = claimedKey := by simp [Rec.home, hc]
  obtain ⟨⟨h, hh, hf⟩, _⟩ := R.at_some hT
  have hstate : ¬ db.hget (jobKey id) "state" ≠ some stateClaimedArg := by
    rw [R.state hT, hc]
    exact not_not.mpr rfl
  unfold fail failScript
  rw [if_neg hstate]
  dsimp only
  split
  · refine ⟨rfl, none, Or.inl rfl, R.write ((touches_zrem _).trans touches_del)
      ⟨hash_del_self .., fun k => ?_⟩⟩
    exact hhome ▸ score_zrem_home R hT k
  · refine ⟨rfl, _, Or.inr rfl, R.write (((touches_zrem _).trans (touches_hset _)).trans
      (touches_zadd _ _)) ⟨⟨_, hash_hset_self .., ?_⟩, fun k => ?_⟩⟩
    · rw [show (db.zrem claimedKey id).hash (jobKey id) = some h from hh, formatTime_eq]
      exact ⟨hf.queue, hf.priority, rfl, rfl, rfl, rfl⟩
    · rw [score_zadd, formatTime_eq, number_itoa]
      show (if _ then _ else ((db.zrem claimedKey id).zset k).score id) = _
      rw [← hhome, score_zrem_home R hT]
      simp [Rec.retry, Rec.home, Rec.score]

theorem cancel_rep (hc : r.claimed = false) :
    (cancel (pendingKey r.queue r.priority) id db).2 = "ok" ∧
      Rep (cancel (pendingKey r.queue r.priority) id db).1 (Function.update T id none) := by
  have hhome : r.home = pendingKey r.queue r.priority := by simp [Rec.home, hc]
  obtain ⟨⟨h, hh, _⟩, _⟩ := R.at_some hT
  have e : cancel (pendingKey r.queue r.priority) id db =
      ((db.zrem (pendingKey r.queue r.priority) id).del (jobKey id), "ok") := by
    unfold cancel cancelScript
    rw [if_neg (by rw [hh]; simp), R.state hT, hc]
    exact if_neg (not_not.mpr rfl)
  rw [e]
  refine ⟨rfl, R.write ((touches_zrem _).trans touches_del) ⟨hash_del_self .., fun k => ?_⟩⟩
  exact hhome ▸ score_zrem_home R hT k

theorem reschedule_rep (hc : r.claimed = false) (t now : Time) :
    (reschedule (pendingKey r.queue r.priority) id t now db).2 = "ok" ∧
      Rep (reschedule (pendingKey r.queue r.priority) id t now db).1
        (Function.update T id (some (r.move (stamp t)))) := by
  obtain ⟨⟨h, hh, hf⟩, hs⟩ := R.at_some hT
  have e : reschedule (pendingKey r.queue r.priority) id t now db =
      ((db.hset (jobKey id) [("run_at", formatTime t), ("updated_at", formatTime now)]).zadd
        (pendingKey r.queue r.priority) (formatTime t) id, "ok") := by
    unfold reschedule rescheduleScript
    rw [if_neg (by rw [hh]; simp), R.state hT, hc]
    exact if_neg (not_not.mpr rfl)
  rw [e]
  refine ⟨rfl, R.write ((touches_hset _).trans (touches_zadd _ _))
    ⟨⟨_, hash_hset_self .., ?_⟩, fun k => ?_⟩⟩
  · rw [hh, formatTime_eq]
    refine ⟨hf.queue, hf.priority, rfl, ?_, hf.lockedBy, hf.lockedUntil⟩
    exact hf.state
  · rw [score_zadd, formatTime_eq, number_itoa]
    show (if _ then _ else (db.zset k).score id) = _
    rw [hs k]
    by_cases hk : k = pendingKey r.queue r.priority
    · simp [hk, Rec.move, Rec.home, Rec.score, hc]
    · simp [hk, Rec.move, Rec.home, hc]

theorem recoverOne_rep (lua : Lua) (hc : r.claimed = true) (now : Int) :
    (recoverOne lua claimedKey (keyPrefix ++ "job:") (keyPrefix ++ "pending:") statePendingArg now
      db id).2 = true ∧
    Rep (recoverOne lua claimedKey (keyPrefix ++ "job:") (keyPrefix ++ "pending:") statePendingArg
      now db id).1 (Function.update T id (some r.release)) := by
  have hhome : r.home = claimedKey := by simp [Rec.home, hc]
  obtain ⟨⟨h, hh, hf⟩, _⟩ := R.at_some hT
  have hget : ∀ f, db.hget (jobKey id) f = h f := fun f => by rw [Db.hget, hh]; rfl
  have e : recoverOne lua claimedKey (keyPrefix ++ "job:") (keyPrefix ++ "pending:")
      statePendingArg now db id =
      (((db.zrem claimedKey id).hset (jobKey id) [("state", statePendingArg), ("locked_by", ""),
        ("locked_until", "0"), ("updated_at", lua.tostring now)]).zadd
        (pendingKey r.queue r.priority) (itoa r.runAt) id, true) := by
    unfold recoverOne
    rw [show keyPrefix ++ "job:" ++ id = jobKey id from rfl]
    simp only [hget, hf.queue, hf.priority, hf.runAt]
    rfl
  rw [e]
  refine ⟨rfl, R.write (((touches_zrem _).trans (touches_hset _)).trans (touches_zadd _ _))
    ⟨⟨_, hash_hset_self .., ?_⟩, fun k => ?_⟩⟩
  · rw [show (db.zrem claimedKey id).hash (jobKey id) = some h from hh]
    exact ⟨hf.queue, hf.priority, hf.runAt, rfl, rfl, rfl⟩
  · rw [score_zadd, number_itoa]
    show (if _ then _ else ((db.zrem claimedKey id).zset k).score id) = _
    rw [← hhome, score_zrem_home R hT]
    simp [Rec.release, Rec.home, Rec.score]

/-- the lookup finds the bucket of the job -/
theorem lookup_rep : lookup id db = some (pendingKey r.queue r.priority) := by
  obtain ⟨⟨h, hh, hf⟩, _⟩ := R.at_some hT
  exact lookup_hash hh hf.queue hf.priority

end

/-! ## calls that find nothing to do -/

theorem arg_ne : statePendingArg ≠ stateClaimedArg := by decide

section
variable {db : Db ρ} {T : Table} (R : Rep db T) {id : JobID}
include R

theorem Rep.hget_none (hT : T id = none) (f : String) : db.hget (jobKey id) f = none := by
  have h := R id
  rw [hT] at h
  rw [Db.hget, h.1]
  rfl

theorem lookup_none (hT : T id = none) : lookup id db = none := by
  rw [lookup, R.hget_none hT "queue"]
  rfl

/-- a job that is missing or pending is not claimed, by the test of `Ack` and `Fail` -/
theorem not_claimed (h : ∀ r, T id = some r → r.claimed = false) :
    db.hget (jobKey id) "state" ≠ some stateClaimedArg := by
  cases hT : T id with
  | none =>
    rw [R.hget_none hT]
    simp
  | some r =>
    rw [R.state hT, h r hT]
    exact fun e => arg_ne (Option.some.inj e)

theorem ack_missing (h : ∀ r, T id = some r → r.claimed = false) :
    ack id db = (db, "missing") := if_pos (not_claimed R h)

theorem fail_missing (h : ∀ r, T id = some r → r.claimed = false) (lua : Lua) (bucket msg : String)
    (t now : Time) : fail lua bucket id msg t now db = (db, "missing") := if_pos (not_claimed R h)

/-- a job that is missing or claimed is not pending, by the test of `Cancel` and `Reschedule` -/
theorem not_pending (h : ∀ r, T id = some r → r.claimed = true) :
    db.hget (jobKey id) "state" ≠ some statePendingArg := by
  cases hT : T id with
  | none =>
    rw [R.hget_none hT]
    simp
  | some r =>
    rw [R.state hT, h r hT]
    exact fun e => arg_ne (Option.some.inj e).symm

/-- `Cancel` and `Reschedule` leave such a job alone -/
theorem cancel_refused (h : ∀ r, T id = some r → r.claimed = true) (bucket : String) :
    (cancel bucket id db).1 = db ∧ (cancel bucket id db).2 ≠ "ok" := by
  unfold cancel cancelScript
  split
  · exact ⟨rfl, by simp⟩
  · rw [if_pos (not_pending R h)]
    exact ⟨rfl, by simp⟩

theorem reschedule_refused (h : ∀ r, T id = some r → r.claimed = true) (bucket : String)
    (t now : Time) : (reschedule bucket id t now db).1 = db ∧
      (reschedule bucket id t now db).2 ≠ "ok" := by
  unfold reschedule rescheduleScript
  split
  · exact ⟨rfl, by simp⟩
  · rw [if_pos (not_pending R h)]
    exact ⟨rfl, by simp⟩

end

/-! ## the two scripts with a loop -/

/-- the members of a pending set are the pending records of its queue and priority -/
theorem pending_of_score {db : Db ρ} {T : Table} (R : Rep db T) {q : String} {p : Priority} {id : JobID}
    {s : Int} (h : (db.zset (pendingKey q p)).score id = some s) :
    ∃ r, T id = some r ∧ r.claimed = false ∧ r.queue = q ∧ r.priority = p ∧ ρ.ofInt r.runAt = s := by
  have hR := R id
  cases hT : T id with
  | none =>
    rw [hT] at hR
    rw [hR.2] at h
    cases h
  | some r =>
    rw [hT] at hR
    rw [hR.2] at h
    by_cases hk : pendingKey q p = r.home
    · rw [if_pos hk] at h
      cases hc : r.claimed with
      | true =>
        rw [Rec.home, hc] at hk
        exact absurd hk.symm (claimedKey_ne q p)
      | false =>
        rw [Rec.home, hc] at hk
        obtain ⟨h1, h2⟩ := pendingKey_inj hk
        refine ⟨r, rfl, hc, h1.symm, h2.symm, ?_⟩
        rw [Rec.score, hc] at h
        exact Option.some.inj h
    · rw [if_neg hk] at h
      cases h

theorem claimed_of_score {db : Db ρ} {T : Table} (R : Rep db T) {id : JobID} {s : Int}
    (h : (db.zset claimedKey).score id = some s) :
    ∃ r, T id = some r ∧ r.claimed = true ∧ ρ.ofInt r.lockedUntil = s := by
  have hR := R id
  cases hT : T id with
  | none =>
    rw [hT] at hR
    rw [hR.2] at h
    cases h
  | some r =>
    rw [hT] at hR
    rw [hR.2] at h
    by_cases hk : claimedKey = r.home
    · rw [if_pos hk] at h
      cases hc : r.claimed with
      | true =>
        rw [Rec.score, hc] at h
        exact ⟨r, rfl, hc, Option.some.inj h⟩
      | false =>
        rw [Rec.home, hc] at hk
        exact absurd hk (claimedKey_ne _ _)
    · rw [if_neg hk] at h
      cases h

/-- **The script of `ClaimDue`** claims pending records of the queue, each once. -/
theorem claim_rep {db : Db ρ} {T : Table} (R : Rep db T) (q : String) (now : Time) (n : Int)
    (w : String) (lu : Time) : ∃ db' ids, claim q now n w lu db = (db', ids) ∧
      Rep db' (mapOn T (Rec.claim w (stamp lu)) ids) ∧ ids.Nodup ∧
      ∀ id ∈ ids, ∃ r, T id = some r ∧ r.claimed = false ∧ r.queue = q := by
  have hone : ∀ p p' id s s', (db.zset (pendingKey q p)).score id = some s →
      (db.zset (pendingKey q p')).score id = some s' → p = p' := by
    intro p p' id s s' h h'
    obtain ⟨r, hr, _, _, hp, _⟩ := pending_of_score R h
    obtain ⟨r', hr', _, _, hp', _⟩ := pending_of_score R h'
    rw [← hp, ← hp', Option.some.inj (hr.symm.trans hr')]
  refine ⟨_, _, rfl, ?_, nodup_claim hone now n w lu, fun id hid => ?_⟩
  · refine claim_maps (K := fun z r => r.claimed = false ∧ z = pendingKey r.queue r.priority)
      (fun db T z id r R hT hok => ?_) R (fun p id s hs => ?_) hone n
    · rw [hok.2, formatTime_eq lu]
      exact claimOne_rep R hT hok.1 _ w (stamp lu)
    · obtain ⟨r, hr, hc, rfl, rfl, _⟩ := pending_of_score R hs
      exact ⟨r, hr, hc, rfl⟩
  · obtain ⟨p, s, hs⟩ := score_of_claim hid
    obtain ⟨r, hr, hc, hq, _⟩ := pending_of_score R hs
    exact ⟨r, hr, hc, hq⟩

/-- **The script of `RecoverStale`** releases the claimed records whose lock has run out. -/
theorem recoverStale_rep {db : Db ρ} {T : Table} (R : Rep db T) (lua : Lua) (now : Int) :
    ∃ db' ids, recoverStale lua now db = (db', ids) ∧ Rep db' (mapOn T Rec.release ids) ∧
      ∀ id ∈ ids, ∃ r, T id = some r ∧ r.claimed = true ∧ ρ.ofInt r.lockedUntil ≤ now := by
  obtain ⟨hids, hrep⟩ := recoverStale_maps (K := fun r => r.claimed = true)
    (fun db T id r R hT hc => recoverOne_rep R hT lua hc now) R fun id s hs => by
      obtain ⟨r, hr, hc, _⟩ := claimed_of_score R hs
      exact ⟨r, hr, hc⟩
  refine ⟨_, (db.zset claimedKey).rangeByScore (some 1) now, Prod.ext rfl hids, hrep, fun id hid => ?_⟩
  obtain ⟨s, hs, _, hle⟩ := ZSet.mem_rangeByScore.mp hid
  obtain ⟨r, h1, h2, h3⟩ := claimed_of_score R hs
  exact ⟨r, h1, h2, h3 ▸ hle⟩

end GS.Redis
