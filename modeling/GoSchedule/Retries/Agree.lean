import GoSchedule.Redis.Rows
import GoSchedule.Retries.Rounds

/-!
# The stores retry a job equally often

The Redis store plays the rounds of `Retries.Rounds` too, and the three stores are compared.

* `Alone`       the server has the hash of one row, and that row's ID in the row's bucket while it is
  pending.  The claimed set is not compared: a claim and a failure never read it;
* `Apart`       a job that is not due at a round has a score that is not due either;
* `redis_eq`    the Redis store does to its row what the SQLite store does, as long as the scripts count
  attempts exactly and the scores tell the instants apart;
* `retries_agree_iff`   **the in-memory store agrees with the SQLite store exactly if `MaxAttempts` is not
  zero**, or the job is one that no round changes; the Redis store agrees for every `MaxAttempts`;
* `zero_retries_differ`   with `MaxAttempts` zero, three failures are the end in SQLite and Redis, and not
  in memory; and a failure 100 ns before the job is due counts in Redis alone.
-/

namespace GS.Retries
open Decimal Redis Sqlite

def Round.redisOps (id : JobID) (r : Round) : List Redis.Op :=
  [.claimDue r.queue r.now r.n r.workerID r.lockUntil, .fail id r.errMsg r.nextAttemptAt r.clock]

/-- the job in the Redis store, after its save and the rounds -/
def redis (j : Job) (rounds : List Round) : Option Left :=
  (((runCalls lua51 (Redis.Db.empty .double) (.save j :: rounds.flatMap (Round.redisOps j.id))).hash
    (jobKey j.id)).map deserializeJob).map left

/-! ## the Redis store -/

/-- the instants that the job is given, and the times of the rounds -/
def Apart (j : Job) (rounds : List Round) : Prop :=
  ∀ t ∈ j.runAt :: rounds.map Round.nextAttemptAt, ∀ r ∈ rounds,
    (toUnixNano r.now).toInt < (toUnixNano t).toInt → Scores.double.ofTime r.now < Scores.double.ofTime t

instance (j : Job) (rounds : List Round) : Decidable (Apart j rounds) :=
  inferInstanceAs (Decidable (∀ _ ∈ _, ∀ _ ∈ _, _ → _))

structure Alone (id : JobID) (db : Redis.Db .double) (o : Option Row) : Prop where
  hash : Option.Rel HashRow (db.hash (jobKey id)) o
  score : ∀ z m s, z ≠ claimedKey → ((db.zset z).score m = some s ↔
    m = id ∧ ∃ x, o = some x ∧ x.state = statePending ∧ z = pendingKey x.queue x.priority ∧
      s = Scores.double.ofInt x.runAt.toInt)
  declared : ∀ x, o = some x → x.priority ≤ 3

section
variable {id : JobID} {db : Redis.Db .double} {o : Option Row}

theorem Alone.hash_some {x : Row} (A : Alone id db (some x)) :
    ∃ h, db.hash (jobKey id) = some h ∧ HashRow h x := by
  have h := A.hash
  generalize db.hash (jobKey id) = k at h
  cases h with
  | some hr => exact ⟨_, rfl, hr⟩

theorem Alone.hash_none (A : Alone id db none) : db.hash (jobKey id) = none := by
  have h := A.hash
  generalize db.hash (jobKey id) = k at h
  cases h
  rfl

theorem alone_save {j : Job} (hp : j.priority ≤ 3) :
    Alone j.id (save j (Redis.Db.empty .double)) (some (rowOf j)) := by
  obtain ⟨h, hh, hr⟩ := save_hashRow (Redis.Db.empty .double) j
  refine ⟨by rw [hh]; exact .some hr, fun z m s _ => ?_, fun x hx => by cases hx; exact hp⟩
  have hstate : (normalize j).state = (rowOf j).state := rfl
  have hrun : (if (normalize j).runAt = zeroTime then 0 else unixNano (normalize j).runAt) =
      (rowOf j).runAt.toInt := (Redis.toInt_toUnixNano j.runAt).symm
  unfold save
  dsimp only
  rw [hstate, hrun]
  by_cases hs : (rowOf j).state = statePending
  · rw [if_pos hs, score_zadd, number_itoa]
    constructor
    · intro e
      split at e
      · next hc => exact ⟨hc.2, _, rfl, hs, hc.1, (Option.some.inj e).symm⟩
      · cases e
    · intro e
      obtain ⟨hm, x, hx, _, hz, hrun⟩ := e
      cases hx
      rw [if_pos ⟨hz, hm⟩, hrun]
  · rw [if_neg hs]
    refine ⟨fun e => (nomatch e), fun e => ?_⟩
    obtain ⟨_, x, hx, hs', _⟩ := e
    cases hx
    exact absurd hs' hs

/-- what is due in the buckets of a queue -/
theorem Alone.mem_picks (A : Alone id db o) {q : String} {now : Time} {p : String × String} :
    p ∈ picks (formatTime now) (priorityBuckets q) db ↔
      ∃ x, o = some x ∧ Scores.double.isDue q (toUnixNano now) x = true ∧
        p = (pendingKey x.queue x.priority, id) := by
  unfold picks
  simp only [List.mem_flatMap, List.mem_map, ZSet.mem_rangeByScore, Scores.isDue, decide_eq_true_eq]
  rw [formatTime_toInt, number_itoa]
  constructor
  · intro h
    obtain ⟨z, hz, m, ⟨s, hs, _, hle⟩, rfl⟩ := h
    have hc : z ≠ claimedKey := fun e => claimedKey_not_mem q (e ▸ hz)
    obtain ⟨rfl, x, hx, hp, rfl, rfl⟩ := (A.score z m s hc).mp hs
    obtain ⟨_, _, e⟩ := mem_priorityBuckets.mp hz
    exact ⟨x, hx, ⟨(pendingKey_inj e).1, hp, hle⟩, rfl⟩
  · intro h
    obtain ⟨x, hx, ⟨rfl, hp, hle⟩, rfl⟩ := h
    have hc := (claimedKey_ne x.queue x.priority).symm
    refine ⟨_, mem_priorityBuckets.mpr ⟨_, A.declared x hx, rfl⟩, id, ⟨_, ?_, ?_, hle⟩, rfl⟩
    · exact (A.score _ _ _ hc).mpr ⟨rfl, x, hx, hp, rfl, rfl⟩
    · intro lo e
      cases e

theorem Alone.nodup_picks (A : Alone id db o) (q : String) (now : Time) :
    (picks (formatTime now) (priorityBuckets q) db).Nodup := by
  refine List.Nodup.of_map Prod.snd (nodup_dueIDs (fun p p' i s s' h h' => ?_) now)
  obtain ⟨_, x, hx, _, hz, _⟩ := (A.score _ _ _ (claimedKey_ne q p).symm).mp h
  obtain ⟨_, x', hx', _, hz', _⟩ := (A.score _ _ _ (claimedKey_ne q p').symm).mp h'
  cases hx.symm.trans hx'
  exact (pendingKey_inj (hz.trans hz'.symm)).2

theorem alone_claimOne {x : Row} (A : Alone id db (some x)) (r : Round) :
    Alone id (claimOne (pendingKey x.queue x.priority) claimedKey (formatTime r.now) r.workerID
        (formatTime r.lockUntil) (keyPrefix ++ "job:") stateClaimedArg db id)
      (some (claimRow r.workerID (toUnixNano r.lockUntil) (toUnixNano r.now) x)) := by
  obtain ⟨h, hh, hr⟩ := A.hash_some
  rw [formatTime_toInt r.lockUntil]
  obtain ⟨h', hh', hr'⟩ := claimOne_hashRow id db hh hr (pendingKey x.queue x.priority)
    (formatTime r.now) r.workerID (toUnixNano r.lockUntil) (toUnixNano r.now)
  refine ⟨by rw [hh']; exact .some hr', fun z m s hz => ?_,
    fun y hy => by cases hy; exact A.declared x rfl⟩
  -- the ID was in the bucket of its row only, and is taken out of it
  have hgone : (((db.zrem (pendingKey x.queue x.priority) id).zadd claimedKey
      (itoa (toUnixNano r.lockUntil).toInt) id).zset z).score m ≠ some s := by
    rw [score_zadd, if_neg fun e => hz e.1, score_zrem]
    split
    · exact fun e => nomatch e
    · next hne =>
      intro e
      obtain ⟨hm, y, hy, _, hzy, _⟩ := (A.score z m s hz).mp e
      cases hy
      exact hne ⟨hzy, hm⟩
  refine ⟨fun e => absurd e hgone, fun e => ?_⟩
  obtain ⟨_, y, hy, hs, _⟩ := e
  cases hy
  exact absurd (show stateClaimed = statePending from hs) (by decide)

theorem alone_claim (A : Alone id db o) (r : Round) (hdue : ∀ x, o = some x →
      (Scores.double.isDue r.queue (toUnixNano r.now) x = true ↔
        isDue r.queue (toUnixNano r.now) x = true)) :
    Alone id (call lua51 db (.claimDue r.queue r.now r.n r.workerID r.lockUntil)).1
      (o.map (rowClaim r)) := by
  show Alone id (claim r.queue r.now r.n r.workerID r.lockUntil db).1 _
  unfold claim claimDueScript
  rw [claimBuckets_eq (nodup_priorityBuckets _) (claimedKey_not_mem _)]
  dsimp only
  by_cases hx : ∃ x, o = some x ∧ isDue r.queue (toUnixNano r.now) x = true
  · obtain ⟨x, rfl, hd⟩ := hx
    have hpicks : picks (formatTime r.now) (priorityBuckets r.queue) db =
        [(pendingKey x.queue x.priority, id)] := by
      refine List.perm_singleton.mp ((List.perm_ext_iff_of_nodup (A.nodup_picks _ _)
        (List.nodup_singleton _)).mpr fun p => ?_)
      rw [A.mem_picks, List.mem_singleton]
      constructor
      · intro h
        obtain ⟨y, hy, _, rfl⟩ := h
        cases hy
        rfl
      · exact fun h => ⟨x, rfl, (hdue x rfl).mpr hd, h⟩
    rw [hpicks, Option.map_some, rowClaim]
    by_cases hpos : 0 < r.n
    · rw [List.take_of_length_le (show 1 ≤ r.n.toNat by omega), if_pos ⟨hd, hpos⟩]
      exact alone_claimOne A r
    · rw [show r.n.toNat = 0 by omega, if_neg fun h => hpos h.2]
      exact A
  · have hpicks : picks (formatTime r.now) (priorityBuckets r.queue) db = [] := by
      refine List.eq_nil_iff_forall_not_mem.mpr fun p hp => ?_
      obtain ⟨x, h1, h2, _⟩ := A.mem_picks.mp hp
      exact hx ⟨x, h1, (hdue x h1).mp h2⟩
    have hsame : o.map (rowClaim r) = o := by
      cases o with
      | none => rfl
      | some x => exact congrArg some (if_neg fun h => hx ⟨x, rfl, h.1⟩)
    rw [hpicks, List.take_nil, hsame]
    exact A

theorem alone_fail (A : Alone id db o) (r : Round)
    (ha : ∀ x, o = some x → (x.attempt.toInt + 1).natAbs < 100000000000000) :
    Alone id (call lua51 db (.fail id r.errMsg r.nextAttemptAt r.clock)).1 (o.bind (rowFail r)) := by
  dsimp only [Redis.call]
  cases o with
  | none =>
    have hl : Redis.lookup id db = none := by
      unfold Redis.lookup Db.hget
      rw [A.hash_none]
      rfl
    unfold withBucket
    rw [hl]
    exact A
  | some x =>
    obtain ⟨h, hh, hr⟩ := A.hash_some
    unfold withBucket
    rw [lookup_hash hh hr.queue hr.priority]
    dsimp only [Option.bind_some]
    unfold rowFail failRow
    by_cases hs : x.state = stateClaimed
    · -- the ID of a claimed row is in no bucket
      have hnone : ∀ z m s, z ≠ claimedKey → (db.zset z).score m ≠ some s := by
        intro z m s hz e
        obtain ⟨_, y, hy, hp, _⟩ := (A.score z m s hz).mp e
        cases hy
        rw [hs] at hp
        exact absurd hp (by decide)
      have hrem : ∀ z m s, z ≠ claimedKey → ((db.zrem claimedKey id).zset z).score m ≠ some s := by
        intro z m s hz
        rw [score_zrem, if_neg fun e => hz e.1]
        exact hnone z m s hz
      rw [failScript_eq hh hr hs (ha x rfl), if_pos hs]
      by_cases hlast : 0 < x.maxAttempts ∧ x.maxAttempts ≤ x.attempt + 1
      · rw [if_pos hlast, if_pos hlast]
        refine ⟨?_, fun z m s hz => ⟨fun e => absurd e (hrem z m s hz), fun e => ?_⟩,
          fun y hy => nomatch hy⟩
        · dsimp only
          rw [hash_del_self]
          exact .none
        · obtain ⟨_, y, hy, _⟩ := e
          cases hy
      · rw [if_neg hlast, if_neg hlast]
        obtain ⟨h', hh', hr'⟩ := retry_hashRow hh hr (pendingKey x.queue x.priority) r.errMsg
          r.nextAttemptAt r.clock (toUnixNano r.clock)
        refine ⟨?_, fun z m s hz => ?_, fun y hy => by cases hy; exact A.declared x rfl⟩
        · dsimp only
          rw [hh']
          exact .some hr'
        · dsimp only
          rw [score_zadd, formatTime_toInt, number_itoa]
          constructor
          · intro e
            split at e
            · next hc => exact ⟨hc.2, _, rfl, rfl, hc.1, (Option.some.inj e).symm⟩
            · exact absurd e (hrem z m s hz)
          · intro e
            obtain ⟨hm, y, hy, _, hzy, hrun⟩ := e
            cases hy
            rw [if_pos ⟨hzy, hm⟩, hrun]
            rfl
    · have hmissing : fail lua51 (pendingKey x.queue x.priority) id r.errMsg r.nextAttemptAt r.clock db =
          (db, "missing") := by
        refine if_pos fun e => hs ?_
        rw [Db.hget, hh, Option.bind_some, hr.state] at e
        exact itoa_byte_inj (Option.some.inj e)
      rw [hmissing, if_neg hs]
      exact A

end

/-- a round adds one attempt at most -/
theorem rowRounds_attempt {x : Row} (h0 : x.attempt = 0) {rounds : List Round}
    (hk : rounds.length < 100000000000000) :
    ∀ y, rowRounds rounds x = some y → 0 ≤ y.attempt.toInt ∧ y.attempt.toInt ≤ rounds.length := by
  induction rounds using List.reverseRecOn with
  | nil =>
    intro y hy
    cases hy
    rw [h0]
    exact ⟨le_refl _, le_refl _⟩
  | append_singleton rounds r ih =>
    intro z hz
    rw [List.length_append, List.length_singleton] at hk
    rw [rowRounds_concat] at hz
    obtain ⟨y, hy, hz⟩ := Option.bind_eq_some_iff.mp hz
    obtain ⟨hlo, hhi⟩ := ih (by omega) y hy
    rw [List.length_append, List.length_singleton]
    push_cast
    rw [rowRound_eq] at hz
    split at hz
    · unfold failRow at hz
      split at hz
      · cases hz
      · cases hz
        show 0 ≤ (y.attempt + 1).toInt ∧ (y.attempt + 1).toInt ≤ _
        rw [toInt_succ (by omega)]
        omega
    · cases hz
      omega

/-- a row is due at the time it was saved with, or at one that a failure gave it -/
theorem rowRounds_runAt {x : Row} {rounds : List Round} : ∀ y, rowRounds rounds x = some y →
    y.runAt = x.runAt ∨ ∃ r ∈ rounds, y.runAt = toUnixNano r.nextAttemptAt := by
  induction rounds using List.reverseRecOn with
  | nil =>
    intro y hy
    cases hy
    exact Or.inl rfl
  | append_singleton rounds r ih =>
    intro z hz
    rw [rowRounds_concat] at hz
    obtain ⟨y, hy, hz⟩ := Option.bind_eq_some_iff.mp hz
    rw [rowRound_eq] at hz
    split at hz
    · unfold failRow at hz
      split at hz
      · cases hz
      · cases hz
        exact Or.inr ⟨r, by simp, rfl⟩
    · cases hz
      rcases ih _ hy with h | ⟨r', hr', h⟩
      · exact Or.inl h
      · exact Or.inr ⟨r', List.mem_append_left _ hr', h⟩

theorem Apart.init {j : Job} {rounds : List Round} {r : Round} (h : Apart j (rounds ++ [r])) :
    Apart j rounds := by
  intro t ht r' hr'
  refine h t ?_ r' (List.mem_append_left _ hr')
  rw [List.map_append, ← List.cons_append]
  exact List.mem_append_left _ ht

/-- in the last round the row is due by its score if it is due -/
theorem Apart.isDue_iff {j : Job} {rounds : List Round} {r : Round} (h : Apart j (rounds ++ [r])) {y : Row}
    (hy : rowRounds rounds (rowOf j) = some y) :
    Scores.double.isDue r.queue (toUnixNano r.now) y = true ↔
      isDue r.queue (toUnixNano r.now) y = true := by
  have hlt : (toUnixNano r.now).toInt < y.runAt.toInt →
      Scores.double.ofTime r.now < Scores.double.ofInt y.runAt.toInt := by
    rcases rowRounds_runAt y hy with e | ⟨r', hr', e⟩
    · rw [e]
      exact h _ List.mem_cons_self r (by simp)
    · rw [e]
      refine h _ (List.mem_cons_of_mem _ (List.mem_map_of_mem ?_)) r (by simp)
      exact List.mem_append_left _ hr'
  unfold Scores.isDue Sqlite.isDue
  rw [decide_eq_true_eq, decide_eq_true_eq, Int64.le_iff_toInt_le]
  refine and_congr_right' (and_congr_right' ⟨fun hle => ?_, Scores.double.mono⟩)
  by_contra hn
  exact absurd hle (not_le.mpr (hlt (not_le.mp hn)))

theorem alone_rounds {j : Job} (h0 : j.attempt = 0) (hp : j.priority ≤ 3) {rounds : List Round}
    (hk : rounds.length < 100000000000000) (ha : Apart j rounds) :
    Alone j.id (runCalls lua51 (Redis.Db.empty .double) (.save j :: rounds.flatMap (Round.redisOps j.id)))
      (rowRounds rounds (rowOf j)) := by
  induction rounds using List.reverseRecOn with
  | nil => exact alone_save hp
  | append_singleton rounds r ih =>
    rw [List.length_append, List.length_singleton] at hk
    have A := alone_claim (ih (by omega) ha.init) r fun _ hx => ha.isDue_iff hx
    have hbound : ∀ x, (rowRounds rounds (rowOf j)).map (rowClaim r) = some x →
        (x.attempt.toInt + 1).natAbs < 100000000000000 := by
      intro x hx
      obtain ⟨y, hy, rfl⟩ := Option.map_eq_some_iff.mp hx
      obtain ⟨hlo, hhi⟩ := rowRounds_attempt (show (rowOf j).attempt = 0 from h0) (by omega) y hy
      have e : (rowClaim r y).attempt = y.attempt := by
        unfold rowClaim
        split
        · rfl
        · rfl
      rw [e]
      omega
    have h := alone_fail A r hbound
    rw [Option.bind_map] at h
    rw [rowRounds_concat, List.flatMap_append, List.flatMap_singleton, ← List.cons_append]
    unfold runCalls at h ⊢
    rw [List.foldl_append]
    exact h

/-- **The Redis store plays the rounds on its row.** -/
theorem redis_eq {j : Job} (h0 : j.attempt = 0) (hp : j.priority ≤ 3) {rounds : List Round}
    (hk : rounds.length < 100000000000000) (ha : Apart j rounds) :
    redis j rounds = ((rowRounds rounds (rowOf j)).map scanJob).map left := by
  have A := alone_rounds h0 hp hk ha
  have hleft : ∀ j, left (seen j) = left j := fun j => by simp only [left, seen]
  unfold redis
  cases ho : rowRounds rounds (rowOf j) with
  | none =>
    rw [ho] at A
    rw [A.hash_none]
    rfl
  | some x =>
    rw [ho] at A
    obtain ⟨h, hh, hr⟩ := A.hash_some
    rw [hh, Option.map_some, Option.map_some, Option.map_some, Option.map_some, ← hleft, hr.seen_eq,
      hleft]

/-! ## the comparison -/

section
variable {x : Row}

/-- a row that is neither pending nor claimed stays as it is -/
theorem rowRounds_of_closed (h1 : x.state ≠ statePending) (h2 : x.state ≠ stateClaimed)
    (rounds : List Round) : rowRounds rounds x = some x := by
  induction rounds using List.reverseRecOn with
  | nil => rfl
  | append_singleton rounds r ih =>
    have hout : ¬ (x.state = stateClaimed ∨ isDue r.queue (toUnixNano r.now) x ∧ 0 < r.n) := by
      intro h
      rcases h with h | h
      · exact h2 h
      · exact h1 (of_decide_eq_true h.1).2.1
    rw [rowRounds_concat, ih, Option.bind_some, rowRound_eq, if_neg hout]

/-- a round at the end of the range of the columns, when every job of the queue is due -/
def lastRound (queue : String) : Round where
  queue := queue
  now := 9223372036854775807
  n := 1
  workerID := "w"
  lockUntil := 9223372036854775807
  errMsg := "boom"
  nextAttemptAt := 1
  clock := 1

theorem lastRound_plain (queue : String) : (lastRound queue).Plain where
  n_nonneg := Int.one_nonneg
  now_nonneg := show (0 : Int) ≤ 9223372036854775807 by decide
  now_le := le_refl _
  storable := show Storable 1 by decide

theorem rowRound_last (h : x.state = statePending ∨ x.state = stateClaimed) :
    rowRound (lastRound x.queue) x =
      if 0 < x.maxAttempts ∧ x.maxAttempts ≤ x.attempt + 1 then none
      else some (retryRow "boom" (toUnixNano 1) (toUnixNano 1) x) := by
  rw [rowRound_eq]
  refine if_pos ?_
  rcases h with h | h
  · have hle : x.runAt.toInt ≤ (toUnixNano 9223372036854775807).toInt := by
      rw [Sqlite.toInt_toUnixNano (by decide) (le_refl _)]
      exact Int64.toInt_le x.runAt
    exact Or.inr ⟨decide_eq_true ⟨rfl, h, Int64.le_iff_toInt_le.mpr hle⟩, Int.one_pos⟩
  · exact Or.inl h

/-- without a limit a row stays for ever -/
theorem rowRounds_unlimited (h : x.state = statePending ∨ x.state = stateClaimed)
    (hm : x.maxAttempts = 0) (k : Nat) :
    ∃ y, rowRounds (List.replicate k (lastRound x.queue)) x = some y ∧ y.queue = x.queue ∧
      (y.state = statePending ∨ y.state = stateClaimed) ∧ y.maxAttempts = 0 := by
  induction k with
  | zero => exact ⟨x, rfl, rfl, h, hm⟩
  | succ k ih =>
    obtain ⟨y, hy, hq, hs, hmy⟩ := ih
    have hround := rowRound_last hs
    rw [hmy, if_neg fun h => absurd h.1 (by decide), hq] at hround
    refine ⟨retryRow "boom" (toUnixNano 1) (toUnixNano 1) y, ?_, hq, Or.inl rfl, hmy⟩
    rw [List.replicate_succ', rowRounds_concat, hy, Option.bind_some, hround]

/-- with a limit of three it is gone after three failures -/
theorem rowRounds_three (h : x.state = statePending ∨ x.state = stateClaimed)
    (hm : x.maxAttempts = 3) (h0 : x.attempt = 0) :
    rowRounds (List.replicate 3 (lastRound x.queue)) x = none := by
  set retry := retryRow "boom" (toUnixNano 1) (toUnixNano 1) with hretry
  have h1 : rowRound (lastRound x.queue) x = some (retry x) := by
    rw [rowRound_last h, hm, h0]
    rfl
  have h2 : rowRound (lastRound x.queue) (retry x) = some (retry (retry x)) := by
    have e := rowRound_last (x := retry x) (Or.inl rfl)
    rw [show (retry x).maxAttempts = 3 from hm, show (retry x).attempt = x.attempt + 1 from rfl, h0] at e
    exact e
  have h3 : rowRound (lastRound x.queue) (retry (retry x)) = none := by
    have e := rowRound_last (x := retry (retry x)) (Or.inl rfl)
    rw [show (retry (retry x)).maxAttempts = 3 from hm,
      show (retry (retry x)).attempt = x.attempt + 1 + 1 from rfl, h0] at e
    exact e
  show (((rowRound (lastRound x.queue) x).bind _).bind _) = none
  rw [h1, Option.bind_some, h2, Option.bind_some, h3]

end

/-- **Which stores retry a job equally often.**  A job with no attempts is saved in empty stores and goes
through the same rounds.  The in-memory store agrees with the SQLite store in every history if and only
if `MaxAttempts` is not zero, or the job is neither pending nor claimed.  The Redis store agrees with the
SQLite store for a declared priority, limits that are numbers of its scripts, less than fifteen digits of
attempts, and instants that its scores tell apart. -/
theorem retries_agree_iff (j : Job) (h0 : j.attempt = 0) (hj : Storable j.runAt) :
    ((∀ rounds : List Round, (∀ r ∈ rounds, r.Plain) → memory j rounds = sqlite j rounds) ↔
      (j.maxAttempts = 0 → j.state ≠ statePending ∧ j.state ≠ stateClaimed)) ∧
    (j.priority ≤ priorityCritical → ∀ rounds : List Round,
      (∀ r ∈ rounds, 0 ≤ r.n ∧ r.n ≤ 2 ^ 53) → rounds.length < 100000000000000 →
        Apart j rounds → redis j rounds = sqlite j rounds) := by
  have hstate : (rowOf j).state = j.state := (alike_plainRow hj).state.symm
  refine ⟨⟨fun h hm => ?_, fun h rounds hr => ?_⟩, fun hp rounds hn hk ha => ?_⟩
  · by_contra hlive
    have hlive : j.state = statePending ∨ j.state = stateClaimed := by
      rw [not_and_or, not_not, not_not] at hlive
      exact hlive
    -- three rounds: the row of the SQLite store has the limit three, the job in memory has none
    set rounds := List.replicate 3 (lastRound j.queue)
    have hplain : ∀ r ∈ rounds, r.Plain := fun r hr => by
      rw [List.eq_of_mem_replicate hr]
      exact lastRound_plain j.queue
    have hgone : rowRounds rounds (rowOf j) = none := by
      refine rowRounds_three (hstate ▸ hlive) ?_ h0
      exact if_pos hm
    obtain ⟨y, hy, _⟩ := rowRounds_unlimited (x := plainRow j) (hstate ▸ hlive) hm 3
    have e := h rounds hplain
    rw [memory_eq hj hplain, sqlite_eq j fun r hr => (hplain r hr).n_nonneg, hgone,
      show rowRounds rounds (plainRow j) = some y from hy] at e
    cases e
  · rw [memory_eq hj hr, sqlite_eq j fun r hmem => (hr r hmem).n_nonneg]
    by_cases hm : j.maxAttempts = 0
    · obtain ⟨h1, h2⟩ := h hm
      rw [← hstate] at h1 h2
      rw [rowRounds_of_closed h1 h2, rowRounds_of_closed (x := plainRow j) h1 h2]
      rfl
    · have hrow : plainRow j = rowOf j := by
        unfold plainRow rowOf
        rw [if_neg hm]
      rw [hrow]
  · rw [redis_eq h0 hp hk ha, sqlite_eq j fun r hr => (hn r hr).1]

/-- a job that may be tried twice, and a round that fails it -/
def twice : Job := { id := "j", queue := "q", priority := 2, runAt := 5000, maxAttempts := 2 }

def boom (now : Time) : Round where
  queue := "q"
  now := now
  n := 10
  workerID := "w"
  lockUntil := now + 1000
  errMsg := "boom"
  nextAttemptAt := now + 2000
  clock := now

/-- one round leaves the job with one attempt in every store, a second one ends it -/
theorem retries_agree_twice :
    sqlite twice [boom 6000] = some ⟨1, "boom", 8000⟩ ∧ sqlite twice [boom 6000, boom 9000] = none ∧
      ∀ rounds ∈ [[boom 6000], [boom 6000, boom 9000]],
        memory twice rounds = sqlite twice rounds ∧ redis twice rounds = sqlite twice rounds := by
  obtain ⟨hmem, hredis⟩ := retries_agree_iff twice rfl (by decide)
  have hplain : ∀ rounds ∈ [[boom 6000], [boom 6000, boom 9000]], ∀ r ∈ rounds, r.Plain := by decide
  have hlimits : ∀ rounds ∈ [[boom 6000], [boom 6000, boom 9000]],
      (∀ r ∈ rounds, 0 ≤ r.n ∧ r.n ≤ 2 ^ 53) ∧ rounds.length < 100000000000000 ∧
        Apart twice rounds := by decide
  refine ⟨by decide +kernel, by decide +kernel, fun rounds h => ⟨?_, ?_⟩⟩
  · exact hmem.mpr (fun e => absurd e (by decide)) rounds (hplain rounds h)
  · obtain ⟨hn, hk, ha⟩ := hlimits rounds h
    exact hredis (by decide) rounds hn hk ha

/-- a job with no limit of its own -/
def unset : Job := { id := "j", queue := "q", priority := 2, runAt := 5000, maxAttempts := 0 }

/-- a job that is due 100 ns after its round -/
def early : Job :=
  { id := "j", queue := "q", priority := 2, runAt := 1767225600000000100, maxAttempts := 3 }

/-- **`MaxAttempts` zero** is three for the SQLite and the Redis store, and no limit in memory: after three
rounds the job is gone in two stores and pending in the third.  **A job that is not due** by less than
256 ns is claimed and failed in the Redis store, and left alone in the others. -/
theorem zero_retries_differ :
    memory unset [boom 6000, boom 9000, boom 12000] = some ⟨3, "boom", 14000⟩ ∧
      sqlite unset [boom 6000, boom 9000, boom 12000] = none ∧
      redis unset [boom 6000, boom 9000, boom 12000] = none ∧
      redis early [boom 1767225600000000000] = some ⟨1, "boom", 1767225600000002000⟩ ∧
      sqlite early [boom 1767225600000000000] = some ⟨0, "", 1767225600000000100⟩ ∧
      memory early [boom 1767225600000000000] = some ⟨0, "", 1767225600000000100⟩ := by
  refine ⟨?_, ?_, ?_, ?_, ?_, ?_⟩ <;> decide +kernel

end GS.Retries
