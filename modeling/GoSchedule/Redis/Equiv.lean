import GoSchedule.Redis.Rows

/-!
# The Redis store behaves as one table

The hashes, the four buckets of a queue and the claimed set against one flat table of jobs with the
operations of the SQLite store.

* `Flat.Step ρ`  one call on the table.  A claim takes the first `n` due rows by priority and `run_at`,
  where rows that are equal in both come in any order; a recovery takes the claimed rows whose lock has
  run out by the server's clock.  Instants are compared by their scores, and so as they are if the scores
  are exact;
* `Legal`        the calls that are compared;
* `Same`         the table holds the rows of the server;
* `same_simulates`   every legal call is one of the table;
* `calls_match_table`   **with exact scores, what any sequence of legal calls returns and stores is what
  the table returns and stores**.

The scripts count attempts in doubles and print them with fourteen digits.  `fourteen_digits` shows
where that ends: a job with 99999999999999 attempts that fails is stored with `1e+14`, which the client
reads as zero.
-/

namespace GS.Redis
open Decimal MapOn Sim Sqlite

variable {ρ : Scores}

def Res.seen : Res → Res
  | .err e => .err e
  | .jobs l => .jobs (l.map Redis.seen)
  | .count n => .count n

/-! ## the table -/

namespace Flat

inductive Step (ρ : Scores) (t : Sqlite.Db) : Op → Res → Sqlite.Db → Prop
  | save (j : Job) : Step ρ t (.save j) (.err none) (t.save j)
  | claimDue {q : String} {now : Time} {n : Int} {w : String} {lu : Time} {L : List Row}
      (h : Keyed.Top ρ.RowLE n.toNat (t.jobs.rows.filter (ρ.isDue q (toUnixNano now))) L) :
      Step ρ t (.claimDue q now n w lu) (.jobs (L.map (claimedJob now w lu)))
        (t.claimRows (L.map Row.id) w (toUnixNano lu) (toUnixNano now))
  | ack (id : JobID) : Step ρ t (.ack id) (.err (t.ack id).2) (t.ack id).1
  | fail (id : JobID) (msg : String) (at' now : Time) :
      Step ρ t (.fail id msg at' now) (.err (t.fail id msg at' now).2) (t.fail id msg at' now).1
  | cancel (id : JobID) : Step ρ t (.cancel id) (.err (t.cancel id).2) (t.cancel id).1
  | reschedule (id : JobID) (at' now : Time) :
      Step ρ t (.reschedule id at' now) (.err (t.reschedule id at' now).2)
        (t.reschedule id at' now).1
  | recoverStale (clock : Int) (now : Int64) :
      Step ρ t (.recoverStale clock)
        (.count (t.recover (fun lu => 1 ≤ lu.toInt ∧ ρ.ofInt lu.toInt ≤ clock) now).2)
        (t.recover (fun lu => 1 ≤ lu.toInt ∧ ρ.ofInt lu.toInt ≤ clock) now).1
  | queueSize (q : String) : Step ρ t (.queueSize q) (.count (t.queueSize q)) t

theorem isDue_exact (q : String) (now : Int64) : Scores.exact.isDue q now = isDue q now := by
  funext r
  exact decide_eq_decide.mpr (and_congr_right' (and_congr_right' Int64.le_iff_toInt_le.symm))

theorem rowLE_exact : Scores.exact.RowLE = RowLE := by
  funext a b
  unfold Scores.RowLE RowLE
  rw [Int64.le_iff_toInt_le]
  rfl

/-- with exact scores, the claim of the SQLite store is one of these -/
theorem step_claimDue (t : Sqlite.Db) (q : String) (now : Time) {n : Int} (hn : 0 ≤ n) (w : String)
    (lu : Time) : Step .exact t (.claimDue q now n w lu) (.jobs (t.claimDue q now n w lu).2)
      (t.claimDue q now n w lu).1 := by
  have e : t.claimSelect q (toUnixNano now) n =
      ((t.jobs.rows.filter (isDue q (toUnixNano now))).insertionSort RowLE).take n.toNat :=
    if_neg (not_lt.mpr hn)
  unfold Sqlite.Db.claimDue
  rw [e]
  refine .claimDue ?_
  rw [isDue_exact, rowLE_exact]
  exact Keyed.top_insertionSort _ _

/-- a call on the table whose result has the fields of `r` that are compared -/
def Seen (ρ : Scores) (t : Sqlite.Db) (o : Op) (r : Res) (t' : Sqlite.Db) : Prop :=
  ∃ r', Step ρ t o r' t' ∧ r.seen = r'.seen

end Flat

/-! ## the relation -/

/-- a save is one of a pending job with a declared priority and an ID that is not stored; a claim has
a limit that is a number of the scripts; a failure leaves less than fifteen digits of attempts -/
def Legal (db : Db ρ) : Op → Prop
  | .save j => (db.hash (jobKey j.id)).isNone ∧ j.state = statePending ∧ j.priority ≤ priorityCritical
  | .claimDue _ _ n _ _ => 0 ≤ n ∧ n ≤ 2 ^ 53
  | .fail id _ _ _ => ∀ a ∈ (db.hget (jobKey id) "attempt").bind parse,
      (a + 1).natAbs < 100000000000000
  | _ => True

instance (db : Db ρ) : DecidablePred (Legal db)
  | .save _ => inferInstanceAs (Decidable (_ ∧ _ ∧ _))
  | .claimDue .. => inferInstanceAs (Decidable (_ ∧ _))
  | .fail id _ _ _ => inferInstanceAs (Decidable (∀ a ∈ (db.hget (jobKey id) "attempt").bind parse, _))
  | .ack _ | .cancel _ | .reschedule .. | .recoverStale _ | .queueSize _ => isTrue trivial

structure Same (db : Db ρ) (t : Sqlite.Db) : Prop where
  holds : Holds db t.jobs.lookup
  declared : ∀ id r, t.jobs.lookup id = some r → r.priority ≤ 3

theorem empty_same : Same (Db.empty ρ) Sqlite.Db.empty := ⟨empty_holds, fun _ _ h => nomatch h⟩

theorem declared_update {J : Rows} (h : ∀ id r, J id = some r → r.priority ≤ 3) {id : JobID}
    {o : Option Row} (ho : ∀ r, o = some r → r.priority ≤ 3) (i : JobID) (r : Row)
    (hi : Function.update J id o i = some r) : r.priority ≤ 3 := by
  by_cases e : i = id
  · subst e
    rw [Function.update_self] at hi
    exact ho r hi
  · rw [Function.update_of_ne e] at hi
    exact h i r hi

theorem declared_mapOn {J : Rows} (h : ∀ id r, J id = some r → r.priority ≤ 3) (f : Row → Row)
    (hf : ∀ r, (f r).priority = r.priority) (ids : List JobID) (i : JobID) (r : Row)
    (hi : mapOn J f ids i = some r) : r.priority ≤ 3 := by
  unfold mapOn at hi
  split at hi
  · obtain ⟨x, hx, rfl⟩ := Option.map_eq_some_iff.mp hi
    rw [hf]
    exact h i x hx
  · exact h i r hi

/-- the stored fields agree -/
theorem Same.stored {db : Db ρ} {t : Sqlite.Db} (S : Same db t) (id : JobID) :
    (db.hash (jobKey id)).map (fun m => seen (deserializeJob m)) =
      (t.jobs.lookup id).map fun r => seen (scanJob r) := by
  cases hl : t.jobs.lookup id with
  | none =>
    rw [S.holds.hash_none hl]
    rfl
  | some r =>
    obtain ⟨m, hm, hr⟩ := S.holds.hash id r hl
    rw [hm, Option.map_some, Option.map_some, hr.seen_eq]

/-! ## calls on one job -/

section
variable {db : Db ρ} {t : Sqlite.Db} (S : Same db t)
include S

theorem save_same {j : Job} (hf : (db.hash (jobKey j.id)).isNone) (hs : j.state = statePending)
    (hp : j.priority ≤ 3) : Same (save j db) (t.save j) := by
  have hl : t.jobs.lookup j.id = none := by
    have h := S.stored j.id
    rw [Option.isNone_iff_eq_none.mp hf] at h
    exact Option.map_eq_none_iff.mp h.symm
  refine ⟨?_, ?_⟩
  · rw [Sqlite.Db.save_fresh hl]
    exact save_holds S.holds hl hs
  · rw [Sqlite.Db.save_fresh hl]
    exact declared_update S.declared (by rintro r ⟨⟩; exact hp)

/-- a job that the table has in no state `st` is refused by both -/
theorem not_state {id : JobID} (h : ∀ r, t.jobs.lookup id = some r → r.state ≠ stateClaimed) :
    ∀ x, (fun i => (t.jobs.lookup i).map recOfRow) id = some x → x.claimed = false := by
  intro x hx
  obtain ⟨r, hr, rfl⟩ := Option.map_eq_some_iff.mp hx
  exact recOfRow_pending ((S.holds.live id r hr).resolve_right (h r hr))

theorem ack_same (id : JobID) : ackErr (ack id db).2 = (t.ack id).2 ∧
    Same (ack id db).1 (t.ack id).1 := by
  by_cases h : ∃ r, t.jobs.lookup id = some r ∧ r.state = stateClaimed
  · obtain ⟨r, hr, hs⟩ := h
    obtain ⟨hok, hh⟩ := ack_holds S.holds hr hs
    obtain ⟨herr, hl⟩ := Sqlite.Db.ack_claimed hr hs
    refine ⟨by rw [hok, herr]; rfl, by rw [hl]; exact hh, ?_⟩
    rw [hl]
    exact declared_update S.declared fun _ h => nomatch h
  · have h' : ∀ r, t.jobs.lookup id = some r → r.state ≠ stateClaimed :=
      fun r hr hs => h ⟨r, hr, hs⟩
    rw [ack_missing S.holds.rep (not_state S h'), Sqlite.Db.ack_refused h']
    exact ⟨rfl, S⟩

theorem lookup_same {id : JobID} {r : Row} (hr : t.jobs.lookup id = some r) :
    lookup id db = some (pendingKey r.queue r.priority) := by
  show lookup id db = some (pendingKey (recOfRow r).queue (recOfRow r).priority)
  exact lookup_rep S.holds.rep (table_at hr)

theorem lookup_same_none {id : JobID} (h : t.jobs.lookup id = none) : lookup id db = none :=
  lookup_none S.holds.rep (show (t.jobs.lookup id).map recOfRow = none by rw [h]; rfl)

theorem withBucket_some {id : JobID} {r : Row} (hr : t.jobs.lookup id = some r)
    (script : String → Db ρ × String) (err : String → Option StoreErr) :
    withBucket id db script err = ((script (pendingKey r.queue r.priority)).1,
      .err (err (script (pendingKey r.queue r.priority)).2)) := by
  unfold withBucket
  rw [lookup_same S hr]

theorem withBucket_none {id : JobID} (h : t.jobs.lookup id = none) (script : String → Db ρ × String)
    (err : String → Option StoreErr) :
    withBucket id db script err = (db, .err (some .jobNotFound)) := by
  unfold withBucket
  rw [lookup_same_none S h]

/-- a claimed job is refused by `Cancel` and `Reschedule` -/
theorem claimed_guards {id : JobID} {r : Row} (hr : t.jobs.lookup id = some r)
    (hs : r.state = stateClaimed) : ¬ db.hash (jobKey id) = none ∧
      db.hget (jobKey id) "state" ≠ some statePendingArg := by
  obtain ⟨m, hm, hrow, hget⟩ := S.holds.hget hr
  rw [hget, hrow.state, hm, hs]
  exact ⟨by simp, fun e => arg_ne (Option.some.inj e).symm⟩

theorem fail_same {id : JobID} (ha : ∀ a ∈ (db.hget (jobKey id) "attempt").bind parse,
      (a + 1).natAbs < 100000000000000) (msg : String) (at' now : Time) :
    ∃ e, (call lua51 db (.fail id msg at' now)).2 = .err e ∧ (t.fail id msg at' now).2 = e ∧
      Same (call lua51 db (.fail id msg at' now)).1 (t.fail id msg at' now).1 := by
  dsimp only [call]
  cases hl : t.jobs.lookup id with
  | none =>
    rw [withBucket_none S hl, Sqlite.Db.fail_refused (by rw [hl]; intro _ h; cases h)]
    exact ⟨_, rfl, rfl, S⟩
  | some r =>
    rw [withBucket_some S hl]
    by_cases hs : r.state = stateClaimed
    · have ha' : (r.attempt.toInt + 1).natAbs < 100000000000000 := by
        obtain ⟨m, _, hrow, hget⟩ := S.holds.hget hl
        refine ha _ ?_
        rw [hget, hrow.attempt, Option.bind_some, parse_itoa]
        exact rfl
      obtain ⟨hok, hh⟩ := fail_holds S.holds hl hs ha' msg at' now (toUnixNano now)
      obtain ⟨herr, hlook⟩ := Sqlite.Db.fail_claimed hl hs msg at' now
      refine ⟨none, by rw [hok]; rfl, herr, by rw [hlook]; exact hh, ?_⟩
      rw [hlook]
      refine declared_update S.declared fun x hx => ?_
      unfold failRow at hx
      split at hx
      · cases hx
      · cases hx
        exact S.declared id r hl
    · have h' : ∀ x, t.jobs.lookup id = some x → x.state ≠ stateClaimed := by
        rw [hl]
        rintro x ⟨⟩
        exact hs
      rw [fail_missing S.holds.rep (not_state S h'), Sqlite.Db.fail_refused h']
      exact ⟨_, rfl, rfl, S⟩

theorem cancel_same (id : JobID) :
    ∃ e, (call lua51 db (.cancel id)).2 = .err e ∧ (t.cancel id).2 = e ∧
      Same (call lua51 db (.cancel id)).1 (t.cancel id).1 := by
  dsimp only [call]
  cases hl : t.jobs.lookup id with
  | none =>
    rw [withBucket_none S hl, Sqlite.Db.cancel_missing hl]
    exact ⟨_, rfl, rfl, S⟩
  | some r =>
    rw [withBucket_some S hl]
    rcases S.holds.live id r hl with hs | hs
    · obtain ⟨hok, hh⟩ := cancel_holds S.holds hl hs
      obtain ⟨herr, hlook⟩ := Sqlite.Db.cancel_pending hl hs
      refine ⟨none, by rw [hok]; rfl, herr, by rw [hlook]; exact hh, ?_⟩
      rw [hlook]
      exact declared_update S.declared fun _ h => nomatch h
    · obtain ⟨h1, h2⟩ := claimed_guards S hl hs
      have e : cancel (pendingKey r.queue r.priority) id db = (db, "not_pending") :=
        (if_neg h1).trans (if_pos h2)
      rw [e, Sqlite.Db.cancel_refused hl (by rw [hs]; decide)]
      exact ⟨_, rfl, rfl, S⟩

theorem reschedule_same (id : JobID) (at' now : Time) :
    ∃ e, (call lua51 db (.reschedule id at' now)).2 = .err e ∧ (t.reschedule id at' now).2 = e ∧
      Same (call lua51 db (.reschedule id at' now)).1 (t.reschedule id at' now).1 := by
  dsimp only [call]
  cases hl : t.jobs.lookup id with
  | none =>
    rw [withBucket_none S hl, Sqlite.Db.reschedule_missing hl]
    exact ⟨_, rfl, rfl, S⟩
  | some r =>
    rw [withBucket_some S hl]
    rcases S.holds.live id r hl with hs | hs
    · obtain ⟨hok, hh⟩ := reschedule_holds S.holds hl hs at' now (toUnixNano now)
      obtain ⟨herr, hlook⟩ := Sqlite.Db.reschedule_pending hl hs at' now
      refine ⟨none, by rw [hok]; rfl, herr, by rw [hlook]; exact hh, ?_⟩
      rw [hlook]
      refine declared_update S.declared ?_
      rintro x ⟨⟩
      exact S.declared id r hl
    · obtain ⟨h1, h2⟩ := claimed_guards S hl hs
      have e : reschedule (pendingKey r.queue r.priority) id at' now db = (db, "not_pending") :=
        (if_neg h1).trans (if_pos h2)
      rw [e, Sqlite.Db.reschedule_refused hl (by rw [hs]; decide)]
      exact ⟨_, rfl, rfl, S⟩

/-! ## calls on many jobs -/

omit S in
/-- what the client reads of a job that the script has claimed is what the SQLite store returns -/
theorem seen_claimed {db' : Db ρ} {ids : List JobID} {now lu : Time} {w : String} {r : Row}
    (H : Holds db' (mapOn t.jobs.lookup (claimRow w (toUnixNano lu) (toUnixNano now)) ids))
    (hid : r.id ∈ ids) (hr : t.jobs.lookup r.id = some r) :
    seen (db'.job r.id) = seen (claimedJob now w lu r) := by
  have hJ : mapOn t.jobs.lookup (claimRow w (toUnixNano lu) (toUnixNano now)) ids r.id =
      some (claimRow w (toUnixNano lu) (toUnixNano now) r) := by
    exact mapOn_of_mem hr _ hid
  obtain ⟨m, hm, hrow⟩ := H.hash _ _ hJ
  rw [Db.job, hm, Option.getD_some, hrow.seen_eq]
  simp only [seen, scanJob, claimedJob, claimRow, toUnixNano_fromUnixNano]

theorem claimDue_same (q : String) (now : Time) (n : Int) (w : String) (lu : Time) :
    ∃ r t', Flat.Step ρ t (.claimDue q now n w lu) r t' ∧
      (call lua51 db (.claimDue q now n w lu)).2.seen = r.seen ∧
      Same (call lua51 db (.claimDue q now n w lu)).1 t' := by
  dsimp only [call]
  obtain ⟨hids, hh⟩ := claim_holds S.holds q now n w lu (toUnixNano now)
  -- the rows of all due IDs, in the order of the buckets
  obtain ⟨D, hD, hrows⟩ := Keyed.exists_rows fun id hid => by
    obtain ⟨r, hr, _⟩ := S.holds.mem_dueIDs.mp hid
    exact ⟨r, hr⟩
  have hperm : D.Perm (t.jobs.rows.filter (ρ.isDue q (toUnixNano now))) := by
    refine Keyed.perm_filter (by rw [hD]; exact S.holds.nodup_dueIDs q now) fun r => ?_
    constructor
    · intro hr
      obtain ⟨r', hr', hd, _⟩ := S.holds.mem_dueIDs.mp (hD ▸ List.mem_map_of_mem hr)
      rw [hrows r hr] at hr'
      exact ⟨hrows r hr, Option.some.inj hr' ▸ hd⟩
    · rintro ⟨hr, hd⟩
      have hid : r.id ∈ D.map Row.id :=
        hD ▸ S.holds.mem_dueIDs.mpr ⟨r, hr, hd, S.declared _ r hr⟩
      obtain ⟨r', hr', e⟩ := List.mem_map.mp hid
      have hl := hrows r' hr'
      rw [e, hr] at hl
      rwa [Option.some.inj hl]
  have hsorted : D.Pairwise ρ.RowLE := by
    have h := S.holds.sorted_dueIDs q now
    rw [← hD, List.pairwise_map] at h
    exact h.imp_of_mem fun {a b} ha hb hle => hle a b (hrows a ha) (hrows b hb)
  have htake : (dueIDs q now db).take n.toNat = (D.take n.toNat).map Row.id := by
    rw [← hD, List.map_take]
  rw [htake] at hids hh
  refine ⟨_, _, .claimDue ⟨D, hperm, hsorted, rfl⟩, ?_, ?_, ?_⟩
  · rw [hids]
    simp only [Res.seen, List.map_map, Res.jobs.injEq]
    exact List.map_congr_left fun r hr =>
      seen_claimed hh (List.mem_map_of_mem hr) (hrows r (List.mem_of_mem_take hr))
  · rw [Sqlite.Db.claimRows_lookup]
    exact hh
  · rw [Sqlite.Db.claimRows_lookup]
    exact declared_mapOn S.declared (claimRow _ _ _) (fun _ => rfl) _

theorem recoverStale_same (clock : Int) :
    (call lua51 db (.recoverStale clock)).2 =
        .count (t.recover (fun lu => 1 ≤ lu.toInt ∧ ρ.ofInt lu.toInt ≤ clock) 0).2 ∧
      Same (call lua51 db (.recoverStale clock)).1
        (t.recover (fun lu => 1 ≤ lu.toInt ∧ ρ.ofInt lu.toInt ≤ clock) 0).1 := by
  dsimp only [call]
  obtain ⟨hids, hh⟩ := recoverStale_holds S.holds lua51 clock 0
  have hmem : ∀ i, i ∈ (db.zset claimedKey).rangeByScore (some 1) clock ↔
      ∃ r, t.jobs.lookup i = some r ∧ r.state = stateClaimed ∧
        decide (1 ≤ r.lockedUntil.toInt ∧ ρ.ofInt r.lockedUntil.toInt ≤ clock) = true := fun i => by
    rw [ZSet.mem_rangeByScore]
    constructor
    · rintro ⟨s, hs, hlo, hhi⟩
      obtain ⟨r, hr, hst, rfl⟩ := S.holds.claimed_iff.mp hs
      exact ⟨r, hr, hst, decide_eq_true ⟨(ρ.one_le_iff _).mp (hlo 1 rfl), hhi⟩⟩
    · rintro ⟨r, hr, hst, hd⟩
      obtain ⟨hlo, hhi⟩ := of_decide_eq_true hd
      refine ⟨_, S.holds.claimed_iff.mpr ⟨r, hr, hst, rfl⟩, ?_, hhi⟩
      rintro _ ⟨⟩
      exact (ρ.one_le_iff _).mpr hlo
  have hlook : (t.recover (fun lu => 1 ≤ lu.toInt ∧ ρ.ofInt lu.toInt ≤ clock) 0).1.jobs.lookup = _ :=
    Sqlite.Db.recover_lookup hmem 0
  refine ⟨?_, ?_, ?_⟩
  · rw [hids]
    refine congrArg Res.count
      (Keyed.count_eq_length (ZSet.nodup_rangeByScore _ _ _) fun i => ?_).symm
    rw [hmem i]
    simp only [Bool.and_eq_true, decide_eq_true_eq]
  · rw [hlook]
    exact hh
  · rw [hlook]
    exact declared_mapOn S.declared (releaseRow 0) (fun _ => rfl) _

theorem queueSize_same (q : String) : queueSize q db = t.queueSize q := by
  rw [queueSize_eq]
  refine (Keyed.count_eq_length (nodup_countedIDs (S.holds.one_bucket q)) fun i => ?_).symm
  rw [mem_countedIDs]
  simp only [decide_eq_true_eq]
  constructor
  · intro h
    obtain ⟨p, _, s, hs⟩ := h
    obtain ⟨r, hr, h1, h2, _⟩ := S.holds.score_iff.mp hs
    exact ⟨r, hr, h2, h1⟩
  · intro h
    obtain ⟨r, hr, h2, h1⟩ := h
    exact ⟨r.priority, S.declared i r hr, _, S.holds.score_iff.mpr ⟨r, hr, h1, h2, rfl, rfl⟩⟩

end

/-! ## whole sequences -/

theorem same_simulates : Simulates (@Same ρ) (Calls lua51 Legal) (Flat.Seen ρ) := by
  rintro db t o r db' S ⟨hl, hc⟩
  obtain rfl : (call lua51 db o).1 = db' := congrArg Prod.fst hc
  obtain rfl : (call lua51 db o).2 = r := congrArg Prod.snd hc
  cases o with
  | save j => exact ⟨_, ⟨_, .save j, rfl⟩, save_same S hl.1 hl.2.1 hl.2.2⟩
  | claimDue q now n w lu =>
    obtain ⟨r, t', hstep, hseen, hsame⟩ := claimDue_same S q now n w lu
    exact ⟨t', ⟨r, hstep, hseen⟩, hsame⟩
  | ack id =>
    obtain ⟨he, hsame⟩ := ack_same S id
    exact ⟨_, ⟨_, .ack id, congrArg Res.err he⟩, hsame⟩
  | fail id msg at' now =>
    obtain ⟨e, h1, rfl, hsame⟩ := fail_same S hl msg at' now
    exact ⟨_, ⟨_, .fail id msg at' now, by rw [h1]⟩, hsame⟩
  | cancel id =>
    obtain ⟨e, h1, rfl, hsame⟩ := cancel_same S id
    exact ⟨_, ⟨_, .cancel id, by rw [h1]⟩, hsame⟩
  | reschedule id at' now =>
    obtain ⟨e, h1, rfl, hsame⟩ := reschedule_same S id at' now
    exact ⟨_, ⟨_, .reschedule id at' now, by rw [h1]⟩, hsame⟩
  | recoverStale clock =>
    obtain ⟨h1, hsame⟩ := recoverStale_same S clock
    exact ⟨_, ⟨_, .recoverStale clock 0, by rw [h1]⟩, hsame⟩
  | queueSize q => exact ⟨_, ⟨_, .queueSize q, congrArg Res.count (queueSize_same S q)⟩, S⟩

/-- **The Redis store is one table of jobs**: with exact scores, along every sequence of legal calls the
results are results of the table, and every stored job has the fields of its row. -/
theorem calls_match_table (ops : List Op) (h : Allowed lua51 Legal (Db.empty .exact) ops) :
    ∃ t, Runs (Flat.Seen .exact) Sqlite.Db.empty (history lua51 (Db.empty .exact) ops) t ∧
      ∀ id, ((runCalls lua51 (Db.empty .exact) ops).hash (jobKey id)).map
          (fun m => seen (deserializeJob m)) =
        (t.jobs.lookup id).map fun r => seen (scanJob r) := by
  obtain ⟨t, ht, S⟩ := h.runs.simulate same_simulates empty_same
  exact ⟨t, ht, S.stored⟩

/-- two jobs of different priority, a claim of one, its failure, a recovery and the count -/
def sampleCalls : List Op :=
  [.save { id := "a", queue := "q", runAt := 5, priority := 1 },
    .save { id := "b", queue := "q", runAt := 7, priority := 3 }, .claimDue "q" 10 1 "w" 2000,
    .fail "b" "boom" 12 11, .recoverStale 3000, .queueSize "q"]

theorem calls_match_table_sample : ∃ t, Runs (Flat.Seen .exact) Sqlite.Db.empty
      (history lua51 (Db.empty .exact) sampleCalls) t ∧
    ∀ id, ((runCalls lua51 (Db.empty .exact) sampleCalls).hash (jobKey id)).map
        (fun m => seen (deserializeJob m)) =
      (t.jobs.lookup id).map fun r => seen (scanJob r) :=
  calls_match_table sampleCalls (by decide +kernel)

/-- a job with as many attempts as fourteen digits can say, and no limit -/
def longJob : Job := { id := "j", queue := "q", runAt := 5, attempt := 99999999999999, maxAttempts := -1 }

/-- **Fourteen digits**: the same three calls, on a fresh ID, leave different attempts in the two
stores. -/
theorem fourteen_digits :
    ((history lua51 (Db.empty .exact)
      [.save longJob, .claimDue "q" 10 1 "w" 2000, .fail "j" "boom" 12 11]).map
        Prod.snd).getLast? = some (.err none) ∧
      ((runCalls lua51 (Db.empty .exact) [.save longJob, .claimDue "q" 10 1 "w" 2000,
        .fail "j" "boom" 12 11]).job "j").attempt = 0 ∧
      (((Sqlite.Db.empty.save longJob).claimDue "q" 10 1 "w" 2000).1.fail "j" "boom" 12 11).2 = none ∧
      ((((Sqlite.Db.empty.save longJob).claimDue "q" 10 1 "w" 2000).1.fail "j" "boom" 12 11).1.jobs.lookup
        "j").map Row.attempt = some 100000000000000 := by
  refine ⟨?_, ?_, ?_, ?_⟩ <;> decide +kernel

end GS.Redis
