import GoSchedule.Contract.Sqlite
import GoSchedule.Redis.Equiv

/-!
# The Redis store keeps the contract

The Redis store behaves as one table of rows (`same_simulates`), and a table of rows as a map
(`Sqlite.Shows`); the two are put together here.  Instants are compared by their scores, and a recovery
takes a claim back when the score of its lock has come, where the SQLite store waits for a later instant.

* `scale ρ`           the order of the scores;
* `asked`, `Res.plain`   a call of the store and what it returns, as the contract has them;
* `flat_shows`        a call on the table is a call on the map;
* `redis_refines`     **what any sequence of legal and sane calls returns is what the map returns**;
* `claims_exclusive`, `unfinished_delivered`   **on both stores a job is handed out to one worker at a
  time, and until it is finished it is delivered again**.
-/

namespace GS.Redis
open Contract Mem MapOn Sim
open Sqlite hiding scale abandoned

variable {ρ : Scores}

/-- the second argument of `late` is the number that the recovery script has computed -/
def scale (ρ : Scores) : Scale := ⟨ρ.ofTime, fun lockUntil now => ρ.ofTime lockUntil ≤ now⟩

def Op.asked : Op → Contract.Op
  | .save j => .save j
  | .claimDue queue now n workerID lockUntil => .claimDue queue now n workerID lockUntil
  | .ack id => .ack id
  | .fail id errMsg nextAttemptAt _ => .fail id errMsg nextAttemptAt
  | .cancel id => .cancel id
  | .reschedule id newTime _ => .reschedule id newTime
  | .recoverStale clock => .recoverStale clock
  | .queueSize queue => .queueSize queue

def Res.plain : Res → Contract.Res
  | .err e => .err e
  | .jobs l => .jobs (l.map Contract.plain)
  | .count n => .count n

/-- the instants that a call stores or compares are sane -/
def SaneOp : Op → Prop
  | .save j => Sane j.runAt ∧ Sane j.lockedUntil ∧ Sane j.createdAt
  | .claimDue _ now _ _ lockUntil => Sane now ∧ Sane lockUntil
  | .fail _ _ nextAttemptAt _ => Sane nextAttemptAt
  | .reschedule _ newTime _ => Sane newTime
  | _ => True

instance : DecidablePred SaneOp
  | .save _ => inferInstanceAs (Decidable (_ ∧ _ ∧ _))
  | .claimDue .. => inferInstanceAs (Decidable (_ ∧ _))
  | .fail .. => inferInstanceAs (Decidable (Sane _))
  | .reschedule .. => inferInstanceAs (Decidable (Sane _))
  | .ack _ | .cancel _ | .recoverStale _ | .queueSize _ => isTrue trivial

/-! ## the fields that are compared -/

theorem seen_of_column {j : Job} {a : Int64} (h : j.lockedUntil = fromUnixNano a) :
    seen j = Contract.plain j := by
  unfold seen Contract.plain
  rw [h, toUnixNano_fromUnixNano, ← h]

theorem seen_of_sane {j : Job} (h : Sane j.lockedUntil) : seen j = Contract.plain j := by
  unfold seen Contract.plain
  rw [h.fromUnixNano_toUnixNano]

theorem seen_deserializeJob (h : String → Option String) :
    seen (deserializeJob h) = Contract.plain (deserializeJob h) :=
  seen_of_column (a := atoi ((h "locked_until").getD "")) rfl

theorem seen_scanJob (r : Row) : seen (scanJob r) = shown r := seen_of_column (a := r.lockedUntil) rfl

/-- nothing but `UpdatedAt` is lost in the comparison -/
def Res.Exact (r : Res) : Prop := ∀ l, r = .jobs l → l.map Redis.seen = l.map Contract.plain

theorem exact_err (e : Option StoreErr) : (Res.err e).Exact := fun _ h => nomatch h

theorem exact_count (n : Nat) : (Res.count n).Exact := fun _ h => nomatch h

theorem plain_of_seen {r r' : Res} (hr : r.Exact) (hr' : r'.Exact) (h : r.seen = r'.seen) :
    r.plain = r'.plain := by
  cases r with
  | err e =>
    cases r' with
    | err e' => exact congrArg Contract.Res.err (Res.err.inj h)
    | jobs l' => cases h
    | count n' => cases h
  | jobs l =>
    cases r' with
    | err e' => cases h
    | jobs l' =>
      have h' := Res.jobs.inj h
      rw [hr l rfl, hr' l' rfl] at h'
      exact congrArg Contract.Res.jobs h'
    | count n' => cases h
  | count n =>
    cases r' with
    | err e' => cases h
    | jobs l' => cases h
    | count n' => exact congrArg Contract.Res.count (Res.count.inj h)

theorem exact_withBucket (id : JobID) (db : Db ρ) (script : String → Db ρ × String)
    (err : String → Option StoreErr) : (withBucket id db script err).2.Exact := by
  unfold withBucket
  split
  · exact exact_err _
  · exact exact_err _

/-- the jobs of a claim are read from their hashes -/
theorem exact_call (db : Db ρ) (o : Op) : (call lua51 db o).2.Exact := by
  cases o with
  | claimDue q now n w lu =>
    intro l hl
    obtain rfl := Res.jobs.inj hl
    rw [List.map_map, List.map_map]
    exact List.map_congr_left fun id _ => seen_deserializeJob _
  | save j => exact exact_err _
  | ack id => exact exact_err _
  | fail id msg t now => exact exact_withBucket id db _ _
  | cancel id => exact exact_withBucket id db _ _
  | reschedule id t now => exact exact_withBucket id db _ _
  | recoverStale clock => exact exact_count _
  | queueSize q => exact exact_count _

/-! ## the two simulations -/

/-- the score of a column is that of its instant -/
theorem ofTime_fromUnixNano (ρ : Scores) (a : Int64) : ρ.ofTime (fromUnixNano a) = ρ.ofInt a.toInt := by
  rw [Scores.ofTime, toUnixNano_fromUnixNano]

theorem query (t : Sqlite.Db) (q : String) (now : Time) :
    Query (scale ρ) t q now (ρ.isDue q (toUnixNano now)) ρ.RowLE := by
  refine ⟨fun {r} _ => ?_, fun {a b} _ _ h => h.imp_right fun h => ⟨h.1, ?_⟩⟩
  · unfold Scores.isDue
    rw [decide_eq_true_eq, ← ofTime_fromUnixNano]
    exact Iff.rfl
  · show ρ.ofTime (fromUnixNano a.runAt) ≤ ρ.ofTime (fromUnixNano b.runAt)
    rw [ofTime_fromUnixNano, ofTime_fromUnixNano]
    exact h.2

/-- **A sane call on the table is a call on the map.** -/
theorem flat_shows {t t' : Sqlite.Db} {m : JobMap} {o : Op} {r : Res} (S : Shows t m) (ho : SaneOp o)
    (hn : ∀ q now n w lu, o = .claimDue q now n w lu → 0 ≤ n) (h : Flat.Step ρ t o r t') :
    r.Exact ∧ ∃ m', Step (scale ρ) m o.asked r.plain m' ∧ Shows t' m' := by
  cases h with
  | save j => exact ⟨exact_err _, save_shows S ho.1 ho.2.1 ho.2.2⟩
  | @claimDue q now n w lu L h =>
    refine ⟨fun l hl => ?_, ?_⟩
    · obtain rfl := Res.jobs.inj hl
      rw [List.map_map, List.map_map]
      exact List.map_congr_left fun row _ => seen_of_sane (j := claimedJob now w lu row) ho.2
    · have hjobs : (Res.jobs (L.map (claimedJob now w lu))).plain =
          .jobs (L.map fun row => Contract.plain (claimedJob now w lu row)) := by
        show Contract.Res.jobs (List.map _ (List.map _ _)) = _
        rw [List.map_map]
        rfl
      rw [hjobs]
      exact claim_shows S (query t q now) (hn q now n w lu rfl) w ho.2 h
  | ack id =>
    obtain ⟨h1, h2⟩ := ack_shows S id
    refine ⟨exact_err _, _, ?_, h2⟩
    show Step _ m _ (.err (t.ack id).2) _
    rw [← h1]
    exact .ack id
  | fail id msg u now =>
    obtain ⟨h1, h2⟩ := fail_shows S id msg ho now
    refine ⟨exact_err _, _, ?_, h2⟩
    show Step _ m _ (.err (t.fail id msg u now).2) _
    rw [← h1]
    exact .fail id msg u
  | cancel id =>
    obtain ⟨h1, h2⟩ := cancel_shows S id
    refine ⟨exact_err _, _, ?_, h2⟩
    show Step _ m _ (.err (t.cancel id).2) _
    rw [← h1]
    exact .cancel id
  | reschedule id u now =>
    obtain ⟨h1, h2⟩ := reschedule_shows S id ho now
    refine ⟨exact_err _, _, ?_, h2⟩
    show Step _ m _ (.err (t.reschedule id u now).2) _
    rw [← h1]
    exact .reschedule id u
  | recoverStale clock stamp =>
    refine ⟨exact_count _, recover_shows S (fun a ha => ?_) stamp⟩
    rw [decide_eq_true_eq, fromUnixNano_ne_zero ha, Int64.lt_iff_toInt_lt]
    show _ ↔ _ ∧ ρ.ofTime (fromUnixNano a) ≤ clock
    rw [ofTime_fromUnixNano]
    exact Iff.rfl
  | queueSize q => exact ⟨exact_count _, m, queueSize_shows S q, S⟩

/-- the server stands for a table that stands for the map -/
def Stands (db : Db ρ) (m : JobMap) : Prop := ∃ t, Same db t ∧ Shows t m

/-- a call that is compared with the table, with sane instants -/
def SaneLegal (db : Db ρ) (o : Op) : Prop := Legal db o ∧ SaneOp o

instance (db : Db ρ) : DecidablePred (SaneLegal db) := fun _ => inferInstanceAs (Decidable (_ ∧ _))

theorem stands_simulates : Simulates (@Redis.Stands ρ) (Calls lua51 SaneLegal)
    fun m o r m' => Step (scale ρ) m o.asked r.plain m' := by
  intro db m o r db' hst hcall
  obtain ⟨t, hsame, S⟩ := hst
  obtain ⟨⟨hlegal, hsane⟩, hc⟩ := hcall
  obtain ⟨t', ⟨r', hflat, hseen⟩, hsame'⟩ := same_simulates db t o r db' hsame ⟨hlegal, hc⟩
  have hn : ∀ q now n w lu, o = .claimDue q now n w lu → 0 ≤ n := by
    rintro q now n w lu rfl
    exact hlegal.1
  obtain ⟨hexact, m', hstep, S'⟩ := flat_shows S hsane hn hflat
  have hr : r.Exact := by
    rw [← show (call lua51 db o).2 = r from congrArg Prod.snd hc]
    exact exact_call db o
  rw [← plain_of_seen hr hexact hseen] at hstep
  exact ⟨m', hstep, t', hsame', S'⟩

theorem Stands.eq {db : Db ρ} {m : JobMap} (h : Redis.Stands db m) :
    m = fun id => (db.hash (jobKey id)).map fun f => Contract.plain (deserializeJob f) := by
  obtain ⟨t, hsame, S⟩ := h
  funext id
  have hst := hsame.stored id
  simp only [seen_deserializeJob, seen_scanJob] at hst
  rw [hst, S.eq]

/-- the calls of a sequence with what they return, as the contract has them -/
def asked (ρ : Scores) (ops : List Op) : List (Contract.Op × Contract.Res) :=
  (history lua51 (Db.empty ρ) ops).map (Prod.map Op.asked Res.plain)

/-- **The Redis store is a queue of jobs**, in the order of its scores: what any sequence of legal and sane
calls returns is what the map returns, and the hashes at the end say what the map holds. -/
theorem redis_refines (ρ : Scores) (ops : List Op) (h : Allowed lua51 SaneLegal (Db.empty ρ) ops) :
    Runs (Step (scale ρ)) Contract.empty (asked ρ ops) fun id =>
      ((runCalls lua51 (Db.empty ρ) ops).hash (jobKey id)).map fun f =>
        Contract.plain (deserializeJob f) := by
  obtain ⟨m, hr, S⟩ := h.runs.simulate stands_simulates ⟨_, empty_same, empty_shows⟩
  rw [← S.eq]
  exact hr.map

theorem redis_refines_sample :
    Runs (Step (scale .double)) Contract.empty (asked .double sampleCalls) (fun id =>
      ((runCalls lua51 (Db.empty .double) sampleCalls).hash (jobKey id)).map fun f =>
        Contract.plain (deserializeJob f)) ∧ (asked .double sampleCalls).length = 6 :=
  ⟨redis_refines .double sampleCalls (by decide +kernel), rfl⟩

/-- a job that is claimed and left, recovered and claimed again -/
def abandoned : List Op :=
  [.save { id := "a", queue := "q", runAt := 5, maxAttempts := 3 }, .claimDue "q" 10 1 "w" 20,
    .recoverStale 20, .queueSize "q", .claimDue "q" 30 1 "v" 40]

end GS.Redis

/-! ## on both stores -/

namespace GS.Contract
open Sim

/-- **A job is with one worker at a time**: between two claims that return it, it has failed, its lock
has run out and was recovered, or it was saved anew. -/
theorem claims_exclusive :
    (∀ cs, Sqlite.SaneCalls Sqlite.Db.empty cs →
      Exclusive Sqlite.scale (Sqlite.replies Sqlite.Db.empty cs)) ∧
    ∀ (ρ : Redis.Scores) ops, Redis.Allowed Redis.lua51 Redis.SaneLegal (Redis.Db.empty ρ) ops →
      Exclusive (Redis.scale ρ) (Redis.asked ρ ops) := by
  constructor
  · intro cs hcs
    obtain ⟨m, hr, _⟩ := Sqlite.replies_shows Sqlite.empty_shows .nil hcs
    exact runs_exclusive hr
  · intro ρ ops h
    obtain ⟨m, hr, _⟩ := h.runs.simulate Redis.stands_simulates
      ⟨_, Redis.empty_same, Sqlite.empty_shows⟩
    exact runs_exclusive hr.map

theorem claims_exclusive_samples :
    Exclusive Sqlite.scale (Sqlite.replies Sqlite.Db.empty Sqlite.abandoned) ∧
    Exclusive (Redis.scale .double) (Redis.asked .double Redis.sampleCalls) :=
  ⟨claims_exclusive.1 Sqlite.abandoned (by decide +kernel),
    claims_exclusive.2 .double Redis.sampleCalls (by decide +kernel)⟩

/-- **An unfinished job is delivered again**: a recovery after the last lock, and a claim that is as
large as the queue, return it, whatever became of the workers that had it. -/
theorem unfinished_delivered :
    (∀ cs, Sqlite.SaneCalls Sqlite.Db.empty cs →
      Delivers Sqlite.scale (Sqlite.replies Sqlite.Db.empty cs)) ∧
    ∀ (ρ : Redis.Scores) ops, Redis.Allowed Redis.lua51 Redis.SaneLegal (Redis.Db.empty ρ) ops →
      Delivers (Redis.scale ρ) (Redis.asked ρ ops) := by
  constructor
  · intro cs hcs
    obtain ⟨m, hr, _⟩ := Sqlite.replies_shows Sqlite.empty_shows .nil hcs
    exact runs_delivers hr
  · intro ρ ops h
    obtain ⟨m, hr, _⟩ := h.runs.simulate Redis.stands_simulates
      ⟨_, Redis.empty_same, Sqlite.empty_shows⟩
    exact runs_delivers hr.map

/-- the abandoned job, as it was saved -/
def lost : Job := { id := "a", queue := "q", runAt := 5, maxAttempts := 3 }

/-- worker "w" took it and was gone before its lock ran out at 20; on the Redis store it is recovered at
that instant -/
theorem unfinished_delivered_abandoned :
    (∃ k ∈ [locked "v" 40 lost], k.id = "a" ∧ k.name = "" ∧ k.payload = []) ∧
    ∃ L, (Redis.asked .double Redis.abandoned).getLast? = some (.claimDue "q" 30 1 "v" 40, .jobs L) ∧
      ∃ k ∈ L, k.id = "a" ∧ k.name = "" ∧ k.payload = [] := by
  have hlost : ∀ (C : Scale) (now : Time), C.late 20 now → Unfinished C "a" 3 now 30
      [(.claimDue "q" 10 1 "w" 20, .jobs [locked "w" 20 lost])] := by
    intro C now hlate
    refine ⟨by simp [Ends], by decide, fun q t n w lu r h => ?_, by simp, by simp⟩
    cases List.mem_singleton.mp h
    exact ⟨by decide, hlate⟩
  constructor
  · exact unfinished_delivered.1 (Sqlite.abandoned.take 5) (by decide +kernel) [] lost _ 21
      (.count 1) 1 30 1
      "v" 40 _ (by decide +kernel) rfl rfl (by decide) (by decide) (hlost _ 21 (by decide))
  · refine ⟨[locked "v" 40 lost], by decide +kernel, ?_⟩
    refine unfinished_delivered.2 .double Redis.abandoned (by decide +kernel) [] lost _ 20 (.count 1) 1 30 1
      "v" 40 _ (by decide +kernel) rfl rfl (by decide +kernel) (by decide) (hlost _ 20 ?_)
    show Redis.Scores.double.ofTime 20 ≤ 20
    decide +kernel

end GS.Contract
