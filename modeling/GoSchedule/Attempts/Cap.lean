import GoSchedule.Postgres.Attempts
import GoSchedule.Redis.Attempts
import GoSchedule.Sqlite.Attempts

/-!
# Does `MaxAttempts` cap the attempts?

The three stores with a `RecoverStale` count an attempt when it fails, not when it is claimed.

* `claims_capped`   **a job that may be tried `m` times is claimed at most `m` times, and once more each
  time that `RecoverStale` takes it back**;
* `crashed_again`   so a job whose workers crash is claimed as often as it is recovered.
-/

namespace GS.Attempts
open Trans

theorem claims_capped (j : Job) (h0 : j.attempt = 0) (hmax : 0 < j.maxAttempts) :
    (∀ (db : Sqlite.Db) (ops : List Sqlite.Op), (∀ o ∈ ops, Sqlite.Keeps j.id o) →
      total Sqlite.step (Sqlite.claims j.id) (db.save j) ops ≤ j.maxAttempts.toInt.toNat +
        total Sqlite.step (Sqlite.recoveries j.id) (db.save j) ops) ∧
    (∀ (ρ : Redis.Scores) (lua : Redis.Lua) (pre post : List Redis.Op),
      Redis.Allowed lua Redis.TidySave (Redis.Db.empty ρ) (pre ++ .save j :: post) →
      j.maxAttempts.toInt ≤ 100000000000000 → (∀ o ∈ post, Redis.Keeps j.id o) →
      total (Redis.callStep lua) (Redis.claimCount lua j.id)
          (Redis.runCalls lua (Redis.Db.empty ρ) (pre ++ [.save j])) post ≤ j.maxAttempts.toInt.toNat +
        total (Redis.callStep lua) (Redis.recoveries j.id)
          (Redis.runCalls lua (Redis.Db.empty ρ) (pre ++ [.save j])) post) ∧
    (∀ (size : Nat) (clock : Time) (pre post : List Postgres.Tx.Label) (s t : Postgres.Tx.Sys),
      run Postgres.Tx.step (.init size clock) (pre ++ [.save j]) = some s →
      run Postgres.Tx.step s post = some t →
      Meets Postgres.Tx.step Postgres.Tx.Steady (.init size clock) (pre ++ .save j :: post) →
      (∀ a ∈ post, Postgres.Tx.Keeps j.id a) →
      total Postgres.Tx.step (Postgres.Tx.claims j.id) s post ≤ j.maxAttempts.toInt.toNat +
        total Postgres.Tx.step (Postgres.Tx.recoveries j.id) s post) := by
  refine ⟨?_, ?_, ?_⟩
  · intro db ops hk
    exact Sqlite.claims_le_max db j ops h0 hmax hk
  · intro ρ lua pre post h hle hk
    exact Redis.claims_le_max ρ lua pre post j h h0 hmax hle hk
  · intro size clock pre post s t hs ht hm hk
    exact Postgres.Tx.claims_le_max hs ht hm h0 hmax hk

/-- a job that may be tried once -/
def once : Job := { id := "j", queue := "q", runAt := 5000, maxAttempts := 1 }

/-- claimed, failed, and not claimed again -/
theorem claims_capped_once :
    total Sqlite.step (Sqlite.claims "j") (Sqlite.Db.empty.save once)
      [.claimDue "q" 9000 1 "A" 60000, .fail "j" "err" 70000 20000, .claimDue "q" 80000 1 "B" 90000] ≤
        1 ∧
    total (Redis.callStep Redis.lua51) (Redis.claimCount Redis.lua51 "j")
      (Redis.runCalls Redis.lua51 (Redis.Db.empty .double) [.save once])
      [.claimDue "q" 9000 1 "A" 60000, .fail "j" "err" 70000 20000, .claimDue "q" 80000 1 "B" 90000] ≤
        1 ∧
    ∃ s, run Postgres.Tx.step (.init 2 0) [.save once] = some s ∧
      total Postgres.Tx.step (Postgres.Tx.claims "j") s [.claim "q" 9000 1 "A" 60000 ["j"],
        .failSelect 0 "j" "err" 70000, .failWrite 0 20000, .commit 0, .claim "q" 80000 1 "B" 90000 []] ≤
          1 := by
  obtain ⟨hsqlite, hredis, hpostgres⟩ := claims_capped once rfl (by decide)
  refine ⟨?_, ?_, ?_⟩
  · exact le_trans (hsqlite .empty _ (by decide)) (by decide +kernel)
  · exact le_trans (hredis .double Redis.lua51 [] _ (by decide +kernel) (by decide) (by decide))
      (by decide +kernel)
  · let post : List Postgres.Tx.Label := [.claim "q" 9000 1 "A" 60000 ["j"],
      .failSelect 0 "j" "err" 70000, .failWrite 0 20000, .commit 0, .claim "q" 80000 1 "B" 90000 []]
    have hsome : (run Postgres.Tx.step (.init 2 0) ([.save once] ++ post)).isSome := by decide +kernel
    obtain ⟨t, ht⟩ := Option.isSome_iff_exists.mp hsome
    obtain ⟨s, hs, ht⟩ := run_append.mp ht
    have hrec : (run Postgres.Tx.step (.init 2 0) [.save once]).map (fun s =>
        total Postgres.Tx.step (Postgres.Tx.recoveries "j") s post) = some 0 := by decide +kernel
    rw [hs] at hrec
    have hzero : total Postgres.Tx.step (Postgres.Tx.recoveries "j") s post = 0 := Option.some.inj hrec
    refine ⟨s, hs, le_trans (hpostgres 2 0 [] post s t hs ht (by decide +kernel) (by decide)) ?_⟩
    exact le_of_eq (congrArg (1 + ·) hzero)

/-- **A worker that crashes is not counted.**  A job that may be tried once is claimed by `A`, which
crashes; `RecoverStale` takes it back, and `B` claims it. -/
theorem crashed_again :
    total Sqlite.step (Sqlite.claims "j") (Sqlite.Db.empty.save once)
        [.claimDue "q" 9000 1 "A" 60000, .recoverStale 100000, .claimDue "q" 110000 1 "B" 160000] = 2 ∧
    total (Redis.callStep Redis.lua51) (Redis.claimCount Redis.lua51 "j")
        (Redis.runCalls Redis.lua51 (Redis.Db.empty .double) [.save once])
        [.claimDue "q" 9000 1 "A" 60000, .recoverStale 100000, .claimDue "q" 110000 1 "B" 160000] = 2 ∧
    (run Postgres.Tx.step (.init 2 0) [.save once]).map (fun s =>
        total Postgres.Tx.step (Postgres.Tx.claims "j") s [.claim "q" 9000 1 "A" 60000 ["j"],
          .tick 100000, .recoverStale 100000, .claim "q" 110000 1 "B" 160000 ["j"]]) = some 2 ∧
    (run Postgres.Tx.step (.init 2 0) [.save once, .claim "q" 9000 1 "A" 60000 ["j"],
      .tick 100000, .recoverStale 100000, .claim "q" 110000 1 "B" 160000 ["j"]]).isSome ∧
    once.attempt = 0 ∧ once.maxAttempts = 1 := by
  refine ⟨?_, ?_, ?_, ?_, rfl, rfl⟩ <;> decide +kernel

end GS.Attempts
