import GoSchedule.Lib.Run
import GoSchedule.Lib.Sim
import GoSchedule.Redis.Basic

/-!
# The calls of the Redis store, one after another

Each method of the store as a whole: the lookup, the script and what the client makes of the reply.
The calls of several clients are interleaved in `Redis.System`; here one call ends before the next
begins.

* `Op`, `Res`   a call with its arguments and what it returns.  `now` is the client's clock, `clock`
  the server's;
* `call`          what a call does;  `history`, `runCalls`   what a sequence of calls returns and leaves;
* `Allowed lua C db ops`   a condition on each call and the store that it is made in.
-/

namespace GS.Redis
open Decimal

variable {ρ : Scores}

inductive Op where
  | save (j : Job)
  | claimDue (queue : String) (now : Time) (n : Int) (workerID : String) (lockUntil : Time)
  | ack (id : JobID)
  | fail (id : JobID) (errMsg : String) (nextAttemptAt now : Time)
  | cancel (id : JobID)
  | reschedule (id : JobID) (newTime now : Time)
  | recoverStale (clock : Int)
  | queueSize (queue : String)
deriving DecidableEq, Repr

inductive Res where
  | err (e : Option StoreErr)
  | jobs (l : List Job)
  | count (n : Nat)
deriving DecidableEq, Repr

/-- HGETALL; a hash that is missing has no fields -/
def Db.job (db : Db ρ) (id : JobID) : Job := deserializeJob ((db.hash (jobKey id)).getD fun _ => none)

/-- `script` on the bucket of the job, if the lookup finds one -/
def withBucket (id : JobID) (db : Db ρ) (script : String → Db ρ × String)
    (err : String → Option StoreErr) : Db ρ × Res :=
  match lookup id db with
  | none => (db, .err (some .jobNotFound))
  | some bucket => ((script bucket).1, .err (err (script bucket).2))

def call (lua : Lua) (db : Db ρ) : Op → Db ρ × Res
  | .save j => (save j db, .err none)
  | .claimDue queue now n workerID lockUntil =>
    let r := claim queue now n workerID lockUntil db
    (r.1, .jobs (r.2.map r.1.job))
  | .ack id => ((ack id db).1, .err (ackErr (ack id db).2))
  | .fail id errMsg nextAttemptAt now =>
    withBucket id db (fun bucket => fail lua bucket id errMsg nextAttemptAt now db) ackErr
  | .cancel id => withBucket id db (fun bucket => cancel bucket id db) cancelErr
  | .reschedule id newTime now =>
    withBucket id db (fun bucket => reschedule bucket id newTime now db) cancelErr
  | .recoverStale clock =>
    let r := recoverStale lua clock db
    (r.1, .count r.2.length)
  | .queueSize queue => (db, .count (queueSize queue db))

/-- the calls of a sequence with what they return -/
def history (lua : Lua) : Db ρ → List Op → List (Op × Res)
  | _, [] => []
  | db, o :: ops => (o, (call lua db o).2) :: history lua (call lua db o).1 ops

def runCalls (lua : Lua) (db : Db ρ) (ops : List Op) : Db ρ :=
  ops.foldl (fun db o => (call lua db o).1) db

theorem history_snoc (lua : Lua) (db : Db ρ) (ops : List Op) (o : Op) :
    history lua db (ops ++ [o]) = history lua db ops ++ [(o, (call lua (runCalls lua db ops) o).2)] := by
  induction ops generalizing db with
  | nil => rfl
  | cons a ops ih =>
    show (a, _) :: history lua _ (ops ++ [o]) = _
    rw [ih]
    rfl

theorem runCalls_snoc (lua : Lua) (db : Db ρ) (ops : List Op) (o : Op) :
    runCalls lua db (ops ++ [o]) = (call lua (runCalls lua db ops) o).1 := by
  unfold runCalls
  rw [List.foldl_append]
  rfl

/-- every call of the sequence is made in a store where `C` allows it -/
def Allowed (lua : Lua) (C : Db ρ → Op → Prop) (db : Db ρ) (ops : List Op) : Prop :=
  Trans.Meets (fun db o => some (call lua db o).1) C db ops

instance (lua : Lua) (C : Db ρ → Op → Prop) [∀ db o, Decidable (C db o)] (db : Db ρ) (ops : List Op) :
    Decidable (Allowed lua C db ops) := inferInstanceAs (Decidable (Trans.Meets _ C db ops))

theorem run_eq (lua : Lua) (db : Db ρ) (ops : List Op) :
    Trans.run (fun db o => some (call lua db o).1) db ops = some (runCalls lua db ops) := by
  induction ops generalizing db with
  | nil => rfl
  | cons o ops ih => exact ih _

theorem Allowed.snoc {lua : Lua} {C : Db ρ → Op → Prop} {db : Db ρ} {ops : List Op} {o : Op}
    (h : Allowed lua C db (ops ++ [o])) :
    Allowed lua C db ops ∧ C (runCalls lua db ops) o := by
  obtain ⟨h1, h2⟩ := Trans.Meets.append h (run_eq lua db ops)
  exact ⟨h1, h2.1⟩

/-- a call that `C` allows, with its result -/
def Calls (lua : Lua) (C : Db ρ → Op → Prop) (db : Db ρ) (o : Op) (r : Res) (db' : Db ρ) : Prop :=
  C db o ∧ call lua db o = (db', r)

theorem Allowed.runs {lua : Lua} {C : Db ρ → Op → Prop} {db : Db ρ} {ops : List Op}
    (h : Allowed lua C db ops) :
    Sim.Runs (Calls lua C) db (history lua db ops) (runCalls lua db ops) := by
  induction ops using List.reverseRecOn with
  | nil => exact .nil
  | append_singleton ops o ih =>
    obtain ⟨h1, h2⟩ := h.snoc
    rw [history_snoc, runCalls_snoc]
    exact .snoc (ih h1) ⟨h2, rfl⟩

end GS.Redis
