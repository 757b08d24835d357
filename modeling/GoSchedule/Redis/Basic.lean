import GoSchedule.Lib.ZSet
import GoSchedule.Redis.Scores
import GoSchedule.Types

/-!
# The Redis store: keys, encoding and scripts

`keys.go`, the job part of `store.go` and `scripts.go` of the Redis store.

* `Db ρ`     the server: a hash and a sorted set for each key (`hash`, `zset`), with the commands the
  scripts use.  The scores are what `ρ` keeps of the integers that are sent.  The keys of hashes and of
  sorted sets never meet, so they are two maps;
* `Lua`      the number conversions of the scripts' interpreter;  `lua51`   those of Lua 5.1;
* `claimDueScript`, `ackScript`, `failScript`, `cancelScript`, `rescheduleScript`,
  `recoverStaleScript`   the scripts, with their arguments as strings, each one atomic step;
* `save`, `lookup`, `serializeJob`, `deserializeJob`   what the client sends and reads.

The times of the source are instants; on the wire they are `formatTime`, the nanoseconds since the
epoch as a 64-bit integer, and `0` for the zero time.
-/

namespace GS.Redis
open Decimal

variable {ρ : Scores}

/-! ## keys -/

def keyPrefix : String := "\x7bgoschedule\x7d:"

def jobKey (id : JobID) : String := keyPrefix ++ "job:" ++ id

def pendingKey (queue : String) (p : Priority) : String :=
  keyPrefix ++ "pending:" ++ queue ++ ":p" ++ itoa p.toNat

def claimedKey : String := keyPrefix ++ "claimed"

/-! ## encoding -/

/-- `Time.UnixNano`, which wraps -/
def unixNano (t : Time) : Int := (Int64.ofInt t).toInt

def formatTime (t : Time) : String := if t = zeroTime then "0" else itoa (unixNano t)

/-- `strconv.Atoi`: zero for what is no number, the nearest end for what is out of range -/
def atoi (s : String) : Int64 :=
  match parse s with
  | none => 0
  | some n =>
    if n < Int64.minValue.toInt then Int64.minValue
    else if Int64.maxValue.toInt < n then Int64.maxValue
    else Int64.ofInt n

def parseTime (s : String) : Time := if atoi s = 0 then zeroTime else (atoi s).toInt

/-- a byte of a payload is one character -/
def bytesToString (bs : List UInt8) : String := String.ofList (bs.map fun b => Char.ofNat b.toNat)

def stringToBytes (s : String) : List UInt8 := s.toList.map fun c => UInt8.ofNat c.toNat

def serializeJob (j : Job) : List (String × String) :=
  [("id", j.id), ("queue", j.queue), ("name", j.name), ("payload", bytesToString j.payload),
    ("codec_name", j.codecName), ("priority", itoa j.priority.toNat),
    ("run_at", formatTime j.runAt), ("attempt", itoa j.attempt.toInt),
    ("max_attempts", itoa j.maxAttempts.toInt), ("state", itoa j.state.toNat),
    ("timeout_ns", itoa j.timeout.toInt), ("locked_by", j.lockedBy),
    ("locked_until", formatTime j.lockedUntil), ("last_error", j.lastError),
    ("recurring_id", j.recurringID), ("created_at", formatTime j.createdAt),
    ("updated_at", formatTime j.updatedAt)]

/-- a missing field reads as the empty string -/
def deserializeJob (m : String → Option String) : Job :=
  let get := fun f => (m f).getD ""
  { id := get "id", queue := get "queue", name := get "name",
    payload := stringToBytes (get "payload"), codecName := get "codec_name",
    priority := UInt8.ofInt (atoi (get "priority")).toInt, runAt := parseTime (get "run_at"),
    attempt := atoi (get "attempt"), maxAttempts := atoi (get "max_attempts"),
    state := UInt8.ofInt (atoi (get "state")).toInt, timeout := atoi (get "timeout_ns"),
    lockedBy := get "locked_by", lockedUntil := parseTime (get "locked_until"),
    lastError := get "last_error", recurringID := get "recurring_id",
    createdAt := parseTime (get "created_at"), updatedAt := parseTime (get "updated_at") }

/-! ## the server -/

/-- HSET of a list of fields, on the hash `m` -/
def writeFields (fields : List (String × String)) (m : String → Option String) : String → Option String :=
  fields.foldl (fun m f => Function.update m f.1 (some f.2)) m

/-- a score, or the end of a range of scores, that a client or a script sends; all of them are written by
`itoa` -/
def Scores.number (ρ : Scores) (s : String) : Int := ρ.ofInt ((parse s).getD 0)

structure Db (ρ : Scores) where
  hash : String → Option (String → Option String)
  zset : String → ZSet Int String

namespace Db

def empty (ρ : Scores) : Db ρ := ⟨fun _ => none, fun _ => ZSet.empty⟩

def hget (db : Db ρ) (key field : String) : Option String := (db.hash key).bind fun m => m field

def hset (db : Db ρ) (key : String) (fields : List (String × String)) : Db ρ :=
  { db with hash := Function.update db.hash key (some
      (writeFields fields ((db.hash key).getD fun _ => none))) }

def del (db : Db ρ) (key : String) : Db ρ := { db with hash := Function.update db.hash key none }

def zadd (db : Db ρ) (key score member : String) : Db ρ :=
  { db with zset := Function.update db.zset key ((db.zset key).add (ρ.number score) member) }

def zrem (db : Db ρ) (key member : String) : Db ρ :=
  { db with zset := Function.update db.zset key ((db.zset key).rem member) }

def zcard (db : Db ρ) (key : String) : Nat := (db.zset key).members.length

end Db

/-- `tonumber` and `tostring` of the scripts: numbers are doubles, exact up to `2^53`, and are printed
with fourteen significant digits, so only smaller integers are printed as they are -/
structure Lua where
  tonumber : String → Option Int
  tostring : Int → String
  tonumber_itoa : ∀ n : Int, n.natAbs ≤ 9007199254740992 → tonumber (itoa n) = some n
  tostring_eq : ∀ n : Int, n.natAbs < 100000000000000 → tostring n = itoa n

/-- Lua 5.1: `tonumber` reads a double, `tostring` prints it with `%.14g` -/
def lua51 : Lua where
  tonumber := Double.read
  tostring := Double.print
  tonumber_itoa := fun n h => by rw [Double.read_itoa, Double.round_of_le h]
  tostring_eq := fun _ h => Double.print_of_lt h

/-! ## scripts -/

section
variable (lua : Lua)

/-- the body of the inner loop of `claimDueScript` -/
def claimOne (zset claimed now worker lockUntil jobPrefix stateClaimed : String) (db : Db ρ)
    (id : String) : Db ρ :=
  ((db.zrem zset id).zadd claimed lockUntil id).hset (jobPrefix ++ id)
    [("state", stateClaimed), ("locked_by", worker), ("locked_until", lockUntil),
      ("updated_at", now)]

/-- the outer loop, over the buckets; the second result is the list of claimed IDs -/
def claimBuckets (claimed now worker lockUntil jobPrefix stateClaimed : String) :
    List String → Int → Db ρ → Db ρ × List String
  | [], _, db => (db, [])
  | zset :: rest, remaining, db =>
    if remaining ≤ 0 then (db, [])
    else
      let ids := ((db.zset zset).rangeByScore none (ρ.number now)).take remaining.toNat
      let db' := ids.foldl (claimOne zset claimed now worker lockUntil jobPrefix stateClaimed) db
      let r := claimBuckets claimed now worker lockUntil jobPrefix stateClaimed rest
        (remaining - ids.length) db'
      (r.1, ids ++ r.2)

def claimDueScript (buckets : List String) (claimed now : String) (n : Int)
    (worker lockUntil jobPrefix stateClaimed : String) (db : Db ρ) : Db ρ × List String :=
  claimBuckets claimed now worker lockUntil jobPrefix stateClaimed buckets n db

def ackScript (job claimed id stateClaimed : String) (db : Db ρ) : Db ρ × String :=
  if db.hget job "state" ≠ some stateClaimed then (db, "missing")
  else ((db.zrem claimed id).del job, "ok")

def failScript (job claimed pending id errMsg nextAt now statePending stateClaimed : String)
    (db : Db ρ) : Db ρ × String :=
  if db.hget job "state" ≠ some stateClaimed then (db, "missing")
  else
    let attempt := ((db.hget job "attempt").bind lua.tonumber).getD 0 + 1
    let maxa := ((db.hget job "max_attempts").bind lua.tonumber).getD 0
    let db := db.zrem claimed id
    if 0 < maxa ∧ maxa ≤ attempt then (db.del job, "ok")
    else
      ((db.hset job [("attempt", lua.tostring attempt), ("last_error", errMsg),
        ("state", statePending), ("run_at", nextAt), ("locked_by", ""), ("locked_until", "0"),
        ("updated_at", now)]).zadd pending nextAt id, "ok")

def cancelScript (job pending id statePending : String) (db : Db ρ) : Db ρ × String :=
  if db.hash job = none then (db, "missing")
  else if db.hget job "state" ≠ some statePending then (db, "not_pending")
  else ((db.zrem pending id).del job, "ok")

def rescheduleScript (job pending id newRun now statePending : String) (db : Db ρ) : Db ρ × String :=
  if db.hash job = none then (db, "missing")
  else if db.hget job "state" ≠ some statePending then (db, "not_pending")
  else
    ((db.hset job [("run_at", newRun), ("updated_at", now)]).zadd pending newRun id, "ok")

/-- the body of the loop of `recoverStaleScript`; the second result says whether the job was moved -/
def recoverOne (claimed jobPrefix pendingPrefix statePending : String) (nowNanos : Int) (db : Db ρ)
    (id : String) : Db ρ × Bool :=
  let job := jobPrefix ++ id
  match db.hget job "queue", db.hget job "priority", db.hget job "run_at" with
  | some queue, some priority, some runAt =>
    (((db.zrem claimed id).hset job [("state", statePending), ("locked_by", ""),
      ("locked_until", "0"), ("updated_at", lua.tostring nowNanos)]).zadd
      (pendingPrefix ++ queue ++ ":p" ++ priority) runAt id, true)
  | _, _, _ => (db.zrem claimed id, false)

/-- `nowNanos` is the time of the server's own clock, a number of the script that is compared as it is; the
second result lists the recovered IDs -/
def recoverStaleScript (claimed jobPrefix pendingPrefix statePending : String) (nowNanos : Int)
    (db : Db ρ) : Db ρ × List String :=
  ((db.zset claimed).rangeByScore (some 1) nowNanos).foldl (fun r id =>
    let x := recoverOne lua claimed jobPrefix pendingPrefix statePending nowNanos r.1 id
    (x.1, if x.2 then r.2 ++ [id] else r.2)) (db, [])

end

/-! ## calls of the client -/

def statePendingArg : String := itoa statePending.toNat
def stateClaimedArg : String := itoa stateClaimed.toNat

/-- the job as `Save` writes it -/
def normalize (j : Job) : Job :=
  { j with
    state := if j.state = 0 then statePending else j.state,
    maxAttempts := if j.maxAttempts = 0 then 3 else j.maxAttempts }

/-- `Save`, one MULTI block; the client sends the score as a double -/
def save (j : Job) (db : Db ρ) : Db ρ :=
  let j := normalize j
  let db := db.hset (jobKey j.id) (serializeJob j)
  if j.state = statePending then
    db.zadd (pendingKey j.queue j.priority)
      (itoa (if j.runAt = zeroTime then 0 else unixNano j.runAt)) j.id
  else db

/-- the HMGET before `Fail`, `Cancel` and `Reschedule`: the bucket of the job, if there is one -/
def lookup (id : JobID) (db : Db ρ) : Option String :=
  (db.hget (jobKey id) "queue").map fun queue =>
    pendingKey queue (UInt8.ofInt (atoi ((db.hget (jobKey id) "priority").getD "")).toInt)

def priorityBuckets (queue : String) : List String :=
  [pendingKey queue priorityCritical, pendingKey queue priorityHigh,
    pendingKey queue priorityNormal, pendingKey queue priorityLow]

/-- the script of `ClaimDue` -/
def claim (queue : String) (now : Time) (n : Int) (workerID : String) (lockUntil : Time) (db : Db ρ) :
    Db ρ × List String :=
  claimDueScript (priorityBuckets queue) claimedKey (formatTime now) n workerID
    (formatTime lockUntil) (keyPrefix ++ "job:") stateClaimedArg db

def ack (id : JobID) (db : Db ρ) : Db ρ × String :=
  ackScript (jobKey id) claimedKey id stateClaimedArg db

/-- the scripts of `Fail`, `Cancel` and `Reschedule`, with the bucket that the lookup gave -/
def fail (lua : Lua) (bucket : String) (id : JobID) (errMsg : String) (nextAttemptAt now : Time)
    (db : Db ρ) : Db ρ × String :=
  failScript lua (jobKey id) claimedKey bucket id errMsg (formatTime nextAttemptAt)
    (formatTime now) statePendingArg stateClaimedArg db

def cancel (bucket : String) (id : JobID) (db : Db ρ) : Db ρ × String :=
  cancelScript (jobKey id) bucket id statePendingArg db

def reschedule (bucket : String) (id : JobID) (newTime now : Time) (db : Db ρ) : Db ρ × String :=
  rescheduleScript (jobKey id) bucket id (formatTime newTime) (formatTime now) statePendingArg db

def recoverStale (lua : Lua) (nowNanos : Int) (db : Db ρ) : Db ρ × List String :=
  recoverStaleScript lua claimedKey (keyPrefix ++ "job:") (keyPrefix ++ "pending:")
    statePendingArg nowNanos db

/-- one ZCARD for each declared priority -/
def queueSize (queue : String) (db : Db ρ) : Nat :=
  ([priorityLow, priorityNormal, priorityHigh, priorityCritical].map fun p =>
    db.zcard (pendingKey queue p)).sum

/-- `Ack`'s and `Fail`'s result -/
def ackErr (res : String) : Option StoreErr := if res = "ok" then none else some .jobNotFound

/-- `Cancel`'s and `Reschedule`'s result -/
def cancelErr (res : String) : Option StoreErr :=
  if res = "ok" then none
  else if res = "missing" then some .jobNotFound
  else some .jobNotPending

end GS.Redis
