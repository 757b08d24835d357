import GoSchedule.Redis.Commands
import GoSchedule.Redis.Fields
import GoSchedule.Redis.Lease
import GoSchedule.Redis.Recurring

/-!
# The texts of the keys

Every key is `{goschedule}:`, a word, and what the caller has chosen: IDs and queues may be any strings.

* `Key`, `Key.text`   the kinds of keys, and how `keys.go` writes them;
* `text_eq_iff`       **two keys that differ have different texts**, but for one pair: the hash of a
  schedule with the ID `all` has the key of the set of all schedules;
* `Encoded`           a priority is only ever stored as the number that `pendingKey` writes:
  `encoded_execAll`, after any commands;
* `recoverStale_score`   **the recovery script, which writes the key of the bucket by itself, writes the
  one of the client**: a job it recovers goes to the bucket of its queue and priority, and to no other
  set.
-/

namespace GS.Redis
open Decimal

variable {ρ : Scores}

def workersKey : String := keyPrefix ++ "workers"

inductive Key where
  | job (id : JobID)
  | pending (queue : String) (p : Priority)
  | claimed
  | recurring (id : JobID)
  | recurringAll
  | lease (id : JobID)
  | workers
deriving DecidableEq, Repr

namespace Key

def text : Key → String
  | job id => jobKey id
  | pending queue p => pendingKey queue p
  | claimed => claimedKey
  | recurring id => recurringKey id
  | recurringAll => recurringAllKey
  | lease id => leaseKey id
  | workers => workersKey

/-! ## words -/

/-- the word after the tag; the set of all schedules has the one of a schedule -/
inductive Word where
  | job | pending | claimed | recurring | lease | workers
deriving DecidableEq

def Word.text : Word → String
  | job => "job:"
  | pending => "pending:"
  | claimed => "claimed"
  | recurring => "recurring:"
  | lease => "lease:"
  | workers => "workers"

def word : Key → Word
  | job _ => .job
  | pending _ _ => .pending
  | claimed => .claimed
  | recurring _ | recurringAll => .recurring
  | lease _ => .lease
  | workers => .workers

theorem text_eq (k : Key) : ∃ rest, k.text = keyPrefix ++ (k.word.text ++ rest) := by
  cases k with
  | job id => exact ⟨id, String.append_assoc ..⟩
  | pending queue p =>
    exact ⟨queue ++ (":p" ++ itoa p.toNat), by simp only [text, pendingKey, word, Word.text,
      String.append_assoc]⟩
  | claimed => exact ⟨"", by decide⟩
  | recurring id => exact ⟨id, String.append_assoc ..⟩
  | recurringAll => exact ⟨"all", by decide⟩
  | lease id => exact ⟨id, String.append_assoc ..⟩
  | workers => exact ⟨"", by decide⟩

/-- the first letter is enough -/
theorem word_of_append {w w' : Word} {rest rest' : String} (h : w.text ++ rest = w'.text ++ rest') :
    w = w' := by
  have hhead : ∀ (w : Word) (rest : String), (w.text ++ rest).toList.head? = w.text.toList.head? := by
    intro w rest
    rw [String.toList_append]
    cases w <;> rfl
  have h' := congrArg (fun s => s.toList.head?) h
  simp only [hhead] at h'
  revert h'
  cases w <;> cases w' <;> decide

theorem word_eq_of_text {k k' : Key} (h : k.text = k'.text) : k.word = k'.word := by
  obtain ⟨rest, e⟩ := text_eq k
  obtain ⟨rest', e'⟩ := text_eq k'
  rw [e, e'] at h
  exact word_of_append (append_left_cancel h)

/-- the two keys with one text -/
def Clash (k k' : Key) : Prop := k = recurring "all" ∧ k' = recurringAll

theorem Clash.text {k k' : Key} (h : Clash k k') : k.text = k'.text := by
  rw [h.1, h.2]
  exact recurringKey_eq_all.mpr rfl

theorem eq_or_clash {k k' : Key} (h : k.text = k'.text) : k = k' ∨ Clash k k' ∨ Clash k' k := by
  have hw := word_eq_of_text h
  cases k with
  | job id =>
    cases k' with
    | job id' => exact Or.inl (congrArg job (jobKey_inj h))
    | _ => cases hw
  | pending queue p =>
    cases k' with
    | pending queue' p' =>
      obtain ⟨rfl, rfl⟩ := pendingKey_inj h
      exact Or.inl rfl
    | _ => cases hw
  | claimed =>
    cases k' with
    | claimed => exact Or.inl rfl
    | _ => cases hw
  | recurring id =>
    cases k' with
    | recurring id' => exact Or.inl (congrArg recurring (recurringKey_inj h))
    | recurringAll => exact Or.inr (Or.inl ⟨congrArg recurring (recurringKey_eq_all.mp h), rfl⟩)
    | _ => cases hw
  | recurringAll =>
    cases k' with
    | recurring id' =>
      exact Or.inr (Or.inr ⟨congrArg recurring (recurringKey_eq_all.mp h.symm), rfl⟩)
    | recurringAll => exact Or.inl rfl
    | _ => cases hw
  | lease id =>
    cases k' with
    | lease id' => exact Or.inl (congrArg lease (leaseKey_inj h))
    | _ => cases hw
  | workers =>
    cases k' with
    | workers => exact Or.inl rfl
    | _ => cases hw

theorem text_eq_iff {k k' : Key} : k.text = k'.text ↔ k = k' ∨ Clash k k' ∨ Clash k' k := by
  constructor
  · exact eq_or_clash
  · rintro (rfl | h | h)
    · rfl
    · exact h.text
    · exact h.text.symm

end Key

/-! ## the field `priority` -/

/-- a priority is stored as `strconv.Itoa` writes it -/
def Encoded (db : Db ρ) : Prop :=
  ∀ key v, db.hget key "priority" = some v → ∃ p : Priority, v = itoa p.toNat

section
variable {db db' : Db ρ} {lua : Lua}

theorem encoded_empty : Encoded (Db.empty ρ) := by
  intro key v h
  cases h

theorem Encoded.of_fieldKept (h : Encoded db) (hk : FieldKept "priority" db db') : Encoded db' :=
  fun key v hv => h key v (hk key v hv)

theorem Encoded.save (h : Encoded db) (j : Job) : Encoded (save j db) := by
  have hset : Encoded (db.hset (jobKey (normalize j).id) (serializeJob (normalize j))) := by
    intro key v hv
    by_cases e : key = jobKey (normalize j).id
    · subst e
      unfold Db.hget at hv
      rw [hash_hset_self] at hv
      exact ⟨j.priority, (Option.some.inj hv).symm⟩
    · unfold Db.hget at hv
      rw [hash_hset_ne db e] at hv
      exact h key v hv
  unfold Redis.save
  dsimp only
  split
  · exact hset
  · exact hset

theorem Encoded.exec (h : Encoded db) (c : Command) : Encoded (exec lua db c) := by
  cases c with
  | save j => exact h.save j
  | claim q now n w lu =>
    exact h.of_fieldKept (fieldKept_of_hget (hget_claim (by decide) q now n w lu db))
  | ack id => exact h.of_fieldKept ((ack_edit id db).fieldKept (by decide))
  | fail b id msg t now => exact h.of_fieldKept ((fail_edit id db lua b msg t now).fieldKept (by decide))
  | cancel b id => exact h.of_fieldKept ((cancel_edit id db b).fieldKept (by decide))
  | reschedule b id t now => exact h.of_fieldKept ((reschedule_edit id db b t now).fieldKept (by decide))
  | recoverStale clock =>
    exact h.of_fieldKept (fieldKept_of_hget (hget_recoverStale (by decide) lua clock db))

theorem encoded_execAll (lua : Lua) (cmds : List Command) : Encoded (execAll ρ lua cmds) := by
  induction cmds using List.reverseRecOn with
  | nil => exact encoded_empty
  | append_singleton cmds c ih =>
    rw [execAll_snoc]
    exact ih.exec c

/-! ## what the recovery script writes -/

theorem job_queue (db : Db ρ) (id : JobID) :
    (db.job id).queue = (db.hget (jobKey id) "queue").getD "" := by
  unfold Db.job Db.hget
  cases db.hash (jobKey id) <;> rfl

theorem job_priority (db : Db ρ) (id : JobID) : (db.job id).priority =
    UInt8.ofInt (atoi ((db.hget (jobKey id) "priority").getD "")).toInt := by
  unfold Db.job Db.hget
  cases db.hash (jobKey id) <;> rfl

/-- the key that the script puts together is the one of the client -/
theorem Encoded.pendingKey_eq (h : Encoded db) {id : JobID} {queue priority : String}
    (hq : db.hget (jobKey id) "queue" = some queue)
    (hp : db.hget (jobKey id) "priority" = some priority) :
    keyPrefix ++ "pending:" ++ queue ++ ":p" ++ priority =
      pendingKey (db.job id).queue (db.job id).priority := by
  obtain ⟨p, rfl⟩ := h _ _ hp
  rw [job_queue, job_priority, hq, hp]
  show _ = pendingKey queue (UInt8.ofInt (atoi (itoa p.toNat)).toInt)
  rw [atoi_byte]
  rfl

/-- the three fields that the script reads -/
structure Readable (db : Db ρ) (id : JobID) (queue priority runAt : String) : Prop where
  queue : db.hget (jobKey id) "queue" = some queue
  priority : db.hget (jobKey id) "priority" = some priority
  runAt : db.hget (jobKey id) "run_at" = some runAt

/-- the body of the loop, with the arguments of the call -/
def recoverJob (lua : Lua) (clock : Int) (db : Db ρ) (id : JobID) : Db ρ × Bool :=
  recoverOne lua claimedKey (keyPrefix ++ "job:") (keyPrefix ++ "pending:") statePendingArg clock db id

/-- the scores of a job that was moved to a bucket -/
def bucketScore (db : Db ρ) (id : JobID) (bucket runAt k : String) : Option Int :=
  if k = bucket then some (ρ.number runAt)
  else if k = claimedKey then none else (db.zset k).score id

section
variable {clock : Int} {id i : JobID} {queue priority runAt : String}

theorem recoverJob_score (h : Readable db id queue priority runAt) (k : String) :
    ((recoverJob lua clock db id).1.zset k).score id =
      bucketScore db id (keyPrefix ++ "pending:" ++ queue ++ ":p" ++ priority) runAt k := by
  have e : recoverJob lua clock db id =
      (((db.zrem claimedKey id).hset (jobKey id) [("state", statePendingArg), ("locked_by", ""),
        ("locked_until", "0"), ("updated_at", lua.tostring clock)]).zadd
        (keyPrefix ++ "pending:" ++ queue ++ ":p" ++ priority) runAt id, true) := by
    unfold recoverJob recoverOne
    dsimp only
    rw [show keyPrefix ++ "job:" ++ id = jobKey id from rfl, h.queue, h.priority, h.runAt]
  rw [e, score_zadd, bucketScore]
  simp only [and_true]
  split
  · rfl
  · show ((db.zrem claimedKey id).zset k).score id = _
    rw [score_zrem]
    simp only [and_true]

theorem readable_of_recoverJob (h : (recoverJob lua clock db id).2 = true) :
    ∃ queue priority runAt, Readable db id queue priority runAt := by
  unfold recoverJob recoverOne at h
  dsimp only at h
  split at h
  · next queue priority runAt hq hp hr => exact ⟨queue, priority, runAt, hq, hp, hr⟩
  · cases h

/-- a pass writes none of the three fields -/
theorem readable_recoverJob_iff : Readable (recoverJob lua clock db i).1 id queue priority runAt ↔
    Readable db id queue priority runAt := by
  have hget : ∀ f, f ∉ lockFields → (recoverJob lua clock db i).1.hget (jobKey id) f =
      db.hget (jobKey id) f := fun f hf => hget_recoverOne hf lua clock db i (jobKey id)
  constructor
  · intro h
    exact ⟨hget "queue" (by decide) ▸ h.queue, hget "priority" (by decide) ▸ h.priority,
      hget "run_at" (by decide) ▸ h.runAt⟩
  · intro h
    exact ⟨(hget "queue" (by decide)).trans h.queue, (hget "priority" (by decide)).trans h.priority,
      (hget "run_at" (by decide)).trans h.runAt⟩

theorem readable_of_mem_fold {ids acc : List JobID}
    (h : id ∈ (ids.foldl (recoverStep lua clock) (db, acc)).2) :
    id ∈ acc ∨ id ∈ ids ∧ ∃ queue priority runAt, Readable db id queue priority runAt := by
  induction ids generalizing db acc with
  | nil => exact Or.inl h
  | cons i ids ih =>
    rcases ih h with hacc | ⟨hid, queue, priority, runAt, hs⟩
    · change id ∈ if (recoverJob lua clock db i).2 = true then acc ++ [i] else acc at hacc
      split at hacc
      · next hmoved =>
        rcases List.mem_append.mp hacc with hacc | hi
        · exact Or.inl hacc
        · rw [List.mem_singleton.mp hi]
          exact Or.inr ⟨List.mem_cons_self, readable_of_recoverJob hmoved⟩
      · exact Or.inl hacc
    · exact Or.inr ⟨List.mem_cons_of_mem i hid, queue, priority, runAt, readable_recoverJob_iff.mp hs⟩

/-- the passes of other jobs -/
theorem score_fold_of_not_mem {ids acc : List JobID} (h : id ∉ ids) (k : String) :
    ((ids.foldl (recoverStep lua clock) (db, acc)).1.zset k).score id = (db.zset k).score id := by
  induction ids generalizing db acc with
  | nil => rfl
  | cons i ids ih =>
    obtain ⟨hne, hid⟩ := not_or.mp (mt List.mem_cons.mpr h)
    exact (ih hid).trans ((recoverOne_touches i db lua clock).score k id hne)

theorem score_fold_of_mem {ids acc : List JobID} (hn : ids.Nodup) (hid : id ∈ ids)
    (h : Readable db id queue priority runAt) (k : String) :
    ((ids.foldl (recoverStep lua clock) (db, acc)).1.zset k).score id =
      bucketScore db id (keyPrefix ++ "pending:" ++ queue ++ ":p" ++ priority) runAt k := by
  induction ids generalizing db acc with
  | nil => cases hid
  | cons i ids ih =>
    obtain ⟨hi, hn⟩ := List.nodup_cons.mp hn
    by_cases e : id = i
    · subst e
      exact (score_fold_of_not_mem hi k).trans (recoverJob_score h k)
    · have hid := (List.mem_cons.mp hid).resolve_left e
      refine (ih hn hid (readable_recoverJob_iff.mpr h)).trans ?_
      rw [bucketScore, bucketScore, show ((recoverJob lua clock db i).1.zset k).score id =
        (db.zset k).score id from (recoverOne_touches i db lua clock).score k id e]

/-- **A recovered job is in the bucket of its queue and priority**, and where it was before, but for the
set of the claimed ones. -/
theorem recoverStale_score (henc : Encoded db) (h : id ∈ (recoverStale lua clock db).2) (k : String) :
    ((recoverStale lua clock db).1.zset k).score id =
      if k = pendingKey (db.job id).queue (db.job id).priority then
        some (ρ.number ((db.hget (jobKey id) "run_at").getD ""))
      else if k = claimedKey then none else (db.zset k).score id := by
  rcases readable_of_mem_fold h with hnil | ⟨hid, queue, priority, runAt, hs⟩
  · cases hnil
  · rw [← henc.pendingKey_eq hs.queue hs.priority, hs.runAt]
    exact score_fold_of_mem (ZSet.nodup_rangeByScore _ _ _) hid hs k

end
end

/-- **The keys of the store.**  No two keys share a text but the pair of `Clash`; and after any steps of
the server, a job that `RecoverStale` gives back is put under the key that `pendingKey` gives for it. -/
theorem keys_distinct_iff (ρ : Scores) (lua : Lua) (cmds : List Command) (clock : Int) :
    (∀ k k' : Key, k.text = k'.text ↔ k = k' ∨ Key.Clash k k' ∨ Key.Clash k' k) ∧
    ∀ id ∈ (recoverStale lua clock (execAll ρ lua cmds)).2, ∀ k,
      ((recoverStale lua clock (execAll ρ lua cmds)).1.zset k).score id =
        if k = pendingKey ((execAll ρ lua cmds).job id).queue ((execAll ρ lua cmds).job id).priority then
          some (ρ.number (((execAll ρ lua cmds).hget (jobKey id) "run_at").getD ""))
        else if k = claimedKey then none else ((execAll ρ lua cmds).zset k).score id :=
  ⟨fun _ _ => Key.text_eq_iff, fun _ hid k => recoverStale_score (encoded_execAll lua cmds) hid k⟩

-- a queue whose name looks like the end of a key
example : (recoverStale lua51 200 (execAll .double lua51
    [.save { id := "j", queue := "q:p1", priority := priorityHigh, runAt := 5 },
      .claim "q:p1" 10 1 "A" 100])).2 = ["j"] := by decide +kernel

/-- **A schedule with the ID `all`** takes the key of the set: no schedule can be listed any more, neither
this one nor one that is stored after it. -/
theorem schedule_all_clashes : Key.text (.recurring "all") = Key.text .recurringAll ∧
    Key.recurring "all" ≠ Key.recurringAll ∧
    ((Registry.empty.upsertRecurring { id := "all" }).upsertRecurring { id := "a" }).smembers = none := by
  refine ⟨by decide, by decide, ?_⟩
  rfl

end GS.Redis
