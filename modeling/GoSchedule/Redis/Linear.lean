import GoSchedule.Redis.Equiv
import GoSchedule.Redis.Fetch

/-!
# Clients of one Redis server, as if one after another

A call of several steps has one at which it takes effect: the script, or the lookup if that finds no
job.  The book of a run lists the calls in that order, with what the clients were given.

* `takes`       the call that takes effect in a step, and its result if it is known then;
* `Book`, `Book.step`   a run with its book.  `ClaimDue` returns when it has read the last job;
* `step_explains`   a step in which a call takes effect does to the server what the whole call does, and
  every other step does nothing.  The bucket of a lookup stays right, or the job is gone;
* `hash_unread`   nobody writes the hash of a job that an undisturbed claim is still to read;
* `clients_linearize`   **the server is as if the calls had been made one after another in the order of the
  book, and the results are those of that sequence**: all of them but those of claims, and of claims too
  if they are undisturbed.
-/

namespace GS.Redis
open Trans Decimal MapOn

variable {ρ : Scores}

/-- a call that has taken effect, and what it has returned, if it has -/
structure Taken where
  op : Op
  res : Option Res

/-- `claims` says which claim it is that a caller reads -/
structure Book (ρ : Scores) where
  sys : Sys ρ
  taken : List Taken
  claims : Caller → Nat

namespace Book

def init (ρ : Scores) : Book ρ := ⟨.init ρ, [], fun _ => 0⟩

def ops (b : Book ρ) : List Op := b.taken.map Taken.op

/-- the book when the call of `c` returns `got` -/
def returned (b : Book ρ) (c : Caller) (got : List Job) : List Taken :=
  b.taken.modify (b.claims c) fun e => { e with res := some (.jobs got) }

def afterFetch (b : Book ρ) : Label → List Taken
  | .fetch c =>
    match (b.sys.calls c).result with
    | some got => b.returned c got
    | none => b.taken
  | _ => b.taken

def claimsAfter (b : Book ρ) : Label → Caller → Nat
  | .claim c .. => Function.update b.claims c b.taken.length
  | _ => b.claims

end Book

section
variable (lua : Lua)

/-- a lookup that finds no job is the whole call -/
def missing (s : Sys ρ) (id : JobID) (op : Op) : Option Taken :=
  match lookup id s.db with
  | none => some ⟨op, some (.err (some .jobNotFound))⟩
  | some _ => none

/-- the script of a call that has its bucket; the clock of the caller is read for it -/
def scriptOf (s : Sys ρ) (now : Time) : Call → Option Taken
  | .fail id bucket errMsg t =>
    some ⟨.fail id errMsg t now, some (.err (ackErr (fail lua bucket id errMsg t now s.db).2))⟩
  | .cancel id bucket => some ⟨.cancel id, some (.err (cancelErr (cancel bucket id s.db).2))⟩
  | .reschedule id bucket t =>
    some ⟨.reschedule id t now, some (.err (cancelErr (reschedule bucket id t now s.db).2))⟩
  | _ => none

def takes (s : Sys ρ) : Label → Option Taken
  | .save j => some ⟨.save j, some (.err none)⟩
  | .claim c q now n lockUntil => some ⟨.claimDue q now n c.worker lockUntil, none⟩
  | .fetch _ => none
  | .ack _ id => some ⟨.ack id, some (.err (ackErr (ack id s.db).2))⟩
  | .failLookup _ id errMsg t => missing s id (.fail id errMsg t zeroTime)
  | .failRun c now => scriptOf lua s now (s.calls c)
  | .cancelLookup _ id => missing s id (.cancel id)
  | .cancelRun c => scriptOf lua s zeroTime (s.calls c)
  | .rescheduleLookup _ id t => missing s id (.reschedule id t zeroTime)
  | .rescheduleRun c now => scriptOf lua s now (s.calls c)
  | .recoverStale =>
    some ⟨.recoverStale s.nowNanos, some (.count (recoverStale lua s.nowNanos s.db).2.length)⟩
  | .tick _ => none

def Book.step (b : Book ρ) (a : Label) : Option (Book ρ) :=
  (Redis.step lua b.sys a).map fun t =>
    ⟨t, b.afterFetch a ++ (takes lua b.sys a).toList, b.claimsAfter a⟩

/-- what the step from `s` to `t` says of the call that takes effect in it -/
def Explains (s t : Sys ρ) : Option Taken → Prop
  | none => t.db = s.db
  | some e => (call lua s.db e.op).1 = t.db ∧ ∀ r, e.res = some r → (call lua s.db e.op).2 = r

end

section
variable {lua : Lua} {s t : Sys ρ} {T : Table} {a : Label} {c : Caller}

/-! ## one step -/

theorem explains_missing {id : JobID} {op : Op} (hdb : t.db = s.db)
    (hop : lookup id s.db = none → call lua s.db op = (s.db, .err (some .jobNotFound))) :
    Explains lua s t (missing s id op) := by
  unfold missing
  split
  · rename_i hl
    refine ⟨?_, fun r hr => ?_⟩
    · rw [hop hl]
      exact hdb.symm
    · rw [hop hl]
      exact Option.some.inj hr
  · exact hdb

theorem withBucket_missing {id : JobID} {db : Db ρ} (h : lookup id db = none)
    (script : String → Db ρ × String)
    (err : String → Option StoreErr) :
    withBucket id db script err = (db, .err (some .jobNotFound)) := by
  unfold withBucket
  rw [h]

/-- the bucket that was looked up is the one that a lookup would find now, or the job is gone and the
script says so -/
theorem withBucket_run {id : JobID} {b : String} (o : Ok s T) (hc : (s.calls c).target = some (id, b))
    (script : String → Db ρ × String) (err : String → Option StoreErr)
    (hgone : T id = none → script b = (s.db, "missing")) (herr : err "missing" = some .jobNotFound) :
    withBucket id s.db script err = ((script b).1, .err (err (script b).2)) := by
  cases hT : T id with
  | none =>
    rw [withBucket_missing (lookup_none o.rep hT), hgone hT, herr]
  | some r =>
    obtain rfl := (o.bucket c id b hc).2 r hT
    unfold withBucket
    rw [lookup_rep o.rep hT]

theorem hash_none {db : Db ρ} {id : JobID} (R : Rep db T) (hT : T id = none) :
    db.hash (jobKey id) = none := by
  have h := R id
  rw [hT] at h
  exact h.1

theorem look_same (s : Sys ρ) (c : Caller) (id : JobID) (next : String → Call) (es : List Ev) :
    ((s.record es).look c id next).db = s.db := look_db (s.record es) c id next

/-- **A call takes effect as a whole**, and every other step leaves the server as it is. -/
theorem step_explains (o : Ok s T) (h : step lua s a = some t) : Explains lua s t (takes lua s a) := by
  cases a with
  | save j =>
    obtain ⟨_, e⟩ := Option.ite_none_right_eq_some.mp h
    rw [← Option.some.inj e]
    exact ⟨rfl, fun r hr => Option.some.inj hr⟩
  | claim c q now n lu =>
    simp only [step] at h
    split at h
    · rw [← Option.some.inj h]
      refine ⟨rfl, fun r hr => ?_⟩
      cases hr
    · cases h
  | fetch c =>
    simp only [step] at h
    split at h
    · rw [← Option.some.inj h]
      rfl
    · rw [← Option.some.inj h]
      rfl
    · cases h
  | ack c id =>
    simp only [step] at h
    split at h
    · rw [← Option.some.inj h]
      exact ⟨rfl, fun r hr => Option.some.inj hr⟩
    · cases h
  | failLookup c id msg t' =>
    simp only [step] at h
    split at h
    · rw [← Option.some.inj h]
      exact explains_missing (look_same s c id _ _) fun hl => withBucket_missing hl _ _
    · cases h
  | failRun c now =>
    simp only [step] at h
    split at h
    · rename_i id b msg t' hcall
      rw [← Option.some.inj h]
      show Explains lua s _ (scriptOf lua s now (s.calls c))
      rw [hcall]
      have hrun := withBucket_run o (by rw [hcall]; rfl) (fun b => fail lua b id msg t' now s.db) ackErr
        (fun hT => fail_missing o.rep (fun r hr => by rw [hT] at hr; cases hr) ..) rfl
      exact ⟨congrArg Prod.fst hrun, fun r hr => (congrArg Prod.snd hrun).trans (Option.some.inj hr)⟩
    · cases h
  | cancelLookup c id =>
    simp only [step] at h
    split at h
    · rw [← Option.some.inj h]
      exact explains_missing (look_db s c id _) fun hl => withBucket_missing hl _ _
    · cases h
  | cancelRun c =>
    simp only [step] at h
    split at h
    · rename_i id b hcall
      rw [← Option.some.inj h]
      show Explains lua s _ (scriptOf lua s zeroTime (s.calls c))
      rw [hcall]
      have hrun := withBucket_run o (by rw [hcall]; rfl) (fun b => cancel b id s.db) cancelErr
        (fun hT => if_pos (hash_none o.rep hT)) rfl
      exact ⟨congrArg Prod.fst hrun, fun r hr => (congrArg Prod.snd hrun).trans (Option.some.inj hr)⟩
    · cases h
  | rescheduleLookup c id t' =>
    simp only [step] at h
    split at h
    · rw [← Option.some.inj h]
      exact explains_missing (look_db s c id _) fun hl => withBucket_missing hl _ _
    · cases h
  | rescheduleRun c now =>
    simp only [step] at h
    split at h
    · rename_i id b t' hcall
      rw [← Option.some.inj h]
      show Explains lua s _ (scriptOf lua s now (s.calls c))
      rw [hcall]
      have hrun := withBucket_run o (by rw [hcall]; rfl) (fun b => reschedule b id t' now s.db) cancelErr
        (fun hT => if_pos (hash_none o.rep hT)) rfl
      exact ⟨congrArg Prod.fst hrun, fun r hr => (congrArg Prod.snd hrun).trans (Option.some.inj hr)⟩
    · cases h
  | recoverStale =>
    rw [← Option.some.inj h]
    exact ⟨rfl, fun r hr => Option.some.inj hr⟩
  | tick d =>
    rw [← Option.some.inj h]
    rfl

/-! ## the hashes that are not read yet -/

theorem hash_claim {db : Db ρ} {id : JobID} {q : String} {now : Time} {n : Int} {w : String} {lu : Time}
    (h : id ∉ (claim q now n w lu db).2) :
    (claim q now n w lu db).1.hash (jobKey id) = db.hash (jobKey id) := by
  have hfold : ∀ (ps : List (String × String)) (db : Db ρ), id ∉ ps.map Prod.snd →
      (ps.foldl (fun db p => claimOne p.1 claimedKey (formatTime now) w (formatTime lu)
        (keyPrefix ++ "job:") stateClaimedArg db p.2) db).hash (jobKey id) = db.hash (jobKey id) := by
    intro ps
    induction ps with
    | nil => exact fun _ _ => rfl
    | cons p ps ih =>
      intro db hid
      obtain ⟨hne, hid⟩ := not_or.mp (mt List.mem_cons.mpr hid)
      exact (ih _ hid).trans ((claimOne_touches p.2 db _ _ _ _).hash id hne)
  unfold claim claimDueScript at h ⊢
  rw [claimBuckets_eq (nodup_priorityBuckets q) (claimedKey_not_mem q)] at h ⊢
  exact hfold _ db h

theorem hash_recover {db : Db ρ} {id : JobID} {clock : Int}
    (h : ∀ lock ∈ (db.zset claimedKey).score id, clock < lock) :
    (recoverStale lua clock db).1.hash (jobKey id) = db.hash (jobKey id) := by
  have hfold : ∀ (ids : List JobID) (db : Db ρ) (acc : List String), id ∉ ids →
      (ids.foldl (recoverStep lua clock) (db, acc)).1.hash (jobKey id) = db.hash (jobKey id) := by
    intro ids
    induction ids with
    | nil => exact fun _ _ _ => rfl
    | cons i ids ih =>
      intro db acc hid
      obtain ⟨hne, hid⟩ := not_or.mp (mt List.mem_cons.mpr hid)
      exact (ih _ _ hid).trans ((recoverOne_touches i db lua clock).hash id hne)
  refine hfold _ db [] fun hid => ?_
  obtain ⟨lock, hs, _, hle⟩ := ZSet.mem_rangeByScore.mp hid
  exact absurd hle (not_le.mpr (h lock hs))

/-- **Nobody writes the hash of a claim that is undisturbed.** -/
theorem hash_unread (o : Ok s T) (h : step lua s a = some t) (hu : Undisturbed c s a) {id : JobID}
    (hid : id ∈ (s.calls c).unread) {r : Rec} (hr : T id = some r) (hc : r.claimed = true) :
    t.db.hash (jobKey id) = s.db.hash (jobKey id) := by
  have hclaimed : ∀ r', T id = some r' → r'.claimed = true := by
    intro r' hr'
    rw [hr] at hr'
    rw [← Option.some.inj hr', hc]
  cases a with
  | save j =>
    obtain ⟨⟨hf, _⟩, e⟩ := Option.ite_none_right_eq_some.mp h
    rw [← Option.some.inj e]
    refine (save_touches s.db j).hash id fun e => hf ?_
    rw [← e]
    exact o.known id r hr
  | claim c' q now n lu =>
    simp only [step] at h
    split at h
    · rw [← Option.some.inj h]
      refine hash_claim fun hmem => ?_
      obtain ⟨db', ids, e, _, _, hp⟩ := claim_rep o.rep q now n c'.worker lu
      rw [e] at hmem
      obtain ⟨r', hr', hf, _⟩ := hp id hmem
      rw [hclaimed r' hr'] at hf
      cases hf
    · cases h
  | fetch c' =>
    simp only [step] at h
    split at h
    · rw [← Option.some.inj h]
      rfl
    · rw [← Option.some.inj h]
      rfl
    · cases h
  | ack c' id' =>
    simp only [step] at h
    split at h
    · rw [← Option.some.inj h]
      exact (ack_edit id' s.db).touches.hash id fun e => hu (e ▸ hid)
    · cases h
  | failLookup c' id' msg t' =>
    simp only [step] at h
    split at h
    · rw [← Option.some.inj h, look_same]
    · cases h
  | failRun c' now =>
    simp only [step] at h
    split at h
    · rename_i id' b msg t' hcall
      rw [← Option.some.inj h]
      have hother : FailsOther (s.calls c).unread (s.calls c') := hu
      rw [hcall] at hother
      exact (fail_edit id' s.db lua b msg t' now).touches.hash id fun e => hother (e ▸ hid)
    · cases h
  | cancelLookup c' id' =>
    simp only [step] at h
    split at h
    · rw [← Option.some.inj h, look_db]
    · cases h
  | cancelRun c' =>
    simp only [step] at h
    split at h
    · rename_i id' b hcall
      rw [← Option.some.inj h]
      by_cases e : id = id'
      · subst e
        show (cancel b id s.db).1.hash (jobKey id) = _
        rw [(cancel_refused o.rep hclaimed b).1]
      · exact (cancel_edit id' s.db b).touches.hash id e
    · cases h
  | rescheduleLookup c' id' t' =>
    simp only [step] at h
    split at h
    · rw [← Option.some.inj h, look_db]
    · cases h
  | rescheduleRun c' now =>
    simp only [step] at h
    split at h
    · rename_i id' b t' hcall
      rw [← Option.some.inj h]
      by_cases e : id = id'
      · subst e
        show (reschedule b id t' now s.db).1.hash (jobKey id) = _
        rw [(reschedule_refused o.rep hclaimed b t' now).1]
      · exact (reschedule_edit id' s.db b t' now).touches.hash id e
    · cases h
  | recoverStale =>
    rw [← Option.some.inj h]
    exact hash_recover (hu id hid)
  | tick d =>
    rw [← Option.some.inj h]

end

/-! ## the book -/

theorem length_history (lua : Lua) (db : Db ρ) (ops : List Op) :
    (history lua db ops).length = ops.length := by
  induction ops generalizing db with
  | nil => rfl
  | cons o ops ih => exact congrArg Nat.succ (ih _)

theorem history_op {lua : Lua} {db : Db ρ} {ops : List Op} {i : Nat} {o : Op} {r : Res}
    (h : (history lua db ops)[i]? = some (o, r)) : ops[i]? = some o := by
  induction ops generalizing db i with
  | nil => cases h
  | cons o' ops ih =>
    cases i with
    | zero => exact congrArg (Option.map Prod.fst) h
    | succ i => exact ih h

namespace Book

/-- the calls of the book one after another -/
def serial (lua : Lua) (b : Book ρ) : List (Op × Res) := history lua (Db.empty ρ) b.ops

theorem length_serial (lua : Lua) (b : Book ρ) : (b.serial lua).length = b.taken.length :=
  (length_history ..).trans (List.length_map _)

theorem ops_afterFetch (b : Book ρ) (a : Label) : (b.afterFetch a).map Taken.op = b.ops := by
  have hmodify : ∀ (c : Caller) (got : List Job), (b.returned c got).map Taken.op = b.ops := by
    intro c got
    refine List.ext_getElem? fun i => ?_
    unfold returned ops
    rw [List.getElem?_map, List.getElem?_map, List.getElem?_modify]
    cases b.taken[i]? with
    | none => rfl
    | some e =>
      show some (Taken.op (if _ then _ else e)) = some e.op
      split <;> rfl
  unfold afterFetch
  split
  · split
    · exact hmodify _ _
    · rfl
  · rfl

/-- an entry after the step is one from before, or that of a claim that has just returned -/
theorem get_afterFetch {b : Book ρ} {a : Label} {i : Nat} {e : Taken} (h : (b.afterFetch a)[i]? = some e) :
    b.taken[i]? = some e ∨ ∃ c got e₀, a = .fetch c ∧ (b.sys.calls c).result = some got ∧
      i = b.claims c ∧ b.taken[i]? = some e₀ ∧ e = { e₀ with res := some (.jobs got) } := by
  unfold afterFetch at h
  split at h
  · rename_i c
    split at h
    · rename_i got hgot
      rw [returned, List.getElem?_modify] at h
      obtain ⟨e₀, he₀, rfl⟩ := Option.map_eq_some_iff.mp h
      split
      · rename_i hi
        exact Or.inr ⟨c, got, e₀, rfl, hgot, hi.symm, he₀, rfl⟩
      · exact Or.inl he₀
    · exact Or.inl h
  · exact Or.inl h

/-- the results of the calls that meet `P` are those of the calls one after another -/
def Answers (lua : Lua) (P : Op → Prop) (b : Book ρ) : Prop :=
  ∀ (i : Nat) (e : Taken) (r : Res), b.taken[i]? = some e → e.res = some r → P e.op →
    (b.serial lua)[i]? = some (e.op, r)

section
variable {lua : Lua} {b b' : Book ρ} {a : Label}

theorem step_parts (h : b.step lua a = some b') : Redis.step lua b.sys a = some b'.sys ∧
    b'.taken = b.afterFetch a ++ (takes lua b.sys a).toList ∧ b'.claims = b.claimsAfter a := by
  obtain ⟨t, ht, rfl⟩ := Option.map_eq_some_iff.mp h
  exact ⟨ht, rfl, rfl⟩

theorem ops_step (h : b.step lua a = some b') :
    b'.ops = b.ops ++ (takes lua b.sys a).toList.map Taken.op := by
  rw [ops, (step_parts h).2.1, List.map_append, ops_afterFetch]

/-- the server of the run is that of the sequence -/
def Served (lua : Lua) (b : Book ρ) : Prop := runCalls lua (Db.empty ρ) b.ops = b.sys.db

/-- the sequence goes on with the call that takes effect -/
theorem serial_step (hb : b.Served lua) (h : b.step lua a = some b') :
    b'.serial lua = b.serial lua ++
      (takes lua b.sys a).toList.map fun e => (e.op, (call lua b.sys.db e.op).2) := by
  unfold serial
  rw [ops_step h]
  cases takes lua b.sys a with
  | none => rw [Option.toList_none, List.map_nil, List.map_nil, List.append_nil, List.append_nil]
  | some e =>
    show history lua (Db.empty ρ) (b.ops ++ [e.op]) = _
    rw [history_snoc, hb]
    rfl

theorem served_step {T : Table} (o : Ok b.sys T) (hb : b.Served lua) (h : b.step lua a = some b') :
    b'.Served lua := by
  have hx := step_explains o (step_parts h).1
  unfold Served
  rw [ops_step h]
  cases htakes : takes lua b.sys a with
  | none =>
    rw [htakes] at hx
    rw [Option.toList_none, List.map_nil, List.append_nil, hb]
    exact hx.symm
  | some e =>
    rw [htakes] at hx
    show runCalls lua (Db.empty ρ) (b.ops ++ [e.op]) = _
    rw [runCalls_snoc, hb]
    exact hx.1

/-- what was so before stays so -/
theorem serial_mono (hb : b.Served lua) (h : b.step lua a = some b') {i : Nat} {x : Op × Res}
    (hi : (b.serial lua)[i]? = some x) : (b'.serial lua)[i]? = some x := by
  rw [serial_step hb h, List.getElem?_append_left (List.getElem?_eq_some_iff.mp hi).1]
  exact hi

/-- **A step keeps the results**, if a claim that returns in it has the right one. -/
theorem answers_step {T : Table} {P : Op → Prop} (o : Ok b.sys T) (hb : b.Served lua)
    (hans : b.Answers lua P) (h : b.step lua a = some b')
    (hfetch : ∀ c got e, a = .fetch c → (b.sys.calls c).result = some got →
      b.taken[b.claims c]? = some e → P e.op → (b.serial lua)[b.claims c]? = some (e.op, .jobs got)) :
    b'.Answers lua P := by
  intro i e r he hr hP
  rw [(step_parts h).2.1] at he
  have hlen : (b.afterFetch a).length = b.taken.length := by
    rw [← List.length_map Taken.op, ops_afterFetch]
    exact List.length_map _
  by_cases hlt : i < (b.afterFetch a).length
  · rw [List.getElem?_append_left hlt] at he
    refine serial_mono hb h ?_
    rcases get_afterFetch he with he | ⟨c, got, e₀, ha, hgot, rfl, he₀, rfl⟩
    · exact hans i e r he hr hP
    · obtain rfl := Option.some.inj hr
      exact hfetch c got e₀ ha hgot he₀ hP
  · rw [List.getElem?_append_right (not_lt.mp hlt)] at he
    have hx := step_explains o (step_parts h).1
    cases htakes : takes lua b.sys a with
    | none =>
      rw [htakes] at he
      cases he
    | some e' =>
      rw [htakes] at he hx
      have hi : i = b.taken.length := by
        have := (List.getElem?_eq_some_iff.mp he).1
        rw [Option.toList_some, List.length_singleton] at this
        omega
      subst hi
      rw [hlen, Nat.sub_self] at he
      obtain rfl := Option.some.inj he
      rw [serial_step hb h, htakes, List.getElem?_append_right (length_serial lua b).le, length_serial,
        Nat.sub_self]
      show some (e'.op, _) = some (e'.op, r)
      rw [hx.2 r hr]

/-! ## claims -/

/-- the entry of a claim that is read is there -/
def Claiming (b : Book ρ) : Prop :=
  ∀ (c : Caller) (ids : List JobID) (got : List Job), b.sys.calls c = .fetching ids got →
    ∃ q now n w lu, b.ops[b.claims c]? = some (.claimDue q now n w lu)

/-- what the claims that are read will return: what they have read, and what the server has for the rest -/
def Reads (lua : Lua) (b : Book ρ) : Prop :=
  ∀ (c : Caller) (ids : List JobID) (got : List Job), b.sys.calls c = .fetching ids got →
    ∃ o, (b.serial lua)[b.claims c]? = some (o, .jobs (got ++ ids.map b.sys.db.job))

def Held (b : Book ρ) (T : Table) : Prop :=
  ∀ c, ∀ id ∈ (b.sys.calls c).unread, ∃ r, T id = some r ∧ r.claimed = true

theorem claimsAfter_other {c : Caller} (ha : a.caller ≠ some c) : b.claimsAfter a c = b.claims c := by
  cases a with
  | claim c' => exact Function.update_of_ne (fun e => ha (congrArg some e.symm)) ..
  | _ => rfl

/-- a call that reads after a step was reading before it, or has just claimed -/
theorem fetching_cases {c : Caller} {ids : List JobID} {got : List Job}
    (h : Redis.step lua b.sys a = some b'.sys) (hc : b'.sys.calls c = .fetching ids got) :
    a.caller ≠ some c ∧ b.sys.calls c = .fetching ids got ∨
    (∃ id got₀, a = .fetch c ∧ b.sys.calls c = .fetching (id :: ids) got₀ ∧ b'.sys.db = b.sys.db ∧
      got = got₀ ++ [b.sys.db.job id]) ∨
    ∃ q now n lu, a = .claim c q now n lu ∧ got = [] ∧ ids = (claim q now n c.worker lu b.sys.db).2 ∧
      b'.sys.db = (claim q now n c.worker lu b.sys.db).1 := by
  by_cases ha : a.caller = some c
  · by_cases hclaim : ∃ q now n lu, a = .claim c q now n lu
    · obtain ⟨q, now, n, lu, rfl⟩ := hclaim
      simp only [Redis.step] at h
      split at h
      · rw [← Option.some.inj h] at hc ⊢
        cases hc.symm.trans (Function.update_self ..)
        exact Or.inr (Or.inr ⟨q, now, n, lu, rfl, rfl, rfl, rfl⟩)
      · cases h
    · by_cases hold : ∃ ids₀ got₀, b.sys.calls c = .fetching ids₀ got₀
      · obtain ⟨ids₀, got₀, hold⟩ := hold
        obtain rfl := step_fetching h hold ha
        simp only [Redis.step, hold] at h
        cases ids₀ with
        | nil =>
          rw [← Option.some.inj h] at hc
          cases hc.symm.trans (Function.update_self ..)
        | cons id ids₀ =>
          rw [← Option.some.inj h] at hc ⊢
          cases hc.symm.trans (Function.update_self ..)
          exact Or.inr (Or.inl ⟨id, got₀, rfl, hold, rfl, rfl⟩)
      · refine absurd hc (step_not_fetching h (fun q now n lu e => hclaim ⟨q, now, n, lu, e⟩) ?_ ids got)
        exact fun ids got e => hold ⟨ids, got, e⟩
  · exact Or.inl ⟨ha, (step_other h ha).symm.trans hc⟩

theorem op_mono (h : b.step lua a = some b') {i : Nat} {o : Op} (hi : b.ops[i]? = some o) :
    b'.ops[i]? = some o := by
  rw [ops_step h, List.getElem?_append_left (List.getElem?_eq_some_iff.mp hi).1]
  exact hi

theorem claiming_step (hb : b.Claiming) (h : b.step lua a = some b') : b'.Claiming := by
  obtain ⟨hst, _, hclaims⟩ := step_parts h
  intro c ids got hc
  rw [hclaims]
  rcases fetching_cases hst hc with ⟨ha, hold⟩ | ⟨id, got₀, rfl, hold, _, _⟩ | ⟨q, now, n, lu, rfl, _, _, _⟩
  · obtain ⟨q, now, n, w, lu, hop⟩ := hb c ids got hold
    rw [claimsAfter_other ha]
    exact ⟨q, now, n, w, lu, op_mono h hop⟩
  · obtain ⟨q, now, n, w, lu, hop⟩ := hb c _ _ hold
    exact ⟨q, now, n, w, lu, op_mono h hop⟩
  · refine ⟨q, now, n, c.worker, lu, ?_⟩
    rw [ops_step h, claimsAfter, Function.update_self, ← List.length_map Taken.op]
    exact List.getElem?_concat_length

/-- the jobs that are not read are as they were -/
theorem job_unread {T : Table} {c : Caller} (o : Ok b.sys T) (hheld : b.Held T)
    (hu : Undisturbed c b.sys a) (h : Redis.step lua b.sys a = some b'.sys) {ids : List JobID}
    (hids : ∀ id ∈ ids, id ∈ (b.sys.calls c).unread) : ids.map b'.sys.db.job = ids.map b.sys.db.job := by
  refine List.map_congr_left fun id hid => ?_
  obtain ⟨r, hr, hcl⟩ := hheld c id (hids id hid)
  unfold Db.job
  rw [hash_unread o h hu (hids id hid) hr hcl]

theorem reads_step {T : Table} (o : Ok b.sys T) (hb : b.Served lua) (hheld : b.Held T)
    (hreads : b.Reads lua) (hu : ∀ c, Undisturbed c b.sys a) (h : b.step lua a = some b') :
    b'.Reads lua := by
  obtain ⟨hst, _, hclaims⟩ := step_parts h
  intro c ids got hc
  rw [hclaims]
  rcases fetching_cases hst hc with ⟨ha, hold⟩ | ⟨id, got₀, rfl, hold, hdb, rfl⟩ |
    ⟨q, now, n, lu, rfl, rfl, rfl, hdb⟩
  · obtain ⟨op, hop⟩ := hreads c ids got hold
    have hids : ∀ id ∈ ids, id ∈ (b.sys.calls c).unread := by
      rw [hold]
      exact fun _ h => h
    rw [claimsAfter_other ha, job_unread o hheld (hu c) hst hids]
    exact ⟨op, serial_mono hb h hop⟩
  · obtain ⟨op, hop⟩ := hreads c _ _ hold
    refine ⟨op, serial_mono hb h ?_⟩
    rw [hdb, List.append_assoc]
    exact hop
  · refine ⟨.claimDue q now n c.worker lu, ?_⟩
    rw [serial_step hb h, claimsAfter, Function.update_self, hdb,
      List.getElem?_append_right (length_serial lua b).le, length_serial, Nat.sub_self]
    rfl

/-- what the script has claimed is claimed, in every table that the server holds -/
theorem claimed_by_script {T T' : Table} (o : Ok b.sys T) (hrep : Rep b'.sys.db T') {q : String}
    {now : Time} {n : Int} {w : String} {lu : Time} {id : JobID}
    (hdb : b'.sys.db = (claim q now n w lu b.sys.db).1) (hid : id ∈ (claim q now n w lu b.sys.db).2) :
    ∃ r, T' id = some r ∧ r.claimed = true := by
  obtain ⟨db', ids, e, hrep', _, hp⟩ := claim_rep o.rep q now n w lu
  rw [e] at hdb hid
  obtain ⟨r, hr, _⟩ := hp id hid
  have hnew : mapOn T (Rec.claim w (stamp lu)) ids id = some (r.claim w (stamp lu)) :=
    mapOn_of_mem hr _ hid
  by_contra hno
  refine not_claimed hrep (unclaimed hno) ?_
  rw [hdb]
  exact hrep'.state hnew

theorem held_step {T : Table} (o : Ok b.sys T) (hheld : b.Held T) (hu : ∀ c, Undisturbed c b.sys a)
    (h : Redis.step lua b.sys a = some b'.sys) : ∃ T', Ok b'.sys T' ∧ b'.Held T' := by
  have hkeep : ∀ {es T' c id}, Move b.sys T a es T' → id ∈ (b.sys.calls c).unread →
      ∃ r, T' id = some r ∧ r.claimed = true := by
    intro es T' c id m hid
    obtain ⟨r, hr, hcl⟩ := hheld c id hid
    exact ⟨r, m.keeps_unread o (hu c) hid hr hcl, hcl⟩
  obtain ⟨es, T', m, f, hrep⟩ := step_move o h
  refine ⟨T', m.ok f o hrep, fun c id hid => ?_⟩
  cases hc : b'.sys.calls c with
  | fetching ids got =>
    rw [hc] at hid
    rcases fetching_cases h hc with ⟨_, hold⟩ | ⟨i, got₀, _, hold, _, _⟩ | ⟨q, now, n, lu, rfl, _, rfl, hdb⟩
    · exact hkeep m (by rw [hold]; exact hid)
    · exact hkeep m (by rw [hold]; exact List.mem_cons_of_mem _ hid)
    · exact claimed_by_script o hrep hdb hid
  | _ =>
    rw [hc] at hid
    cases hid

end

/-! ## runs -/

def isClaim : Op → Bool
  | .claimDue .. => true
  | _ => false

/-- what holds in every run -/
structure Linear (lua : Lua) (b : Book ρ) : Prop where
  ok : ∃ T, Ok b.sys T
  served : b.Served lua
  claiming : b.Claiming
  answers : b.Answers lua fun o => isClaim o = false

/-- what holds if no claim is disturbed -/
structure Whole (lua : Lua) (b : Book ρ) : Prop where
  held : ∃ T, Ok b.sys T ∧ b.Held T
  served : b.Served lua
  reads : b.Reads lua
  answers : b.Answers lua fun _ => True

section
variable {lua : Lua} {b b' : Book ρ} {a : Label}

theorem Linear.step (L : Linear lua b) (h : b.step lua a = some b') : Linear lua b' := by
  obtain ⟨T, o⟩ := L.ok
  obtain ⟨es, T', m, f, hrep⟩ := step_move o (step_parts h).1
  refine ⟨⟨T', m.ok f o hrep⟩, served_step o L.served h, claiming_step L.claiming h,
    answers_step o L.served L.answers h fun c got e _ hgot he hP => ?_⟩
  -- the call that returns is a claim
  obtain ⟨q, now, n, w, lu, hop⟩ := L.claiming c [] got (Call.of_result hgot)
  rw [ops, List.getElem?_map, he] at hop
  rw [Option.some.inj hop] at hP
  cases hP

theorem Whole.step (W : Whole lua b) (hu : ∀ c, Undisturbed c b.sys a) (h : b.step lua a = some b') :
    Whole lua b' := by
  obtain ⟨T, o, hheld⟩ := W.held
  refine ⟨held_step o hheld hu (step_parts h).1, served_step o W.served h,
    reads_step o W.served hheld W.reads hu h,
    answers_step o W.served W.answers h fun c got e _ hgot he _ => ?_⟩
  obtain ⟨o', ho'⟩ := W.reads c [] got (Call.of_result hgot)
  rw [List.map_nil, List.append_nil] at ho'
  have hop := history_op ho'
  rw [ops, List.getElem?_map, he] at hop
  rw [ho', ← Option.some.inj hop]

theorem init_answers (lua : Lua) (P : Op → Prop) : Answers lua P (.init ρ) := by
  intro i e r he
  cases he

theorem init_linear (lua : Lua) : Linear lua (.init ρ) :=
  ⟨⟨_, init_ok⟩, rfl, nofun, init_answers lua _⟩

theorem init_whole (lua : Lua) : Whole lua (.init ρ) :=
  ⟨⟨_, init_ok, nofun⟩, rfl, nofun, init_answers lua _⟩

end
end Book

/-- **The calls of any number of clients, in any interleaving of their steps, are calls one after another**
in the order of the book: the server is the same, and so are the results of all calls but claims; and the
results of the claims too, in runs in which no claim is disturbed before it has read its jobs. -/
theorem clients_linearize (ρ : Scores) (lua : Lua) (l : List Label) (b : Book ρ)
    (h : run (Book.step lua) (.init ρ) l = some b) :
    runCalls lua (Db.empty ρ) b.ops = b.sys.db ∧
    (∀ (i : Nat) (e : Taken) (r : Res), b.taken[i]? = some e → e.res = some r → Book.isClaim e.op = false →
      (history lua (Db.empty ρ) b.ops)[i]? = some (e.op, r)) ∧
    (Meets (Book.step lua) (fun b a => ∀ c, Undisturbed c b.sys a) (.init ρ) l →
      ∀ (i : Nat) (e : Taken) (r : Res), b.taken[i]? = some e → e.res = some r →
        (history lua (Db.empty ρ) b.ops)[i]? = some (e.op, r)) := by
  have L : Book.Linear lua b := run_keep (fun _ _ _ L h => L.step h) (Book.init_linear lua) h
  refine ⟨L.served, L.answers, fun hm i e r he hr => ?_⟩
  have W : Book.Whole lua b :=
    run_keep_of (P := Book.Whole lua) (fun _ _ _ W hu h => W.step hu h) hm (Book.init_whole lua) h
  exact W.answers i e r he hr trivial

/-- `B` has looked up a job when `A` claims it, and runs its script before `A` has read the job -/
def crossed : List Label :=
  let a : Caller := ⟨"A", 0⟩
  let b : Caller := ⟨"B", 0⟩
  [.save { id := "i", queue := "q", runAt := 5 }, .cancelLookup b "i", .claim a "q" 10 1 40,
    .cancelRun b, .fetch a, .fetch a]

theorem clients_linearize_crossed : ∃ b, run (Book.step lua51) (.init .double) crossed = some b ∧
    b.ops = [.save { id := "i", queue := "q", runAt := 5 }, .claimDue "q" 10 1 "A" 40, .cancel "i"] ∧
    runCalls lua51 (Db.empty .double) b.ops = b.sys.db ∧
    (history lua51 (Db.empty .double) b.ops)[2]? = some (.cancel "i", .err (some .jobNotPending)) ∧
    ∀ e r, b.taken[1]? = some e → e.res = some r →
      (history lua51 (Db.empty .double) b.ops)[1]? = some (e.op, r) := by
  have hrun : (run (Book.step lua51) (.init .double) crossed).map
        (fun b => (b.ops, (b.taken[2]?).map Taken.res)) =
      some ([.save { id := "i", queue := "q", runAt := 5 }, .claimDue "q" 10 1 "A" 40, .cancel "i"],
        some (some (.err (some .jobNotPending)))) := by decide +kernel
  obtain ⟨b, hb, e⟩ := Option.map_eq_some_iff.mp hrun
  obtain ⟨hops, hres⟩ := Prod.mk.injEq .. ▸ e
  obtain ⟨e₂, he₂, hr₂⟩ := Option.map_eq_some_iff.mp hres
  have hop₂ : e₂.op = .cancel "i" := by
    have h : b.ops[2]? = some e₂.op := by rw [Book.ops, List.getElem?_map, he₂]; rfl
    rw [hops] at h
    exact (Option.some.inj h).symm
  obtain ⟨h1, h2, h3⟩ := clients_linearize .double lua51 crossed b hb
  have hcancel := h2 2 e₂ _ he₂ hr₂ (by rw [hop₂]; rfl)
  rw [hop₂] at hcancel
  exact ⟨b, hb, hops, h1, hcancel, fun e r he hr => h3 (by simp [crossed, Meets, Undisturbed]) 1 e r he hr⟩

end GS.Redis
