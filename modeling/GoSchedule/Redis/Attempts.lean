import GoSchedule.Attempts.Sheet
import GoSchedule.Redis.Fields
import GoSchedule.Redis.Upsert

/-!
# The attempts of a job in the Redis store

The hash of a job has its attempts as decimal numbers, which the script of `Fail` reads and prints as
doubles.  Up to `10^14` attempts both are exact.

* `claimCount id`, `recoveries id`   whether a call returns the job, and whether it takes it back from a
  claim that has run out;
* `Tracks`       the fields of the hash are those of a sheet;
* `call_track`   a call is a move of the sheet;
* `claims_le_max`   the bound.
-/

namespace GS.Redis
open Attempts Decimal MapOn Trans

variable {ρ : Scores}

/-- the calls as a system -/
def callStep (lua : Lua) (db : Db ρ) (o : Op) : Option (Db ρ) := some (call lua db o).1

def claimCount (lua : Lua) (id : JobID) (db : Db ρ) (o : Op) : Nat :=
  match (call lua db o).2 with
  | .jobs l => (l.map Job.id).count id
  | _ => 0

/-- a call with a lookup returns no job -/
theorem claimCount_withBucket {lua : Lua} {db : Db ρ} {o : Op} {i : JobID} {script : String → Db ρ × String}
    {err : String → Option StoreErr} (h : call lua db o = withBucket i db script err) (id : JobID) :
    claimCount lua id db o = 0 := by
  unfold claimCount
  rw [h]
  unfold withBucket
  split
  · rename_i hres
    split at hres
    · cases hres
    · cases hres
  · rfl

/-- the score of a claimed job is the end of its claim -/
def recoveries (id : JobID) (db : Db ρ) : Op → Nat
  | .recoverStale clock => if ∃ s ∈ (db.zset claimedKey).score id, 1 ≤ s ∧ s ≤ clock then 1 else 0
  | _ => 0

/-- a call that does not save the job -/
def Keeps (id : JobID) : Op → Prop
  | .save j => j.id ≠ id
  | _ => True

instance (id : JobID) : DecidablePred (Keeps id)
  | .save _ => inferInstanceAs (Decidable (_ ≠ _))
  | .claimDue .. | .ack _ | .fail .. | .cancel _ | .reschedule .. | .recoverStale _ | .queueSize _ =>
    isTrue trivial

/-! ## fields that count -/

/-- the two fields that count -/
def Counts (f : String) : Prop := f = "attempt" ∨ f = "max_attempts"

theorem Counts.not_mem {f : String} {names : List String} (hf : Counts f) (h : "attempt" ∉ names)
    (h' : "max_attempts" ∉ names) : f ∉ names := by
  rcases hf with rfl | rfl
  · exact h
  · exact h'

theorem Counts.not_lock {f : String} (hf : Counts f) : f ∉ lockFields :=
  hf.not_mem (by decide) (by decide)

/-! ## the sheet of a job -/

/-- the hash of a job with the record `o` -/
inductive Tracks (db : Db ρ) (id : JobID) : Option Card → Option Sheet → Prop
  | gone : Tracks db id none none
  | stored {c : Card} {a m : Int} (ha : db.hget (jobKey id) "attempt" = some (itoa a))
      (hm : db.hget (jobKey id) "max_attempts" = some (itoa m)) (h0 : 0 ≤ a)
      (hle : m ≤ 100000000000000) : Tracks db id (some c) (some ⟨c.state, a, m⟩)

def Tracked (id : JobID) (db : Db ρ) (o : Option Sheet) : Prop :=
  ∃ C, Filed db C ∧ Tracks db id (C id) o

section
variable {db db' : Db ρ} {C : Cards} {id : JobID} {o : Option Sheet}

theorem Tracks.of_hget {x : Option Card} (T : Tracks db id x o)
    (h : ∀ f, Counts f → db'.hget (jobKey id) f = db.hget (jobKey id) f) : Tracks db' id x o := by
  cases T with
  | gone => exact .gone
  | stored ha hm h0 hle =>
    exact .stored ((h _ (Or.inl rfl)).trans ha) ((h _ (Or.inr rfl)).trans hm) h0 hle

/-- a call that changes the record of another job only -/
theorem Tracks.other {i : JobID} {x : Option Card} (hne : id ≠ i) (T : Tracks db id (C id) o)
    (tc : Touches i db db') (F' : Filed db' (Function.update C i x)) : Tracked id db' o := by
  refine ⟨_, F', ?_⟩
  rw [Function.update_of_ne hne]
  refine T.of_hget fun f _ => ?_
  unfold Db.hget
  rw [tc.hash id hne]

/-- a call that changes the state of jobs, and nothing that counts -/
theorem Tracks.mapOn {st : State} {ids : List JobID} (T : Tracks db id (C id) o)
    (h : ∀ f, Counts f → db'.hget (jobKey id) f = db.hget (jobKey id) f) :
    Tracks db' id (MapOn.mapOn C (Card.into st) ids id)
      (if id ∈ ids then o.map fun c => c.into st else o) := by
  unfold MapOn.mapOn
  split
  · cases hC : C id with
    | none =>
      rw [hC] at T
      cases T with
      | gone => exact .gone
    | some c =>
      rw [hC] at T
      cases T with
      | stored ha hm h0 hle =>
        exact .stored (c := c.into st) ((h _ (Or.inl rfl)).trans ha) ((h _ (Or.inr rfl)).trans hm) h0 hle
  · exact T.of_hget h

end

/-! ## the calls -/

section
variable {db : Db ρ} {C : Cards} {id : JobID} {o : Option Sheet} (F : Filed db C)
  (T : Tracks db id (C id) o)
include F T

theorem claimDue_track (lua : Lua) (q : String) (now : Time) (n : Int) (w : String) (lu : Time) :
    ∃ o', Tracked id (call lua db (.claimDue q now n w lu)).1 o' ∧
      Attempts.Move o (claimCount lua id db (.claimDue q now n w lu)) 0 o' := by
  obtain ⟨hnd, hpend, hF⟩ := claim_filed F q now n w lu
  have hcount : claimCount lua id db (.claimDue q now n w lu) = (claim q now n w lu db).2.count id := by
    show (((claim q now n w lu db).2.map (claim q now n w lu db).1.job).map Job.id).count id = _
    rw [map_id_claim F]
  refine ⟨_, ⟨_, hF, T.mapOn fun f hf => hget_claim hf.not_lock q now n w lu db _⟩, ?_⟩
  rw [hcount]
  by_cases hid : id ∈ (claim q now n w lu db).2
  · obtain ⟨c, hC, hst⟩ := hpend id hid
    rw [List.count_eq_one_of_mem hnd hid, if_pos hid]
    rw [hC] at T
    cases T with
    | stored ha hm h0 hle => exact .claim hst
  · rw [List.count_eq_zero_of_not_mem hid, if_neg hid]
    exact .same o

theorem recoverStale_track (lua : Lua) (clock : Int) :
    ∃ o', Tracked id (call lua db (.recoverStale clock)).1 o' ∧
      Attempts.Move o 0 (recoveries id db (.recoverStale clock)) o' := by
  have hmem : id ∈ (db.zset claimedKey).rangeByScore (some 1) clock ↔
      ∃ s ∈ (db.zset claimedKey).score id, 1 ≤ s ∧ s ≤ clock := by
    rw [ZSet.mem_rangeByScore]
    constructor
    · intro h
      obtain ⟨s, hs, h1, h2⟩ := h
      exact ⟨s, hs, h1 1 rfl, h2⟩
    · intro h
      obtain ⟨s, hs, h1, h2⟩ := h
      exact ⟨s, hs, fun x e => Option.some.inj e ▸ h1, h2⟩
  have hrec : recoveries id db (.recoverStale clock) =
      if ∃ s ∈ (db.zset claimedKey).score id, 1 ≤ s ∧ s ≤ clock then 1 else 0 := rfl
  refine ⟨_, ⟨_, recoverStale_filed F lua clock,
    T.mapOn fun f hf => hget_recoverStale hf.not_lock lua clock db _⟩, ?_⟩
  rw [hrec]
  by_cases hid : id ∈ (db.zset claimedKey).rangeByScore (some 1) clock
  · rw [if_pos hid, if_pos (hmem.mp hid)]
    obtain ⟨s, hs, _⟩ := hmem.mp hid
    have hk := ((F id).sets claimedKey).mp (by rw [Option.mem_def.mp hs]; simp)
    obtain ⟨c, hC, hhome⟩ := Option.bind_eq_some_iff.mp hk
    rw [hC] at T
    cases T with
    | stored ha hm h0 hle => exact .recover (home_eq_claimedKey.mp hhome)
  · rw [if_neg hid, if_neg (mt hmem.mpr hid)]
    exact .same o

theorem ack_track (lua : Lua) (i : JobID) :
    ∃ o', Tracked id (call lua db (.ack i)).1 o' ∧ Attempts.Move o 0 0 o' := by
  by_cases h : ∃ c, C i = some c ∧ c.state = stateClaimed
  · obtain ⟨c, hC, hs⟩ := h
    by_cases hi : id = i
    · subst hi
      refine ⟨none, ⟨_, ack_filed F hC hs, ?_⟩, .gone o⟩
      rw [Function.update_self]
      exact .gone
    · exact ⟨o, T.other hi (ack_edit i db).touches (ack_filed F hC hs), .same o⟩
  · have e : ack i db = (db, "missing") := if_pos (F.not_claimed h)
    refine ⟨o, ⟨C, ?_, ?_⟩, .same o⟩
    · dsimp only [call]
      rw [e]
      exact F
    · dsimp only [call]
      rw [e]
      exact T

/-- a failure that is counted below `10^14` is counted exactly -/
theorem fail_track_self (ho : Open o) (lua : Lua) {c : Card} (hC : C id = some c)
    (hs : c.state = stateClaimed) (msg : String) (t now : Time) :
    ∃ o', Tracked id (fail lua (pendingKey c.queue c.priority) id msg t now db).1 o' ∧
      Attempts.Move o 0 0 o' := by
  obtain ⟨_, hfiled⟩ := fail_filed F hC hs lua msg t now
  obtain ⟨x, hF⟩ := hfiled
  have hst : ¬ db.hget (jobKey id) "state" ≠ some stateClaimedArg :=
    not_not.mpr ((F.state_iff hC stateClaimed).mpr hs)
  rw [hC] at T
  cases T with
  | stored ha hm h0 hle =>
    rename_i a m
    obtain ⟨hpos, hlt⟩ := ho _ rfl
    have hlt' : a < m := hlt
    have hpos' : 0 < m := hpos
    have ea : ((db.hget (jobKey id) "attempt").bind lua.tonumber).getD 0 = a := by
      rw [ha, Option.bind_some, lua.tonumber_itoa a (by omega)]
      rfl
    have em : ((db.hget (jobKey id) "max_attempts").bind lua.tonumber).getD 0 = m := by
      rw [hm, Option.bind_some, lua.tonumber_itoa m (by omega)]
      rfl
    unfold fail failScript at hF ⊢
    rw [if_neg hst, ea, em] at hF ⊢
    dsimp only at hF ⊢
    split at hF
    · rename_i hlast
      rw [if_pos hlast]
      refine ⟨none, ⟨_, hF, ?_⟩, .gone _⟩
      cases hx : x with
      | none =>
        rw [Function.update_self]
        exact .gone
      | some c' =>
        obtain ⟨h, hh, _⟩ := (hF id).hash c' (by rw [Function.update_self, hx])
        rw [hash_del_self] at hh
        cases hh
    · rename_i hlast
      rw [if_neg hlast]
      have hsucc : (a + 1).natAbs < 100000000000000 := by
        by_contra hge
        exact hlast ⟨hpos', by omega⟩
      have hhash := hash_hset_self (db.zrem claimedKey id) (jobKey id)
        [("attempt", lua.tostring (a + 1)), ("last_error", msg), ("state", statePendingArg),
          ("run_at", formatTime t), ("locked_by", ""), ("locked_until", "0"),
          ("updated_at", formatTime now)]
      have hget := fun f => congrArg (fun x : Option (String → Option String) => x.bind fun m => m f) hhash
      refine ⟨some (Sheet.retried ⟨c.state, a, m⟩), ⟨_, hF, ?_⟩, .retry hs hlast⟩
      rw [Function.update_self]
      cases hx : x with
      | none =>
        have hnone := (hF id).missing (by rw [Function.update_self, hx])
        exact absurd (hhash.symm.trans hnone) (by simp)
      | some c' =>
        -- the script has written the state, so the record has it
        have hC' : Function.update C id x id = some c' := by rw [Function.update_self, hx]
        have hpend : c'.state = statePending := by
          exact (hF.state_iff hC' statePending).mp (hget "state")
        have hnew : (Sheet.retried ⟨c.state, a, m⟩) = ⟨c'.state, a + 1, m⟩ := by
          rw [hpend]
          rfl
        rw [hnew]
        refine .stored ?_ ?_ (by omega) hle
        · rw [← lua.tostring_eq _ hsucc]
          exact hget "attempt"
        · exact (hget_hset (by simp) (db.zrem claimedKey id) (jobKey id) (jobKey id)).trans hm

theorem fail_track (ho : Open o) (lua : Lua) (i : JobID) (msg : String) (t now : Time) :
    ∃ o', Tracked id (call lua db (.fail i msg t now)).1 o' ∧ Attempts.Move o 0 0 o' := by
  rcases fail_cases F lua i msg t now with ⟨c, hC, hs, e⟩ | ⟨err, e⟩
  · rw [e]
    by_cases hi : id = i
    · subst hi
      exact fail_track_self F T ho lua hC hs msg t now
    · obtain ⟨_, x, hF⟩ := fail_filed F hC hs lua msg t now
      exact ⟨o, T.other hi (fail_edit i db lua _ msg t now).touches hF, .same o⟩
  · rw [e]
    exact ⟨o, ⟨C, F, T⟩, .same o⟩

theorem cancel_track (lua : Lua) (i : JobID) :
    ∃ o', Tracked id (call lua db (.cancel i)).1 o' ∧ Attempts.Move o 0 0 o' := by
  rcases cancel_cases F lua i with ⟨c, hC, hs, e⟩ | ⟨err, e⟩
  · rw [e]
    by_cases hi : id = i
    · subst hi
      refine ⟨none, ⟨_, cancel_filed F hC hs, ?_⟩, .gone o⟩
      rw [Function.update_self]
      exact .gone
    · exact ⟨o, T.other hi (cancel_edit i db _).touches (cancel_filed F hC hs), .same o⟩
  · rw [e]
    exact ⟨o, ⟨C, F, T⟩, .same o⟩

theorem reschedule_track (lua : Lua) (i : JobID) (t now : Time) :
    ∃ o', Tracked id (call lua db (.reschedule i t now)).1 o' ∧ Attempts.Move o 0 0 o' := by
  rcases reschedule_cases F lua i t now with ⟨c, hC, hs, e⟩ | ⟨err, e⟩
  · have hF := reschedule_filed F hC hs t now
    rw [e]
    by_cases hi : id = i
    · subst hi
      refine ⟨o, ⟨_, hF, ?_⟩, .same o⟩
      rw [Function.update_self, ← hC]
      refine T.of_hget fun f hf => ?_
      dsimp only
      obtain ⟨h, hh, _⟩ := F.fields hC
      have hst : ¬ db.hget (jobKey id) "state" ≠ some statePendingArg :=
        not_not.mpr ((F.state_iff hC statePending).mpr hs)
      unfold reschedule rescheduleScript
      rw [if_neg (by rw [hh]; simp), if_neg hst]
      exact hget_hset (hf.not_mem (by simp) (by simp)) db (jobKey id) (jobKey id)
    · exact ⟨o, T.other hi (reschedule_edit i db _ t now).touches hF, .same o⟩
  · rw [e]
    exact ⟨o, ⟨C, F, T⟩, .same o⟩

/-- **A call is a move of the job's sheet.** -/
theorem call_track (ho : Open o) (lua : Lua) (op : Op) (ht : TidySave db op) (hk : Keeps id op) :
    ∃ o', Tracked id (call lua db op).1 o' ∧
      Attempts.Move o (claimCount lua id db op) (recoveries id db op) o' := by
  cases op with
  | save j =>
    exact ⟨o, T.other (Ne.symm hk) (save_touches db j) (save_filed F ht), .same o⟩
  | claimDue q now n w lu => exact claimDue_track F T lua q now n w lu
  | ack i => exact ack_track F T lua i
  | fail i msg t now =>
    rw [claimCount_withBucket rfl]
    exact fail_track F T ho lua i msg t now
  | cancel i =>
    rw [claimCount_withBucket rfl]
    exact cancel_track F T lua i
  | reschedule i t now =>
    rw [claimCount_withBucket rfl]
    exact reschedule_track F T lua i t now
  | recoverStale clock => exact recoverStale_track F T lua clock
  | queueSize q => exact ⟨o, ⟨C, F, T⟩, .same o⟩

end

/-! ## whole sequences -/

theorem run_filed {lua : Lua} {db db' : Db ρ} {ops : List Op} (h : Allowed lua TidySave db ops)
    (hrun : run (callStep lua) db ops = some db') (hF : ∃ C, Filed db C) : ∃ C, Filed db' C := by
  have hstep : ∀ (d : Db ρ) o d', (∃ C, Filed d C) → TidySave d o → callStep lua d o = some d' →
      ∃ C, Filed d' C := by
    intro d o d' hF ht hst
    obtain ⟨C, F⟩ := hF
    obtain rfl := Option.some.inj hst
    obtain ⟨C', F', _⟩ := call_moves F lua o fun j e => by
      subst e
      exact ht
    exact ⟨C', F'⟩
  exact run_keep_of hstep h hF hrun

/-- a job that was just saved -/
theorem save_tracked {db : Db ρ} {C : Cards} (F : Filed db C) {j : Job} (ht : Tidy db j)
    (h0 : j.attempt = 0) (hmax : 0 < j.maxAttempts) (hle : j.maxAttempts.toInt ≤ 100000000000000) :
    Tracked j.id (save j db) (some ⟨(normalize j).state, 0, j.maxAttempts.toInt⟩) := by
  have hne : j.maxAttempts ≠ 0 := fun e => by
    rw [e] at hmax
    exact absurd hmax (by decide)
  have hget := fun f => congrArg (fun x : Option (String → Option String) => x.bind fun m => m f)
    (hash_save db j)
  refine ⟨_, save_filed F ht, ?_⟩
  rw [Function.update_self]
  refine .stored (c := cardOf j) ((hget "attempt").trans ?_) ((hget "max_attempts").trans ?_) le_rfl hle
  · show some (itoa j.attempt.toInt) = _
    rw [h0]
    rfl
  · show some (itoa (if j.maxAttempts = 0 then 3 else j.maxAttempts).toInt) = _
    rw [if_neg hne]

theorem claims_le_max (ρ : Scores) (lua : Lua) (pre post : List Op) (j : Job)
    (h : Allowed lua TidySave (Db.empty ρ) (pre ++ .save j :: post)) (h0 : j.attempt = 0)
    (hmax : 0 < j.maxAttempts) (hle : j.maxAttempts.toInt ≤ 100000000000000)
    (hk : ∀ o ∈ post, Keeps j.id o) :
    total (callStep lua) (claimCount lua j.id) (runCalls lua (Db.empty ρ) (pre ++ [.save j])) post ≤
      j.maxAttempts.toInt.toNat +
        total (callStep lua) (recoveries j.id) (runCalls lua (Db.empty ρ) (pre ++ [.save j])) post := by
  obtain ⟨hpre, hrest⟩ := Meets.append h (run_eq lua (Db.empty ρ) pre)
  obtain ⟨C, F⟩ := run_filed hpre (run_eq lua (Db.empty ρ) pre) ⟨_, empty_filed⟩
  rw [runCalls_snoc]
  have hpost : Meets (callStep lua) TidySave (save j (runCalls lua (Db.empty ρ) pre)) post :=
    hrest.2 _ rfl
  have hstep : ∀ (d : Db ρ) o d' x, Tracked j.id d x → Open x → TidySave d o ∧ Keeps j.id o →
      callStep lua d o = some d' →
      ∃ x', Tracked j.id d' x' ∧ Attempts.Move x (claimCount lua j.id d o) (recoveries j.id d o) x' := by
    intro d o d' x hx ho hC hst
    obtain ⟨C, F, T⟩ := hx
    obtain rfl := Option.some.inj hst
    exact call_track F T ho lua o hC.1 hC.2
  exact claims_le hstep (save_tracked F hrest.1 h0 hmax hle) rfl (Int64.lt_iff_toInt_lt.mp hmax)
    (hpost.and_forall hk) (run_eq lua _ post)

end GS.Redis
