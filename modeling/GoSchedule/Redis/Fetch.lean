import GoSchedule.Redis.Commands
import GoSchedule.Redis.Fields
import GoSchedule.Redis.Owner

/-!
# What ClaimDue reads after its script

`ClaimDue` runs its script and then one HGETALL for each ID, so the record that it returns is the one
of a later moment.

* `Named db`     every stored job has its ID in its hash;
* `Call.unread`  the IDs that a call has claimed and not read;
* `Undisturbed c`   no `Ack`, `Fail` or `RecoverStale` touches an unread job of the caller `c`; a recovery
  compares its time with the score of the lock;
* `Reading`      what a call has read is its own, and the records of the unread jobs are still its claims;
* `claim_reads_own`   **an undisturbed claim returns the jobs that its script claimed**, each with the
  caller's worker in `LockedBy`;
* `claim_reads_other`   what a late `Ack`, a recovery and another claim do in between.
-/

namespace GS.Redis
open Trans Decimal MapOn

variable {ρ : Scores}

/-! ## the ID in the hash -/

def Named (db : Db ρ) : Prop := ∀ id h, db.hash (jobKey id) = some h → h "id" = some id

theorem Kept.named {db db' : Db ρ} (k : Kept db db') (N : Named db) : Named db' := by
  intro id h' hh'
  obtain ⟨h, hh, hf⟩ := k id h' hh'
  rw [← hf "id" (by decide)]
  exact N id h hh

theorem save_named {db : Db ρ} (N : Named db) (j : Job) : Named (save j db) := by
  intro id h hh
  by_cases e : id = j.id
  · subst e
    rw [← Option.some.inj ((hash_save db j).symm.trans hh)]
    rfl
  · exact N id h (((save_touches db j).hash id e).symm.trans hh)

/-- a job has a hash exactly if it has a record -/
theorem Rep.hash_iff {db : Db ρ} {T : Table} (R : Rep db T) (id : JobID) :
    db.hash (jobKey id) ≠ none ↔ T id ≠ none := by
  constructor
  · intro h
    obtain ⟨m, hm⟩ := Option.ne_none_iff_exists'.mp h
    obtain ⟨r, hr, _⟩ := R.of_hash hm
    rw [hr]
    exact Option.some_ne_none r
  · intro h
    obtain ⟨r, hr⟩ := Option.ne_none_iff_exists'.mp h
    obtain ⟨⟨m, hm, _⟩, _⟩ := R.at_some hr
    rw [hm]
    exact Option.some_ne_none m

/-- no command but a save writes an ID -/
theorem exec_kept {db : Db ρ} {T : Table} (R : Rep db T) (lua : Lua) {c : Command}
    (hc : ∀ j, c ≠ .save j) : Kept db (exec lua db c) := by
  cases c with
  | save j => exact absurd rfl (hc j)
  | claim q now n w lu =>
    obtain ⟨db', ids, e, hrep, _⟩ := claim_rep R q now n w lu
    have hget := fun f hf k => hget_claim (not_lock hf) (f := f) q now n w lu db k
    rw [e] at hget
    rw [exec, e]
    exact kept_of_mapOn (fun i => (R.hash_iff i).mpr) (fun i => (hrep.hash_iff i).mp) hget
  | ack id => exact (ack_edit id db).kept
  | fail b id msg t now => exact (fail_edit id db lua b msg t now).kept
  | cancel b id => exact (cancel_edit id db b).kept
  | reschedule b id t now => exact (reschedule_edit id db b t now).kept
  | recoverStale clock =>
    obtain ⟨db', ids, e, hrep, _⟩ := recoverStale_rep R lua clock
    have hget := fun f hf k => hget_recoverStale (not_lock hf) (f := f) lua clock db k
    rw [e] at hget
    rw [exec, e]
    exact kept_of_mapOn (fun i => (R.hash_iff i).mpr) (fun i => (hrep.hash_iff i).mp) hget

theorem step_kept {lua : Lua} {s t : Sys ρ} {T : Table} {a : Label} (o : Ok s T)
    (h : step lua s a = some t) (ha : ∀ j, a ≠ .save j) : Kept s.db t.db := by
  rcases step_exec h with e | ⟨c, e, hc⟩
  · rw [e]
    exact kept_refl s.db
  · rw [e]
    exact exec_kept o.rep lua fun j hj => ha j (hc j hj)

theorem step_named {lua : Lua} {s t : Sys ρ} {T : Table} {a : Label} (o : Ok s T)
    (h : step lua s a = some t) (N : Named s.db) : Named t.db := by
  by_cases ha : ∃ j, a = .save j
  · obtain ⟨j, rfl⟩ := ha
    obtain ⟨_, e⟩ := Option.ite_none_right_eq_some.mp h
    rw [← Option.some.inj e]
    exact save_named N j
  · exact (step_kept o h fun j e => ha ⟨j, e⟩).named N

/-! ## the jobs that are still to be read -/

def Call.unread : Call → List JobID
  | .fetching ids _ => ids
  | _ => []

/-- the job of a `Fail` whose script is next is none of `ids` -/
def FailsOther (ids : List JobID) : Call → Prop
  | .fail id _ _ _ => id ∉ ids
  | _ => True

instance (ids : List JobID) : DecidablePred (FailsOther ids)
  | .fail .. => inferInstanceAs (Decidable (_ ∉ _))
  | .idle | .fetching .. | .cancel .. | .reschedule .. => isTrue trivial

def Undisturbed (c : Caller) (s : Sys ρ) : Label → Prop
  | .ack _ id => id ∉ (s.calls c).unread
  | .failRun c' _ => FailsOther (s.calls c).unread (s.calls c')
  | .recoverStale =>
    ∀ id ∈ (s.calls c).unread, ∀ lock ∈ (s.db.zset claimedKey).score id, s.nowNanos < lock
  | _ => True

instance (c : Caller) (s : Sys ρ) : DecidablePred (Undisturbed c s)
  | .ack .. => inferInstanceAs (Decidable (_ ∉ _))
  | .failRun .. => inferInstanceAs (Decidable (FailsOther _ _))
  | .recoverStale => inferInstanceAs (Decidable (∀ id ∈ (s.calls c).unread, _))
  | .save _ | .claim .. | .fetch _ | .failLookup .. | .cancelLookup .. | .cancelRun _
  | .rescheduleLookup .. | .rescheduleRun .. | .tick _ => isTrue trivial

section
variable {lua : Lua} {s t : Sys ρ} {T T' : Table} {a : Label} {es : List Ev} {c : Caller}

/-- **One step keeps the claims that are not read.** -/
theorem Move.keeps_unread (m : Move s T a es T') (o : Ok s T) (hu : Undisturbed c s a) {id : JobID}
    (hid : id ∈ (s.calls c).unread) {r : Rec} (hr : T id = some r) (hc : r.claimed = true) :
    T' id = some r := by
  have hne : ∀ {i : JobID} {x : Rec}, T i = some x → x.claimed = false → id ≠ i := by
    rintro i x hx hf rfl
    rw [hr] at hx
    rw [← Option.some.inj hx, hc] at hf
    cases hf
  cases m with
  | quiet => exact hr
  | save fresh =>
    refine (Function.update_of_ne (fun e => ?_) ..).trans hr
    subst e
    exact fresh (o.known _ r hr)
  | claim hn hp =>
    refine (mapOn_of_not_mem _ _ fun h => ?_).trans hr
    obtain ⟨x, hx, hf⟩ := hp id h
    exact hne hx hf rfl
  | ack hT =>
    refine (Function.update_of_ne (fun e => ?_) ..).trans hr
    subst e
    exact hu hid
  | fail hcall hT =>
    have hother : FailsOther (s.calls c).unread _ := hu
    rw [hcall] at hother
    refine (Function.update_of_ne (fun e => ?_) ..).trans hr
    subst e
    exact hother hid
  | cancel hT hf | reschedule hT hf => exact (Function.update_of_ne (hne hT hf) ..).trans hr
  | recover hp =>
    refine (mapOn_of_not_mem _ _ fun h => ?_).trans hr
    obtain ⟨x, hx, _, hle⟩ := hp id h
    rw [hr] at hx
    obtain rfl := Option.some.inj hx
    have hscore : (s.db.zset claimedKey).score id = some (ρ.ofInt r.lockedUntil) := by
      rw [(o.rep.at_some hr).2, Rec.home, Rec.score, hc]
      exact if_pos rfl
    exact absurd hle (not_le.mpr (hu id hid _ hscore))

/-! ## the caller -/

def Label.caller : Label → Option Caller
  | .claim c .. | .fetch c | .ack c _ | .failLookup c .. | .failRun c _ | .cancelLookup c _
  | .cancelRun c | .rescheduleLookup c .. | .rescheduleRun c _ => some c
  | .save _ | .recoverStale | .tick _ => none

theorem calls_setCall {c' : Caller} (h : some c' ≠ some c) (x : Call) :
    (s.setCall c' x).calls c = s.calls c :=
  Function.update_of_ne (fun e : c = c' => h (congrArg some e.symm)) ..

theorem calls_look {c' : Caller} (h : some c' ≠ some c) (id : JobID) (next : String → Call) :
    (s.look c' id next).calls c = s.calls c := by
  unfold Sys.look
  split
  · rfl
  · exact calls_setCall h _

/-- a step of another caller does not change the call -/
theorem step_other (h : step lua s a = some t) (ha : a.caller ≠ some c) : t.calls c = s.calls c := by
  cases a with
  | save j =>
    obtain ⟨_, e⟩ := Option.ite_none_right_eq_some.mp h
    rw [← Option.some.inj e]
  | recoverStale | tick => rw [← Option.some.inj h]
  | ack =>
    simp only [step] at h
    split at h
    · rw [← Option.some.inj h]
    · cases h
  | claim | failRun | cancelRun | rescheduleRun =>
    simp only [step] at h
    split at h
    · rw [← Option.some.inj h]
      exact calls_setCall ha _
    · cases h
  | fetch =>
    simp only [step] at h
    split at h
    · rw [← Option.some.inj h]
      exact calls_setCall ha _
    · rw [← Option.some.inj h]
      exact calls_setCall ha _
    · cases h
  | failLookup | cancelLookup | rescheduleLookup =>
    simp only [step] at h
    split at h
    · rw [← Option.some.inj h]
      exact calls_look ha _ _
    · cases h

/-- a caller that reads goes on reading -/
theorem step_fetching {ids : List JobID} {got : List Job} (h : step lua s a = some t)
    (hc : s.calls c = .fetching ids got) (ha : a.caller = some c) : a = .fetch c := by
  cases a with
  | save | recoverStale | tick => cases ha
  | fetch => exact congrArg Label.fetch (Option.some.inj ha)
  | claim | ack | failLookup | failRun | cancelLookup | cancelRun | rescheduleLookup | rescheduleRun =>
    obtain rfl := Option.some.inj ha
    simp only [step, hc] at h
    cases h

theorem look_not_fetching (h : ∀ ids got, s.calls c ≠ .fetching ids got) (c' : Caller) (id : JobID)
    {next : String → Call} (hnext : ∀ b ids got, next b ≠ .fetching ids got) (ids : List JobID)
    (got : List Job) : (s.look c' id next).calls c ≠ .fetching ids got := by
  unfold Sys.look
  split
  · exact h ids got
  · by_cases e : some c' = some c
    · cases e
      rw [show (s.setCall c (next _)).calls c = next _ from Function.update_self ..]
      exact hnext _ ids got
    · rw [calls_setCall e]
      exact h ids got

/-- a caller that does not read starts to with a claim only -/
theorem step_not_fetching (h : step lua s a = some t) (hnew : ∀ q now n lu, a ≠ .claim c q now n lu)
    (hc : ∀ ids got, s.calls c ≠ .fetching ids got) (ids : List JobID) (got : List Job) :
    t.calls c ≠ .fetching ids got := by
  by_cases ha : a.caller = some c
  · cases a with
    | save | recoverStale | tick => cases ha
    | claim c' q now n lu =>
      cases ha
      exact absurd rfl (hnew q now n lu)
    | fetch =>
      cases ha
      simp only [step] at h
      split at h
      · exact absurd (by assumption) (hc _ _)
      · exact absurd (by assumption) (hc _ _)
      · cases h
    | ack =>
      simp only [step] at h
      split at h
      · rw [← Option.some.inj h]
        exact hc ids got
      · cases h
    | failRun | cancelRun | rescheduleRun =>
      cases ha
      simp only [step] at h
      split at h
      · rw [← Option.some.inj h]
        rw [show (s.setCall c .idle).calls c = .idle from Function.update_self ..]
        intro e
        cases e
      · cases h
    | failLookup | cancelLookup | rescheduleLookup =>
      simp only [step] at h
      split at h
      · rw [← Option.some.inj h]
        refine look_not_fetching (by exact hc) _ _ (fun b ids got e => ?_) ids got
        cases e
      · cases h
  · rw [step_other h ha]
    exact hc ids got

/-- the call of `c` that claimed `all`: what it has read, and what it is still to read; or it is over -/
inductive Reading (c : Caller) (all : List JobID) (s : Sys ρ) (T : Table) : Prop
  | on {ids : List JobID} {got : List Job} (hc : s.calls c = .fetching ids got)
      (hall : all = got.map Job.id ++ ids) (hown : ∀ j ∈ got, j.lockedBy = c.worker)
      (held : ∀ id ∈ ids, ∃ r, T id = some r ∧ r.claimed = true ∧ r.lockedBy = c.worker)
  | done (hc : ∀ ids got, s.calls c ≠ .fetching ids got)

/-- the record of a job, as HGETALL gives it -/
theorem job_of_rep (R : Rep s.db T) (N : Named s.db) {id : JobID} {r : Rec} (hr : T id = some r) :
    (s.db.job id).id = id ∧ (s.db.job id).lockedBy = r.lockedBy := by
  obtain ⟨⟨m, hm, hf⟩, _⟩ := R.at_some hr
  rw [Db.job, hm]
  show (m "id").getD "" = id ∧ (m "locked_by").getD "" = r.lockedBy
  rw [N id m hm, hf.lockedBy]
  exact ⟨rfl, rfl⟩

/-- a read, or the end of the call -/
theorem fetch_reading {all ids : List JobID} {got : List Job} (h : step lua s (.fetch c) = some t)
    (R : Rep s.db T) (N : Named s.db) (hc : s.calls c = .fetching ids got)
    (hall : all = got.map Job.id ++ ids) (hown : ∀ j ∈ got, j.lockedBy = c.worker)
    (held : ∀ id ∈ ids, ∃ r, T id = some r ∧ r.claimed = true ∧ r.lockedBy = c.worker) :
    Reading c all t T := by
  have hcalls : ∀ x, (s.setCall c x).calls c = x := fun x => Function.update_self ..
  cases ids with
  | nil =>
    simp only [step, hc] at h
    rw [← Option.some.inj h]
    refine .done fun ids got e => ?_
    cases (hcalls .idle).symm.trans e
  | cons id ids =>
    simp only [step, hc] at h
    rw [← Option.some.inj h]
    obtain ⟨r, hr, _, hw⟩ := held id List.mem_cons_self
    obtain ⟨hid, hlock⟩ := job_of_rep R N hr
    refine .on (hcalls _) ?_ (fun j hj => ?_) fun i hi => held i (List.mem_cons_of_mem _ hi)
    · rw [List.map_append, List.append_assoc]
      show all = got.map Job.id ++ ((s.db.job id).id :: ids)
      rw [hid]
      exact hall
    · rcases List.mem_append.mp hj with hj | hj
      · exact hown j hj
      · rw [List.mem_singleton.mp hj]
        exact hlock.trans hw

/-- a step of the run after the claim script -/
theorem step_reading {all : List JobID} (h : step lua s a = some t) (o : Ok s T) (m : Move s T a es T')
    (N : Named s.db) (hu : Undisturbed c s a) (hnew : ∀ q now n lu, a ≠ .claim c q now n lu)
    (I : Reading c all s T) : Reading c all t T' := by
  cases I with
  | done hc => exact .done (step_not_fetching h hnew hc)
  | on hc hall hown held =>
    by_cases ha : a.caller = some c
    · obtain rfl := step_fetching h hc ha
      cases m with
      | quiet => exact fetch_reading h o.rep N hc hall hown held
    · refine .on ((step_other h ha).trans hc) hall hown fun id hid => ?_
      obtain ⟨r, hr, hcl, hw⟩ := held id hid
      refine ⟨r, m.keeps_unread o hu ?_ hr hcl, hcl, hw⟩
      rw [hc]
      exact hid

end

/-! ## whole runs -/

theorem run_named {lua : Lua} {l : List Label} {s : Sys ρ} (h : run (step lua) (Sys.init ρ) l = some s) :
    ∃ T, Ok s T ∧ Named s.db := by
  refine run_keep (P := fun s => ∃ T, Ok s T ∧ Named s.db) (fun s a t hs hst => ?_)
    ⟨_, init_ok, fun _ _ h => (nomatch h)⟩ h
  obtain ⟨T, o, N⟩ := hs
  obtain ⟨es, T', m, f, hrep⟩ := step_move o hst
  exact ⟨T', m.ok f o hrep, step_named o hst N⟩

/-- the script itself: what it claims has its worker -/
theorem claim_reading {lua : Lua} {s t : Sys ρ} {T : Table} {c : Caller} {q : String} {now lu : Time}
    {n : Int} (o : Ok s T) (N : Named s.db) (h : step lua s (.claim c q now n lu) = some t) :
    ∃ T', (Ok t T' ∧ Named t.db) ∧ Reading c (claim q now n c.worker lu s.db).2 t T' := by
  have hstep := h
  simp only [step] at h
  split at h
  · obtain ⟨db', ids, e, hrep, hn, hp⟩ := claim_rep o.rep q now n c.worker lu
    rw [e] at h ⊢
    obtain rfl := Option.some.inj h
    have m : Move s T (.claim c q now n lu) _ _ :=
      .claim hn fun id hid => (hp id hid).imp fun _ h => ⟨h.1, h.2.1⟩
    refine ⟨_, ⟨m.ok (.of_call (c := c) (x := .fetching ids []) rfl (by simp) rfl rfl rfl rfl) o hrep,
      step_named o hstep N⟩, ?_⟩
    refine .on (Function.update_self ..) rfl (fun j hj => absurd hj List.not_mem_nil) fun id hid => ?_
    obtain ⟨r, hr, _⟩ := hp id hid
    exact ⟨_, mapOn_of_mem hr _ hid, rfl, rfl⟩
  · cases h

/-- **ClaimDue returns its own claims.**  After any run, in any interleaving after the script of a claim in
which no `Ack` or `Fail` script is run on a job that the call has not read and no `RecoverStale` finds its
lock at an end: the jobs that the call returns have the IDs that its script claimed, in that order, and its
worker in `LockedBy`. -/
theorem claim_reads_own (ρ : Scores) (lua : Lua) (l₁ l₂ : List Label) (s₁ s : Sys ρ) (c : Caller)
    (q : String) (now : Time) (n : Int) (lu : Time) (got : List Job)
    (h₁ : run (step lua) (Sys.init ρ) l₁ = some s₁)
    (h₂ : run (step lua) s₁ (.claim c q now n lu :: l₂) = some s)
    (hu : Meets (step lua) (Undisturbed c) s₁ (.claim c q now n lu :: l₂))
    (hnew : ∀ a ∈ l₂, ∀ q now n lu, a ≠ .claim c q now n lu) (hend : s.calls c = .fetching [] got) :
    got.map Job.id = (claim q now n c.worker lu s₁.db).2 ∧ ∀ j ∈ got, j.lockedBy = c.worker := by
  obtain ⟨T, o, N⟩ := run_named h₁
  obtain ⟨s₂, hclaim, hrest⟩ := run_cons.mp h₂
  set all := (claim q now n c.worker lu s₁.db).2
  have hkeep : ∀ (s : Sys ρ) a (t : Sys ρ), (∃ T, (Ok s T ∧ Named s.db) ∧ Reading c all s T) →
      (Undisturbed c s a ∧ ∀ q now n lu, a ≠ .claim c q now n lu) → step lua s a = some t →
      ∃ T, (Ok t T ∧ Named t.db) ∧ Reading c all t T := by
    intro s a t hs hC hst
    obtain ⟨T, ⟨o, N⟩, I⟩ := hs
    obtain ⟨es, T', m, f, hrep⟩ := step_move o hst
    exact ⟨T', ⟨m.ok f o hrep, step_named o hst N⟩, step_reading hst o m N hC.1 hC.2 I⟩
  obtain ⟨T', _, I⟩ := run_keep_of hkeep ((hu.2 s₂ hclaim).and_forall hnew) (claim_reading o N hclaim) hrest
  cases I with
  | done hc => exact absurd hend (hc _ _)
  | on hc hall hown held =>
    cases hend.symm.trans hc
    rw [hall, List.append_nil]
    exact ⟨rfl, hown⟩

/-! ## runs -/

/-- what a call that has read all its jobs returns -/
def Call.result : Call → Option (List Job)
  | .fetching [] got => some got
  | _ => none

theorem Call.of_result {x : Call} {got : List Job} (h : x.result = some got) : x = .fetching [] got := by
  unfold Call.result at h
  split at h
  · cases h
    rfl
  · cases h

/-- `A` has claimed a job and read it -/
def readJob : List Label :=
  let a : Caller := ⟨"A", 0⟩
  [.save { id := "i", queue := "q", runAt := 5 }, .save { id := "j", queue := "q", runAt := 6 },
    .claim a "q" 10 1 2000, .fetch a, .fetch a, .tick 1000]

/-- while `B` reads its claim, `A` acknowledges its job, and there is a recovery -/
def sharedGap : List Label :=
  let a : Caller := ⟨"A", 0⟩
  let b : Caller := ⟨"B", 0⟩
  [.claim b "q" 10 1 9000, .ack a "i", .recoverStale, .fetch b]

theorem claim_reads_own_shared : ∃ s₁ s got, run (step lua51) (Sys.init .double) readJob = some s₁ ∧
    run (step lua51) s₁ sharedGap = some s ∧ s.calls ⟨"B", 0⟩ = .fetching [] got ∧
    got.map Job.id = (claim "q" 10 1 "B" 9000 s₁.db).2 ∧ ∀ j ∈ got, j.lockedBy = "B" := by
  have h : (run (step lua51) (Sys.init .double) readJob).any (fun s₁ =>
      decide (Meets (step lua51) (Undisturbed ⟨"B", 0⟩) s₁ sharedGap) &&
        (run (step lua51) s₁ sharedGap).any fun s => (s.calls ⟨"B", 0⟩).result.isSome) = true := by
    decide +kernel
  obtain ⟨s₁, h₁, h⟩ := (Option.any_eq_true _ _).mp h
  obtain ⟨hu, h⟩ := Bool.and_eq_true_iff.mp h
  obtain ⟨s, h₂, h⟩ := (Option.any_eq_true _ _).mp h
  obtain ⟨got, hgot⟩ := Option.isSome_iff_exists.mp h
  refine ⟨s₁, s, got, h₁, h₂, Call.of_result hgot, ?_⟩
  exact claim_reads_own .double lua51 readJob _ s₁ s ⟨"B", 0⟩ "q" 10 1 9000 got h₁ h₂
    (of_decide_eq_true hu) (by simp) (Call.of_result hgot)

/-- the IDs and workers of the jobs that the call of `c` returns -/
def readBy (c : Caller) (l : List Label) : Option (List (JobID × String)) :=
  (run (step lua51) (Sys.init .double) l).bind fun s =>
    (s.calls c).result.map fun got => got.map fun j => (j.id, j.lockedBy)

/-- `A` claims a job and reads it, its lock ends, and the script of `B` claims the job -/
def reclaimed : List Label :=
  let a : Caller := ⟨"A", 0⟩
  [.save sampleJob, .claim a "q" 10 1 2000, .fetch a, .fetch a, .tick 3000, .recoverStale,
    .claim ⟨"B", 0⟩ "q" 3000 1 9000]

def ackedInGap : List Label := reclaimed ++ [.ack ⟨"A", 0⟩ "j", .fetch ⟨"B", 0⟩]

def failedInGap : List Label :=
  reclaimed ++ [.failLookup ⟨"A", 0⟩ "j" "boom" 3000, .failRun ⟨"A", 0⟩ 3000, .fetch ⟨"B", 0⟩]

/-- the same, but `A` reads only after the claim of `B` -/
def takenInGap : List Label :=
  [.save sampleJob, .claim ⟨"A", 0⟩ "q" 10 1 2000, .tick 3000, .recoverStale,
    .claim ⟨"B", 0⟩ "q" 3000 1 9000, .fetch ⟨"A", 0⟩]

/-- a recovery 100 ns before the end of the lock, which is the same double -/
def recoveredInGap : List Label :=
  [.save sampleJob, .claim ⟨"A", 0⟩ "q" 10 1 1767225600000000100, .tick 1767225600000000000,
    .recoverStale, .fetch ⟨"A", 0⟩]

/-- **A claim can read anything**: `A`'s late `Ack` between the script and the read of `B`, and `B` is
handed an empty record; `A`'s late `Fail`, and the record shows no claim; a recovery and the claim of `B`
between the script and the read of `A`, and `A` is handed a record with the claim of `B`; a recovery
before the end of the lock, and the record shows no claim. -/
theorem claim_reads_other :
    (Meets (step lua51) OwnJobs (Sys.init .double) ackedInGap ∧
      readBy ⟨"B", 0⟩ ackedInGap = some [("", "")]) ∧
    (Meets (step lua51) OwnJobs (Sys.init .double) failedInGap ∧
      readBy ⟨"B", 0⟩ failedInGap = some [("j", "")]) ∧
    readBy ⟨"A", 0⟩ takenInGap = some [("j", "B")] ∧
    readBy ⟨"A", 0⟩ recoveredInGap = some [("j", "")] := by
  refine ⟨⟨?_, ?_⟩, ⟨?_, ?_⟩, ?_, ?_⟩ <;> decide +kernel

end GS.Redis
