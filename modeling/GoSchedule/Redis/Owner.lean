import GoSchedule.Redis.System

/-!
# Who owns a claimed job

`Ack` and `Fail` name a job, not a claim: their scripts only ask whether the job is claimed.  So a
worker whose claim has run out can still end the claim of the worker that came after it.

* `OwnJobs`     every `Ack` and `Fail` is called on a job that the worker's own `ClaimDue` returned;
* `late_report_ends_claim`   that is not enough, and neither is `RecoverStale` strict at the end of the
  lock, which it compares as a double;
* `Sys.Before`  the lock has not run out for `RecoverStale`;
* `Timely`      every report is made while the worker's own claim has not run out;
* `claim_held`  **in a run of timely reports** a claimed job stays with the worker that claimed it until
  that worker reports or its lock runs out.
-/

namespace GS.Redis
open Trans Decimal MapOn

variable {ρ : Scores}

/-! ## claims that were not reported -/

/-- the worker claimed the job with this lock, and no report of it on the job was run since -/
def Unreported (w : String) (id : JobID) (lu : Time) : List Ev → Prop
  | [] => False
  | e :: l => e = .claimed w id lu ∧ .reported w id ∉ l ∨ Unreported w id lu l

theorem unreported_append {w : String} {id : JobID} {lu : Time} {l es : List Ev} :
    Unreported w id lu (l ++ es) ↔
      Unreported w id lu l ∧ .reported w id ∉ es ∨ Unreported w id lu es := by
  induction l with
  | nil => simp [Unreported]
  | cons e l ih =>
    rw [List.cons_append, Unreported, Unreported, ih, List.mem_append]
    tauto

theorem unreported_of_split {w : String} {id : JobID} {lu : Time} {l₁ l₂ : List Ev}
    (h : .reported w id ∉ l₂) : Unreported w id lu (l₁ ++ .claimed w id lu :: l₂) :=
  unreported_append.mpr (Or.inr (Or.inl ⟨rfl, h⟩))

theorem Unreported.mem {w : String} {id : JobID} {lu : Time} {l : List Ev}
    (h : Unreported w id lu l) : Ev.claimed w id lu ∈ l := by
  induction l with
  | nil => exact h.elim
  | cons e l ih =>
    rcases h with ⟨rfl, _⟩ | h
    · exact List.mem_cons_self
    · exact List.mem_cons_of_mem _ (ih h)

/-- the lock of the worker's last claim of the job, if no report on it was run since -/
def ownLock (w : String) (id : JobID) (log : List Ev) : Option Time :=
  log.foldl (fun lock e =>
    match e with
    | .claimed w' i lu => if w' = w ∧ i = id then some lu else lock
    | .reported w' i => if w' = w ∧ i = id then none else lock
    | _ => lock) none

theorem unreported_of_ownLock {w : String} {id : JobID} {lu : Time} {log : List Ev}
    (h : ownLock w id log = some lu) : Unreported w id lu log := by
  induction log using List.reverseRecOn with
  | nil => cases h
  | append_singleton l e ih =>
    rw [ownLock, List.foldl_append] at h
    rw [unreported_append]
    have hkeep : ownLock w id l = some lu → (Ev.reported w id ≠ e) →
        Unreported w id lu l ∧ Ev.reported w id ∉ [e] ∨ Unreported w id lu [e] :=
      fun h hne => Or.inl ⟨ih h, fun hm => hne (List.mem_singleton.mp hm)⟩
    cases e with
    | claimed w' i lu' =>
      by_cases hw : w' = w ∧ i = id
      · obtain ⟨rfl, rfl⟩ := hw
        have e : some lu' = some lu := (if_pos ⟨rfl, rfl⟩).symm.trans h
        rw [Option.some.inj e]
        exact Or.inr (Or.inl ⟨rfl, by simp⟩)
      · exact hkeep ((if_neg hw).symm.trans h) (by simp)
    | reported w' i =>
      by_cases hw : w' = w ∧ i = id
      · have e : none = some lu := (if_pos hw).symm.trans h
        cases e
      · refine hkeep ((if_neg hw).symm.trans h) fun e => hw ?_
        cases e
        exact ⟨rfl, rfl⟩
    | returned | called | failed | recovered => exact hkeep h (by simp)

/-! ## conditions on a step -/

/-- every `Ack` and `Fail` is called on a job that the worker's own `ClaimDue` returned -/
def OwnJobs (s : Sys ρ) : Label → Prop
  | .ack c id => .returned c.worker id ∈ s.log
  | .failLookup c id _ _ => .returned c.worker id ∈ s.log
  | _ => True

instance (s : Sys ρ) : DecidablePred (OwnJobs s) := fun a => by
  cases a <;> unfold OwnJobs <;> infer_instance

/-- the lock has not run out: in the numbers that `RecoverStale` compares, the time of the server is before
its end -/
def Sys.Before (s : Sys ρ) (lu : Time) : Prop :=
  (s.clock : Int) ≤ Int64.maxValue.toInt ∧ s.nowNanos < ρ.ofInt lu

instance (s : Sys ρ) (lu : Time) : Decidable (s.Before lu) := inferInstanceAs (Decidable (_ ∧ _))

/-- the worker's own claim of the job has not been reported and has not run out -/
def OwnClaim (s : Sys ρ) (w : String) (id : JobID) : Prop :=
  match ownLock w id s.log with
  | some lu => s.Before lu
  | none => False

instance (s : Sys ρ) (w : String) (id : JobID) : Decidable (OwnClaim s w id) := by
  unfold OwnClaim
  cases ownLock w id s.log <;> infer_instance

/-- the same for the job of a `Fail` whose script is next -/
def OwnFail (s : Sys ρ) (w : String) : Call → Prop
  | .fail id _ _ _ => OwnClaim s w id
  | _ => True

instance (s : Sys ρ) (w : String) (x : Call) : Decidable (OwnFail s w x) := by
  cases x <;> unfold OwnFail <;> infer_instance

/-- locks are in the range of `UnixNano`, and the scripts of `Ack` and `Fail` are run for the worker's
own claim -/
def Timely (s : Sys ρ) : Label → Prop
  | .claim _ _ _ _ lu => Int64.minValue.toInt ≤ lu ∧ lu ≤ Int64.maxValue.toInt
  | .ack c id => OwnClaim s c.worker id
  | .failRun c _ => OwnFail s c.worker (s.calls c)
  | _ => True

instance (s : Sys ρ) : DecidablePred (Timely s) := fun a => by
  cases a <;> unfold Timely <;> infer_instance

theorem stamp_of_range {t : Time} (h1 : Int64.minValue.toInt ≤ t) (h2 : t ≤ Int64.maxValue.toInt) :
    stamp t = t := by
  have hz : t ≠ zeroTime := by
    intro e
    rw [e] at h1
    exact absurd h1 (by decide)
  rw [stamp, if_neg hz]
  exact Int64.toInt_ofInt_of_le h1 (Int.lt_of_le_of_lt h2 (by decide))

/-! ## the owner of a live claim -/

/-- a lock that has not run out had not run out before -/
theorem Frame.before {s t : Sys ρ} {a : Label} {es : List Ev} (f : Frame s a es t) {lu : Time}
    (h : t.Before lu) : s.Before lu := by
  have hclock : (s.clock : Int) ≤ t.clock := Int.ofNat_le.mpr f.clock
  exact ⟨hclock.trans h.1, lt_of_le_of_lt (ρ.nanos_mono (Int.natCast_nonneg _) hclock h.1) h.2⟩

def Owned (s : Sys ρ) (T : Table) : Prop :=
  ∀ w id lu, Unreported w id lu s.log → s.Before lu →
    ∃ r, T id = some r ∧ r.claimed = true ∧ r.lockedBy = w ∧ r.lockedUntil = lu

section
variable {s t : Sys ρ} {T : Table} {a : Label} {es : List Ev}

theorem Owned.of_ownClaim (ow : Owned s T) {w : String} {id : JobID} (h : OwnClaim s w id) :
    ∃ r, T id = some r ∧ r.lockedBy = w := by
  unfold OwnClaim at h
  cases hl : ownLock w id s.log with
  | none =>
    rw [hl] at h
    exact h.elim
  | some lu =>
    rw [hl] at h
    obtain ⟨r, hr, _, hw, _⟩ := ow w id lu (unreported_of_ownLock hl) h
    exact ⟨r, hr, hw⟩

/-- a step that hands out nothing keeps the owners, if it leaves the records of live claims alone -/
theorem Owned.of_same {T' : Table} (ow : Owned s T) (f : Frame s a es t)
    (hes : ∀ w id lu, Ev.claimed w id lu ∉ es)
    (hT : ∀ w id lu r, T id = some r → r.claimed = true → r.lockedBy = w → r.lockedUntil = lu →
      s.Before lu → Ev.reported w id ∉ es → T' id = T id) : Owned t T' := by
  intro w id lu hu hlt
  have hlt' : s.Before lu := f.before hlt
  rw [f.log, unreported_append] at hu
  rcases hu with ⟨hu, hrep⟩ | hu
  · obtain ⟨r, hr, hc, hw, hl⟩ := ow w id lu hu hlt'
    refine ⟨r, ?_, hc, hw, hl⟩
    rw [hT w id lu r hr hc hw hl hlt' hrep]
    exact hr
  · exact absurd hu.mem (hes w id lu)

/-- a report of the owner writes a record that no other claim is live on -/
theorem Owned.report {T' : Table} (ow : Owned s T) (f : Frame s a es t) {w₀ : String} {i : JobID}
    {x : Option Rec} (hT' : T' = Function.update T i x) (hown : OwnClaim s w₀ i)
    (hes : ∀ w id lu, Ev.claimed w id lu ∉ es) (hrep : Ev.reported w₀ i ∈ es) : Owned t T' := by
  refine ow.of_same f hes fun w id lu r hr _ hw _ _ hno => ?_
  rw [hT']
  refine Function.update_of_ne (fun e => ?_) ..
  subst e
  obtain ⟨r₀, hr₀, hw₀⟩ := ow.of_ownClaim hown
  rw [hr] at hr₀
  rw [← hw₀, ← Option.some.inj hr₀, hw] at hrep
  exact hno hrep

/-- **One step keeps the owners.** -/
theorem Move.owned {T' : Table} (m : Move s T a es T') (f : Frame s a es t) (o : Ok s T)
    (hC : Timely s a) (ow : Owned s T) : Owned t T' := by
  cases m with
  | quiet hes =>
    refine ow.of_same f (fun w id lu hm => ?_) fun _ _ _ _ _ _ _ _ _ _ => rfl
    have h := (hes _ hm id).1
    rw [show Ev.handsOut id (.claimed w id lu) = true from beq_self_eq_true id] at h
    cases h
  | save fresh =>
    refine ow.of_same f (by simp) fun w id lu r hr _ _ _ _ _ => ?_
    refine Function.update_of_ne (fun e => ?_) ..
    subst e
    exact fresh (o.known _ r hr)
  | @claim c q now lu₀ n ids hn hp =>
    intro w id lu hu hlt
    rw [f.log, unreported_append] at hu
    rcases hu with ⟨hu, _⟩ | hu
    · obtain ⟨r, hr, hc, hw⟩ := ow w id lu hu (f.before hlt)
      have hid : id ∉ ids := fun hid => by
        obtain ⟨r', hr', hc'⟩ := hp id hid
        rw [hr] at hr'
        rw [← Option.some.inj hr', hc] at hc'
        cases hc'
      exact ⟨r, (mapOn_of_not_mem _ _ hid).trans hr, hc, hw⟩
    · obtain ⟨_, hi, e⟩ := List.mem_map.mp hu.mem
      cases e
      obtain ⟨r, hr, _⟩ := hp _ hi
      exact ⟨_, mapOn_of_mem hr _ hi, rfl, rfl, stamp_of_range hC.1 hC.2⟩
  | ack hT hc => exact ow.report f rfl hC (by simp) (by simp)
  | fail hcall hT hc hr =>
    have hown : OwnFail s _ _ := hC
    rw [hcall] at hown
    exact ow.report f rfl hown (by simp) (by simp)
  | cancel hT hc | reschedule hT hc =>
    refine ow.of_same f (by simp) fun w id lu r hr hcl _ _ _ _ => ?_
    refine Function.update_of_ne (fun e => ?_) ..
    subst e
    rw [hr] at hT
    rw [← Option.some.inj hT, hcl] at hc
    cases hc
  | @recover ids hp =>
    refine ow.of_same f (by simp) fun w id lu r hr _ _ hl hlt _ => ?_
    refine mapOn_of_not_mem _ _ fun hid => ?_
    obtain ⟨r', hr', _, hle⟩ := hp id hid
    rw [hr] at hr'
    rw [← Option.some.inj hr', hl] at hle
    exact absurd hlt.2 (not_lt.mpr hle)

end

/-- **A claim lasts.**  In every state of a run in which each `Ack` and `Fail` script is run for a claim
of the worker that has not run out, a claimed job keeps its record, claimed by the worker with its lock,
until the lock ends or a report of that worker is run. -/
theorem claim_held (ρ : Scores) (lua : Lua) (l : List Label) (s : Sys ρ)
    (h : run (step lua) (Sys.init ρ) l = some s) (hm : Meets (step lua) Timely (Sys.init ρ) l)
    (w : String) (id : JobID) (lu : Time) (l₁ l₂ : List Ev)
    (hlog : s.log = l₁ ++ .claimed w id lu :: l₂) (hrep : .reported w id ∉ l₂) (hlt : s.Before lu) :
    ∃ m, s.db.hash (jobKey id) = some m ∧ m "state" = some stateClaimedArg ∧
      m "locked_by" = some w ∧ m "locked_until" = some (itoa lu) := by
  have hinv : ∃ T, Ok s T ∧ Owned s T := by
    refine run_keep_of (P := fun s => ∃ T, Ok s T ∧ Owned s T) (fun s a t hs hC hst => ?_) hm
      ⟨_, init_ok, fun _ _ _ hu => hu.elim⟩ h
    obtain ⟨T, o, ow⟩ := hs
    obtain ⟨es, T', m, f, hR⟩ := step_move o hst
    exact ⟨T', m.ok f o hR, m.owned f o hC ow⟩
  obtain ⟨T, o, ow⟩ := hinv
  obtain ⟨r, hr, hc, hw, hl⟩ := ow w id lu (hlog ▸ unreported_of_split hrep) hlt
  obtain ⟨⟨m, hh, hf⟩, _⟩ := o.rep.at_some hr
  refine ⟨m, hh, ?_, hw ▸ hf.lockedBy, hl ▸ hf.lockedUntil⟩
  rw [hf.state, hc]
  rfl

/-! ## runs -/

def sampleJob : Job := { id := "j", queue := "q", runAt := 5, maxAttempts := 5 }

/-- `A` claims a job and its lock ends; after the recovery `B` claims the job -/
def takeover : List Label :=
  let a : Caller := ⟨"A", 0⟩
  let b : Caller := ⟨"B", 0⟩
  [.save sampleJob, .claim a "q" 10 1 2000, .fetch a, .fetch a, .tick 3000, .recoverStale,
    .claim b "q" 3000 1 9000, .fetch b, .fetch b]

theorem claim_held_takeover : ∃ s m, run (step lua51) (Sys.init .double) takeover = some s ∧
    s.db.hash (jobKey "j") = some m ∧ m "locked_by" = some "B" := by
  have hrun : (run (step lua51) (Sys.init .double) takeover).map
      (fun s => (s.log, decide (s.Before 9000))) =
      some ([.claimed "A" "j" 2000, .returned "A" "j", .recovered "j", .claimed "B" "j" 9000,
        .returned "B" "j"], true) := by decide +kernel
  obtain ⟨s, hs, he⟩ := Option.map_eq_some_iff.mp hrun
  obtain ⟨hlog, hbefore⟩ := Prod.mk.inj he
  obtain ⟨m, hm, _, hw, _⟩ := claim_held .double lua51 takeover s hs (by decide +kernel) "B" "j" 9000
    [.claimed "A" "j" 2000, .returned "A" "j", .recovered "j"] [.returned "B" "j"] hlog
    (by decide) (of_decide_eq_true hbefore)
  exact ⟨s, m, hs, hm, hw⟩

/-- what the record of the sample job says after a run, with the history and the clock -/
def outcome (l : List Label) : Option (Option String × Option String × List Ev × Nat) :=
  (run (step lua51) (Sys.init .double) l).map fun s =>
    (s.db.hget (jobKey "j") "state", s.db.hget (jobKey "j") "locked_by", s.log, s.clock)

/-- `A` reports a failure after all, and `C` claims the job -/
def lateFail : List Label :=
  let a : Caller := ⟨"A", 0⟩
  takeover ++ [.failLookup a "j" "boom" 3000, .failRun a 3000, .claim ⟨"C", 0⟩ "q" 3000 1 9500]

/-- **A late report ends the claim of another worker**: an `Ack` removes the record, and a `Fail` puts
the job back, so that a third worker is given it.  And `RecoverStale` ends a claim at the very end of
its lock, or, since it compares doubles, 100 ns before.  In the four runs `B` has claimed the job and not
reported, and its lock has not passed. -/
theorem late_report_ends_claim :
    (Meets (step lua51) OwnJobs (Sys.init .double) (takeover ++ [.ack ⟨"A", 0⟩ "j"]) ∧
      outcome (takeover ++ [.ack ⟨"A", 0⟩ "j"]) = some (none, none,
        [.claimed "A" "j" 2000, .returned "A" "j", .recovered "j", .claimed "B" "j" 9000,
          .returned "B" "j", .called "A" "j", .reported "A" "j"], 3000)) ∧
    (Meets (step lua51) OwnJobs (Sys.init .double) lateFail ∧
      outcome lateFail = some (some stateClaimedArg, some "C",
        [.claimed "A" "j" 2000, .returned "A" "j", .recovered "j", .claimed "B" "j" 9000,
          .returned "B" "j", .called "A" "j", .reported "A" "j", .failed "j",
          .claimed "C" "j" 9500], 3000)) ∧
    outcome [.save sampleJob, .claim ⟨"B", 0⟩ "q" 10 1 2000, .tick 2000, .recoverStale] =
      some (some statePendingArg, some "", [.claimed "B" "j" 2000, .recovered "j"], 2000) ∧
    outcome [.save sampleJob, .claim ⟨"B", 0⟩ "q" 10 1 1767225600000000100, .tick 1767225600000000000,
        .recoverStale] =
      some (some statePendingArg, some "", [.claimed "B" "j" 1767225600000000100, .recovered "j"],
        1767225600000000000) := by
  refine ⟨⟨?_, ?_⟩, ⟨?_, ?_⟩, ?_, ?_⟩ <;> decide +kernel

end GS.Redis
