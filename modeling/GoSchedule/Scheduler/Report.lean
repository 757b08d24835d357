import GoSchedule.Scheduler.Conserve

/-!
# Whether the hooks say what the store did

The worker and the store decide by rules of their own whether an attempt was the last one: the
store's `Exhausted` never holds without a positive `MaxAttempts`, the worker counts a limit that is
not positive as three, and a job without a handler is reported as failed at once.

* `Truthful j d`        `OnFailure` was fired exactly if `Fail` removed the job, `OnRetry` exactly if
  it is pending again with one attempt more and due at the reported time, `OnSuccess` exactly if
  `Ack` removed it;
* `Agreeing x w`        the executions for which the two rules agree;
* `reports_iff`         an execution is truthful exactly if it is agreeing; and along a run whose
  executions all agree, a job that was reported as failed is gone for good;
* `unlimited_reports_twice`   a job without a limit that is reported as failed twice.
-/

namespace GS
open Mem

structure Truthful (j : Job) (d : Done) : Prop where
  failure : (∃ a e, .failure j.id j.name j.queue a e ∈ d.events) ↔
    (∃ msg t, d.call = .fail j.id msg t) ∧ d.result = none ∧ d.store.jobs j.id = none
  retry : (∃ a e t, .retry j.id j.name j.queue a e t ∈ d.events) ↔
    ∃ k, d.store.jobs j.id = some k ∧ k.state = statePending ∧ k.attempt = j.attempt + 1
  retryAt : ∀ a e t, .retry j.id j.name j.queue a e t ∈ d.events →
    ∃ k, d.store.jobs j.id = some k ∧ k.runAt = t
  success : (∃ a u, .success j.id j.name j.queue a u ∈ d.events) ↔
    d.call = .ack j.id ∧ d.result = none ∧ d.store.jobs j.id = none

/-- a handler that succeeds, a positive limit, or fewer than three attempts; without a handler, the
store's last attempt -/
def Agreeing (x : Outcome) : Worker → Prop
  | .running j => safeInvoke x.result = none ∨ 0 < j.maxAttempts ∨ j.attempt + 1 < 3
  | .missing j => Exhausted j
  | _ => True

/-! ## one execution -/

section
variable {j : Job} {d : Done} (hres : d.result = none)
  (hjobs : d.store.jobs j.id = d.call.record j)
include hres hjobs

theorem truthful_success {a : Int64} {u : Duration} (hc : d.call = .ack j.id)
    (he : d.events = [.success j.id j.name j.queue a u]) : Truthful j d := by
  rw [hc] at hjobs
  have hnone : d.store.jobs j.id = none := hjobs
  refine ⟨?_, ?_, ?_, ?_⟩
  · simp [he, hc]
  · simp [he, hnone]
  · simp [he]
  · simp [he, hc, hres, hnone]

omit hres in
theorem truthful_retry {a : Int64} {msg : String} {t : Time} (hc : d.call = .fail j.id msg t)
    (he : d.events = [.retry j.id j.name j.queue a msg t]) (hx : ¬ Exhausted j) :
    Truthful j d := by
  have hsome : d.store.jobs j.id = some (retried j msg t) := by
    rw [hjobs, hc]
    exact if_neg hx
  refine ⟨?_, ?_, ?_, ?_⟩
  · simp [he, hsome]
  · simp only [he, hsome, List.mem_singleton, Option.some.injEq]
    exact ⟨fun _ => ⟨_, rfl, rfl, rfl⟩, fun _ => ⟨a, msg, t, rfl⟩⟩
  · intro a' e' t' h
    rw [he, List.mem_singleton] at h
    injection h with _ _ _ _ _ h
    exact ⟨_, hsome, h.symm⟩
  · simp [he, hc]

/-- a reported failure is the truth exactly if the store removed the job -/
theorem truthful_failure_iff {a : Int64} {msg e : String} {t : Time}
    (hc : d.call = .fail j.id msg t) (he : d.events = [.failure j.id j.name j.queue a e]) :
    Truthful j d ↔ Exhausted j := by
  have hrec : d.store.jobs j.id = afterFail j msg t := by rw [hjobs, hc]; rfl
  constructor
  · intro T
    have hnone := (T.failure.mp ⟨a, e, by rw [he]; exact List.mem_cons_self⟩).2.2
    by_contra hx
    rw [hrec, afterFail, if_neg hx] at hnone
    cases hnone
  · intro hx
    have hnone : d.store.jobs j.id = none := hrec.trans (if_pos hx)
    refine ⟨?_, ?_, ?_, ?_⟩
    · simp [he, hc, hres, hnone]
    · simp [he, hnone]
    · simp [he]
    · simp [he, hc]

end

/-- **An execution of a held job is truthful exactly if it is agreeing.** -/
theorem truthful_iff {st : Mem.Store} {H : String → List Job} (l : Ledger st H) {q : String}
    {j : Job} (hj : j ∈ H q) {sc : Scheduler} {x : Outcome} {w : Worker} {d : Done}
    (hw : w.finish sc x st = some d) (job : w.job = some j) : Truthful j d ↔ Agreeing x w := by
  obtain ⟨hres, _, hjobs⟩ := finish_jobs l hj hw job
  have hrec : d.store.jobs j.id = d.call.record j := by rw [hjobs, Function.update_self]
  cases w with
  | idle => cases hw
  | got k => cases hw
  | missing k =>
    obtain rfl := Option.some.inj job
    obtain rfl := Option.some.inj hw
    exact truthful_failure_iff hres hrec rfl rfl
  | running k =>
    obtain rfl := Option.some.inj job
    replace hw := Option.some.inj hw
    unfold finish at hw
    unfold Agreeing
    cases hr : safeInvoke x.result with
    | none =>
      simp only [hr] at hw
      subst hw
      exact iff_of_true (truthful_success hres hrec rfl rfl) (Or.inl rfl)
    | some err =>
      simp only [hr] at hw
      split at hw
      · rename_i hlast
        subst hw
        rw [truthful_failure_iff hres hrec rfl rfl]
        unfold maxAttempts at hlast
        unfold Exhausted
        split at hlast
        · grind
        · grind
      · rename_i hlast
        subst hw
        have hev : (if (StoreCall.apply st (.fail k.id err
            (x.now.add (sc.defaultBackoff (k.attempt + 1))))).2 = none
            then [Event.retry k.id k.name k.queue (k.attempt + 1) err
              (x.now.add (sc.defaultBackoff (k.attempt + 1)))] else []) = _ := if_pos hres
        unfold maxAttempts at hlast
        refine iff_of_true (truthful_retry hrec rfl hev ?_) (Or.inr ?_)
        · unfold Exhausted
          split at hlast <;> grind
        · split at hlast <;> grind

/-! ## the failures of a whole run -/

/-- a finishing worker reports at most one failure, of its own job -/
theorem failures_finish {sc : Scheduler} {x : Outcome} {st : Mem.Store} {w : Worker} {d : Done}
    {j : Job} (hw : w.finish sc x st = some d) (job : w.job = some j) (id : JobID) :
    failures id d.events = 0 ∨ id = j.id ∧ failures id d.events = 1 ∧
      ∃ a e, .failure j.id j.name j.queue a e ∈ d.events := by
  have hone : ∀ a e, failures id [.failure j.id j.name j.queue a e] = 0 ∨ id = j.id ∧
      failures id [.failure j.id j.name j.queue a e] = 1 ∧ ∃ a' e',
        Event.failure j.id j.name j.queue a' e' ∈ [Event.failure j.id j.name j.queue a e] := by
    intro a e
    by_cases h : j.id = id
    · exact Or.inr ⟨h.symm, by simp [failures, h], a, e, List.mem_cons_self⟩
    · exact Or.inl (by simp [failures, h])
  cases w with
  | idle => cases hw
  | got k => cases hw
  | missing k =>
    obtain rfl := Option.some.inj job
    obtain rfl := Option.some.inj hw
    exact hone _ _
  | running k =>
    obtain rfl := Option.some.inj job
    obtain rfl := Option.some.inj hw
    unfold finish
    dsimp only
    split
    · exact Or.inl rfl
    · split
      · exact hone _ _
      · refine Or.inl ?_
        show failures id (if _ then _ else _) = 0
        split <;> rfl

/-- the condition on a step: the execution that it ends is agreeing -/
def StepAgrees (s : Sys) : Label → Prop
  | .finish q i x => ∀ w, (s.workers q)[i]? = some w → Agreeing x w
  | _ => True

/-- a job that was reported as failed was reported once and is gone for good -/
structure FailInv (s : Sys) : Prop where
  inv : SysInv s
  once : ∀ id, failures id s.log ≤ 1
  gone : ∀ id, 0 < failures id s.log → s.store.jobs id = none ∧ ¬ s.Fresh id

section
variable {s t : Sys} {a : Label} (v : FailInv s)
include v

/-- a job with a record was not reported as failed -/
theorem FailInv.unreported {j : Job} (h : s.store.jobs j.id = some j) : failures j.id s.log = 0 := by
  by_contra hne
  have hnone := (v.gone j.id (Nat.pos_of_ne_zero hne)).1
  rw [h] at hnone
  cases hnone

theorem step_failInv (hc : StepAgrees s a) (h : step s a = some t) : FailInv t := by
  suffices hrest : (∀ id, failures id t.log ≤ 1) ∧
      ∀ id, 0 < failures id t.log → t.store.jobs id = none ∧ ¬ t.Fresh id from
    ⟨step_inv v.inv h, hrest.1, hrest.2⟩
  have m := step_move v.inv.ledger h
  have hsame : (∀ id, failures id t.log = failures id s.log) → ∀ id, failures id t.log ≤ 1 :=
    fun e id => by rw [e]; exact v.once id
  have hfresh : t.saved = s.saved → ∀ id, ¬ s.Fresh id → ¬ t.Fresh id := fun e id hf => by
    unfold Sys.Fresh at *
    rwa [e]
  -- a write under the ID of a job that was not reported
  have hwrite : ∀ (j : Job) (r : Option Job), failures j.id s.log = 0 →
      t.store.jobs = Function.update s.store.jobs j.id r →
      ∀ id, 0 < failures id s.log → t.store.jobs id = none := by
    intro j r h0 e id hid
    have hne : id ≠ j.id := fun h' => by rw [h', h0] at hid; exact absurd hid (lt_irrefl 0)
    rw [e, Function.update_of_ne hne]
    exact (v.gone id hid).1
  cases m with
  | quiet store saved _ fr =>
    refine ⟨hsame fr.failures, fun id hid => ?_⟩
    rw [fr.failures] at hid
    exact ⟨store ▸ (v.gone id hid).1, hfresh saved id (v.gone id hid).2⟩
  | save j fresh _ _ jobs saved _ fr =>
    have h0 : failures j.id s.log = 0 := by
      by_contra hne
      exact (v.gone j.id (Nat.pos_of_ne_zero hne)).2 fresh
    refine ⟨hsame fr.failures, fun id hid => ?_⟩
    rw [fr.failures] at hid
    refine ⟨hwrite j _ h0 jobs id hid, fun hf => ?_⟩
    exact (v.gone id hid).2 (fresh_of_append saved hf).1
  | edit j r old _ _ _ jobs saved _ fr =>
    refine ⟨hsame fr.failures, fun id hid => ?_⟩
    rw [fr.failures] at hid
    exact ⟨hwrite j r (v.unreported old) jobs id hid, hfresh saved id (v.gone id hid).2⟩
  | claim q now n w lu L _ batch saved _ fr =>
    refine ⟨hsame fr.failures, fun id hid => ?_⟩
    rw [fr.failures] at hid
    refine ⟨?_, hfresh saved id (v.gone id hid).2⟩
    rw [batch.eq_out id fun j hj e => ?_]
    · exact (v.gone id hid).1
    · have h0 := v.unreported (batch.mem j hj).1
      rw [e] at h0
      exact absurd hid (by rw [h0]; exact lt_irrefl 0)
  | start q j store saved _ _ _ _ _ log =>
    have hlog : ∀ id, failures id t.log = failures id s.log := fun id => by
      rw [log, failures_append]
      rfl
    refine ⟨hsame hlog, fun id hid => ?_⟩
    rw [hlog] at hid
    exact ⟨store ▸ (v.gone id hid).1, hfresh saved id (v.gone id hid).2⟩
  | finish q i j R w x d label slot hw job store saved old _ _ log =>
    have hj : j ∈ s.held q := old.mem_iff.mpr List.mem_cons_self
    have hrec := ((v.inv.ledger.mem q j).mp hj).1
    have h0 := v.unreported hrec
    obtain ⟨_, _, jobs⟩ := finish_jobs v.inv.ledger hj hw job
    subst label
    have T := (truthful_iff v.inv.ledger hj hw job).mpr (hc w slot)
    refine ⟨fun id => ?_, fun id hid => ?_⟩
    · rw [log, failures_append]
      rcases failures_finish hw job id with h1 | ⟨rfl, h1, _⟩
      · rw [h1]
        exact v.once id
      · rw [h1, h0]
    · rw [log, failures_append] at hid
      rcases failures_finish hw job id with h1 | ⟨rfl, _, hev⟩
      · rw [h1, Nat.add_zero] at hid
        exact ⟨hwrite j _ h0 (store ▸ jobs) id hid, hfresh saved id (v.gone id hid).2⟩
      · refine ⟨store ▸ (T.failure.mp hev).2.2, hfresh saved j.id fun hf => ?_⟩
        have hnone := v.inv.known j.id hf
        rw [hrec] at hnone
        cases hnone

/-- what a step does to a job that was reported as failed: nothing -/
theorem step_failed (h : step s a = some t) {id : JobID}
    (hid : 0 < failures id s.log) :
    0 < failures id t.log ∧ attempts id t.log = attempts id s.log := by
  have hnone := (v.gone id hid).1
  cases step_move v.inv.ledger h with
  | quiet _ _ _ fr => exact ⟨fr.failures id ▸ hid, fr.attempts id⟩
  | save _ _ _ _ _ _ _ fr => exact ⟨fr.failures id ▸ hid, fr.attempts id⟩
  | edit _ _ _ _ _ _ _ _ _ fr => exact ⟨fr.failures id ▸ hid, fr.attempts id⟩
  | claim _ _ _ _ _ _ _ _ _ _ fr => exact ⟨fr.failures id ▸ hid, fr.attempts id⟩
  | start q j _ _ _ mem _ _ _ log =>
    have hne : j.id ≠ id := fun e => by
      rw [← e, ((v.inv.ledger.mem q j).mp mem).1] at hnone
      cases hnone
    rw [log, failures_append, attempts_append]
    exact ⟨Nat.add_pos_left hid _, by simp [attempts, hne]⟩
  | finish q i j R w x d _ _ hw _ _ _ _ _ _ log =>
    rw [log, failures_append, attempts_append, attempts_finish hw, List.append_nil]
    exact ⟨Nat.add_pos_left hid _, rfl⟩

end

theorem init_failInv (sc : Scheduler) : FailInv (Sys.init sc) :=
  ⟨init_inv sc, fun _ => Nat.zero_le 1, fun _ h => absurd h (lt_irrefl 0)⟩

/-- **The hooks report what the store did exactly for the agreeing executions; along a run of
agreeing executions a job that was reported as failed is never claimed, started or reported
again.** -/
theorem reports_iff (sc : Scheduler) :
    (∀ l s, Trans.run step (Sys.init sc) l = some s → ∀ (q : String) (i : Nat) (x : Outcome) w j d,
      (s.workers q)[i]? = some w → w.job = some j → w.finish s.sched x s.store = some d →
      (Truthful j d ↔ Agreeing x w)) ∧
    ∀ l₁ l₂ s t, Trans.run step (Sys.init sc) l₁ = some s → Trans.run step s l₂ = some t →
      Trans.Meets step StepAgrees (Sys.init sc) (l₁ ++ l₂) → ∀ id, 0 < failures id s.log →
      failures id t.log = 1 ∧ attempts id t.log = attempts id s.log ∧ t.store.jobs id = none ∧
        ∀ q, ∀ j ∈ t.held q, j.id ≠ id := by
  refine ⟨fun l s h q i x w j d hw hj hd => ?_, fun l₁ l₂ s t h₁ h₂ hm id hid => ?_⟩
  · exact truthful_iff (run_inv h).ledger (mem_held_of_worker (List.mem_of_getElem? hw) hj) hd hj
  · obtain ⟨hm₁, hm₂⟩ := hm.append h₁
    have v : FailInv s := Trans.run_keep_of (P := FailInv)
      (fun _ _ _ v hc h => step_failInv v hc h) hm₁ (init_failInv sc) h₁
    have hkeep : FailInv t ∧ 0 < failures id t.log ∧ attempts id t.log = attempts id s.log := by
      refine Trans.run_keep_of (P := fun u => FailInv u ∧ 0 < failures id u.log ∧
        attempts id u.log = attempts id s.log) ?_ hm₂ ⟨v, hid, rfl⟩ h₂
      intro u a u' ⟨hv, hp, he⟩ hc hs
      obtain ⟨hp', he'⟩ := step_failed hv hs hp
      exact ⟨step_failInv hv hc hs, hp', he'.trans he⟩
    obtain ⟨vt, hp, he⟩ := hkeep
    have hnone := (vt.gone id hp).1
    refine ⟨Nat.le_antisymm (vt.once id) hp, he, hnone, fun q j hj e => ?_⟩
    rw [← e, ((vt.inv.ledger.mem q j).mp hj).1] at hnone
    cases hnone

/-- one execution that fails, and the claim and the hand-over before it -/
def failingRound (now : Time) : List Label :=
  [.claim "default" now, .send "default", .receive "default" 0, .lookup "default" 0,
    .finish "default" 0 ⟨.error "boom", now, now, now⟩]

/-- a job with `WithMaxAttempts(0)` that fails three times, and once more an hour later -/
def unlimited : List Label :=
  .schedule 0 0 "id" "job" [] [.withMaxAttempts 0] ::
    (failingRound 0 ++ failingRound 0 ++ failingRound 0 ++ failingRound 3600000000000)

/-- the job is reported as failed at the third attempt, and again at the fourth -/
theorem unlimited_reports_twice :
    (Trans.run step (Sys.init oneHandler) unlimited).map (fun t =>
      (attempts "id" t.log, failures "id" t.log, (t.store.jobs "id").map Job.state)) =
    some ([1, 2, 3, 4], 2, some statePending) := by
  decide +kernel

end GS
