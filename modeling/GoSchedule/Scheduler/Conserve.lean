import GoSchedule.Scheduler.System

/-!
# No job is lost, held twice or tried too often

What holds in every state of a running scheduler on a memstore, for every interleaving.

* `move_ledger`   a step keeps the ledger: the claimed records of a queue are exactly the jobs in the
  dispatcher's batch, in the channel and with the workers, each once;
* `Sized`         the batch, the channel and the workers hold at most `concurrency` jobs each;
* `Track`         the attempts of one job that were handed to a handler rise strictly, stop at
  `MaxAttempts` and are not beyond the record's own count;
* `SysInv`        all of it, kept by every step (`step_inv`);
* `run_conserves` what it says about a whole run.
-/

namespace GS
open Mem

/-- some worker is in the handler with `j` -/
def Sys.Running (s : Sys) (j : Job) : Prop := ∃ q, .running j ∈ s.workers q

/-! ## the record after a finished execution -/

theorem record_pending {call : StoreCall} {j k : Job} (h : call.record j = some k) :
    k.state = statePending ∧ k.attempt = j.attempt + 1 ∧ k.maxAttempts = j.maxAttempts ∧
      ¬ Exhausted j := by
  cases call with
  | ack id => cases h
  | fail id msg t =>
    simp only [StoreCall.record, afterFail] at h
    split at h
    · cases h
    · rename_i hx
      obtain rfl := Option.some.inj h
      exact ⟨rfl, rfl, rfl, hx⟩

/-- a worker that finishes a held job has its store call succeed -/
theorem finish_jobs {st : Mem.Store} {H : String → List Job} (l : Ledger st H) {q : String} {j : Job}
    (hj : j ∈ H q) {sc : Scheduler} {x : Outcome} {w : Worker} {d : Done}
    (hw : w.finish sc x st = some d) (job : w.job = some j) :
    d.result = none ∧ Inv d.store ∧
      d.store.jobs = Function.update st.jobs j.id (d.call.record j) := by
  obtain ⟨j', hj', hid, hstore, hres⟩ := Worker.finish_spec hw
  obtain rfl : j = j' := Option.some.inj (job.symm.trans hj')
  obtain ⟨hrec, hc, _⟩ := (l.mem q j).mp hj
  have hspec := StoreCall.apply_spec l.inv d.call (hid.symm ▸ hrec) hc
  rw [hid] at hspec
  rw [hres, hstore]
  exact hspec

/-! ## the ledger -/

theorem move_ledger {s t : Sys} {a : Label} (l : Ledger s.store s.held)
    (known : ∀ id, s.Fresh id → s.store.jobs id = none) (m : Move s a t) :
    Ledger t.store t.held := by
  cases m with
  | quiet store _ held _ =>
    rw [store]
    exact l.perm held
  | save j fresh pending inv jobs _ held _ =>
    rw [held]
    refine l.edit inv jobs (fun k hk h => ?_) (fun k hk => ?_)
    · rw [← Option.some.inj hk, pending] at h
      exact absurd h (by decide)
    · rw [known j.id fresh] at hk
      cases hk
  | edit j r old pending new inv jobs _ held _ =>
    rw [held]
    refine l.edit inv jobs (fun k hk h => ?_) (fun k hk h => ?_)
    · rw [(new k hk).1] at h
      exact absurd h (by decide)
    · rw [old] at hk
      rw [← Option.some.inj hk, pending] at h
      exact absurd h (by decide)
  | claim q now n w lu L inv batch _ held _ =>
    rw [held]
    exact l.claim inv batch
  | start q j store _ held _ _ _ _ _ =>
    rw [store]
    exact l.perm held
  | finish q i j R w x d _ _ hw job store _ old held _ _ =>
    have hj : j ∈ s.held q := old.mem_iff.mpr List.mem_cons_self
    obtain ⟨_, inv, jobs⟩ := finish_jobs l hj hw job
    rw [store]
    refine (l.release old inv jobs (fun k hk h => ?_)).perm held
    rw [(record_pending hk).1] at h
    exact absurd h (by decide)

/-! ## sizes -/

/-- a list of jobs of the queue `q` is not longer than its concurrency -/
def Fits (s : Sys) (q : String) (L : List Job) : Prop :=
  L.length ≤ (s.sched.concurrency q).getD 0

structure Sized (s : Sys) : Prop where
  batch : ∀ q, Fits s q (s.batch q)
  chan : ∀ q, Fits s q (s.chan q)
  workers : ∀ q, (s.workers q).length = (s.sched.concurrency q).getD 0

/-- a bound for all queues survives the write of one of them -/
theorem forall_update {α : Type} {P : String → α → Prop} {f : String → α} {q : String} {a : α}
    (h : ∀ q, P q (f q)) (ha : P q a) (q' : String) : P q' (Function.update f q a q') := by
  by_cases e : q' = q
  · subst e
    rwa [Function.update_self]
  · rw [Function.update_of_ne e]
    exact h q'

theorem Sized.setWorker {s : Sys} (z : Sized s) (q : String) (i : Nat) (w : Worker) :
    Sized (s.setWorker q i w) where
  batch := z.batch
  chan := z.chan
  workers := forall_update
    (P := fun q (l : List Worker) => l.length = (s.sched.concurrency q).getD 0) z.workers
    (by rw [List.length_set]; exact z.workers q)

theorem step_sized {s t : Sys} {a : Label} (v : Inv s.store) (z : Sized s)
    (h : step s a = some t) : Sized t := by
  cases a with
  | register name =>
    obtain rfl := Option.some.inj h
    exact ⟨z.batch, z.chan, z.workers⟩
  | save j =>
    obtain ⟨_, h⟩ := Option.ite_none_right_eq_some.mp h
    obtain rfl := Option.some.inj h
    exact ⟨z.batch, z.chan, z.workers⟩
  | schedule now u uuid name payload opts =>
    obtain ⟨_, h⟩ := Option.ite_none_right_eq_some.mp h
    split at h
    · obtain rfl := Option.some.inj h
      exact z
    · obtain rfl := Option.some.inj h
      exact ⟨z.batch, z.chan, z.workers⟩
  | fire spec uuid now fireAt =>
    obtain ⟨_, h⟩ := Option.ite_none_right_eq_some.mp h
    obtain rfl := Option.some.inj h
    exact ⟨z.batch, z.chan, z.workers⟩
  | cancel id =>
    obtain rfl := Option.some.inj h
    exact ⟨z.batch, z.chan, z.workers⟩
  | reschedule id u =>
    obtain rfl := Option.some.inj h
    exact ⟨z.batch, z.chan, z.workers⟩
  | claim q now =>
    simp only [step] at h
    split at h
    · rename_i c hc hb
      obtain ⟨r, hr, rfl⟩ := Option.map_eq_some_iff.mp h
      refine ⟨forall_update (P := Fits s) z.batch ?_,
        z.chan, z.workers⟩
      obtain ⟨s', L, e, _, B, _⟩ := claimDue_spec v q now (Int.natCast_nonneg c)
        s.sched.workerID (now.add s.sched.visibilityTimeout)
      rw [hr] at e
      obtain rfl := Option.some.inj e
      rw [Fits, hc, Option.getD_some, List.length_map]
      exact Int.ofNat_le.mp B.le
    · cases h
  | send q =>
    simp only [step] at h
    split at h
    · rename_i c j rest hc hb
      obtain ⟨hlt, h⟩ := Option.ite_none_right_eq_some.mp h
      obtain rfl := Option.some.inj h
      have hz := z.batch q
      rw [Fits, hb, List.length_cons] at hz
      refine ⟨forall_update (P := Fits s) z.batch
          (Nat.le_of_succ_le hz),
        forall_update (P := Fits s) z.chan ?_,
        z.workers⟩
      rw [Fits, List.length_append, hc]
      exact hlt
    · cases h
  | receive q i =>
    simp only [step] at h
    split at h
    · rename_i j rest hc _
      obtain rfl := Option.some.inj h
      have hz := z.chan q
      rw [Fits, hc, List.length_cons] at hz
      have hz' : Sized { s with chan := Function.update s.chan q rest } :=
        ⟨z.batch, forall_update (P := Fits s) z.chan (Nat.le_of_succ_le hz), z.workers⟩
      exact hz'.setWorker q i (.got j)
    · cases h
  | lookup q i =>
    simp only [step] at h
    split at h
    · rename_i j hw
      split at h
      · obtain rfl := Option.some.inj h
        have hz := z.setWorker q i (.running j)
        exact ⟨hz.batch, hz.chan, hz.workers⟩
      · obtain rfl := Option.some.inj h
        exact z.setWorker q i (.missing j)
    · cases h
  | finish q i x =>
    simp only [step] at h
    split at h
    · obtain ⟨d, _, rfl⟩ := Option.map_eq_some_iff.mp h
      have hz := z.setWorker q i .idle
      exact ⟨hz.batch, hz.chan, hz.workers⟩
    · cases h

theorem Sized.held_le {s : Sys} (z : Sized s) (q : String) :
    (s.held q).length ≤ 3 * (s.sched.concurrency q).getD 0 := by
  have h1 := z.batch q
  have h2 := z.chan q
  have h3 := z.workers q
  have h4 := List.length_filterMap_le Worker.job (s.workers q)
  unfold Fits at h1 h2
  simp only [Sys.held, List.length_append]
  omega

/-! ## the attempts of one job -/

/-- `r` is the record of a job saved with attempt `0` and limit `m`, `att` the attempts that were
handed to a handler, `busy` holds of a job that is with one -/
structure Track (m : Int64) (r : Option Job) (busy : Job → Prop) (att : List Int64) : Prop where
  rise : att.Pairwise (· < ·)
  range : ∀ a ∈ att, 0 < a ∧ a ≤ m
  limit : ∀ j, r = some j → j.maxAttempts = m ∧ 0 ≤ j.attempt ∧ j.attempt < m
  cur : ∀ j, r = some j → ∀ a ∈ att, a ≤ j.attempt ∨ a = j.attempt + 1 ∧ busy j

section
variable {m : Int64} {r : Option Job} {busy busy' : Job → Prop} {att : List Int64}

theorem Track.quiet (T : Track m r busy att) {r' : Option Job}
    (h : ∀ k, r' = some k → ∃ j, r = some j ∧ k.attempt = j.attempt ∧
      k.maxAttempts = j.maxAttempts ∧ (busy j → busy' k)) : Track m r' busy' att := by
  refine ⟨T.rise, T.range, fun k hk => ?_, fun k hk a ha => ?_⟩
  · obtain ⟨j, hj, h1, h2, _⟩ := h k hk
    rw [h1, h2]
    exact T.limit j hj
  · obtain ⟨j, hj, h1, _, h3⟩ := h k hk
    rw [h1]
    exact (T.cur j hj a ha).imp id fun h' => ⟨h'.1, h3 h'.2⟩

theorem Track.new {j : Job} (h0 : j.attempt = 0) (hm : 0 < j.maxAttempts) :
    Track j.maxAttempts (some j) busy [] := by
  refine ⟨List.Pairwise.nil, fun a ha => absurd ha List.not_mem_nil, fun k hk => ?_,
    fun k hk a ha => absurd ha List.not_mem_nil⟩
  obtain rfl := Option.some.inj hk
  rw [h0]
  exact ⟨rfl, Int64.le_refl 0, hm⟩

theorem Track.start {j : Job} (T : Track m (some j) busy att) (h : ¬ busy j) (h' : busy' j) :
    Track m (some j) busy' (att ++ [j.attempt + 1]) := by
  obtain ⟨_, h0, hm⟩ := T.limit j rfl
  have hle : ∀ a ∈ att, a ≤ j.attempt := fun a ha =>
    (T.cur j rfl a ha).resolve_right fun hb => h hb.2
  have hlt : j.attempt < j.attempt + 1 := by grind
  have hle1 : j.attempt + 1 ≤ m := by grind
  refine ⟨?_, fun a ha => ?_, T.limit, fun k hk a ha => ?_⟩
  · refine List.pairwise_append.mpr ⟨T.rise, List.pairwise_singleton _ _, fun a ha b hb => ?_⟩
    rw [List.mem_singleton.mp hb]
    exact Int64.lt_of_le_of_lt (hle a ha) hlt
  · rcases List.mem_append.mp ha with ha | ha
    · exact T.range a ha
    · rw [List.mem_singleton.mp ha]
      exact ⟨Int64.lt_of_le_of_lt h0 hlt, hle1⟩
  · obtain rfl := Option.some.inj hk
    rcases List.mem_append.mp ha with ha | ha
    · exact Or.inl (hle a ha)
    · exact Or.inr ⟨List.mem_singleton.mp ha, h'⟩

/-- after the store call nobody is with the job, and what was handed out is counted -/
theorem Track.finish {j : Job} (T : Track m (some j) busy att) (call : StoreCall) :
    Track m (call.record j) busy' att := by
  obtain ⟨hjm, h0, hm⟩ := T.limit j rfl
  refine ⟨T.rise, T.range, fun k hk => ?_, fun k hk a ha => ?_⟩
  · obtain ⟨_, h1, h2, hx⟩ := record_pending hk
    unfold Exhausted at hx
    rw [h1, h2]
    refine ⟨hjm, ?_, ?_⟩ <;> grind
  · rw [(record_pending hk).2.1]
    rcases T.cur j rfl a ha with h | h
    · exact Or.inl (by grind)
    · exact Or.inl (by rw [h.1]; exact Int64.le_refl _)

theorem length_le_of_rise {l : List Int64} {lo hi : Int} (hlo : lo ≤ hi)
    (hr : l.Pairwise (· < ·)) (h : ∀ a ∈ l, lo < a.toInt ∧ a.toInt ≤ hi) :
    (l.length : Int) ≤ hi - lo := by
  induction l generalizing lo with
  | nil =>
    simp only [List.length_nil]
    omega
  | cons a l ih =>
    obtain ⟨ha, hl⟩ := List.pairwise_cons.mp hr
    obtain ⟨h1, h2⟩ := h a List.mem_cons_self
    have h3 := ih h2 hl fun b hb =>
      ⟨Int64.lt_iff_toInt_lt.mp (ha b hb), (h b (List.mem_cons_of_mem _ hb)).2⟩
    rw [List.length_cons]
    push_cast
    omega

theorem Track.length_le (T : Track m r busy att) (hm : 0 < m) : (att.length : Int) ≤ m.toInt := by
  have h0 : (0 : Int64).toInt < m.toInt := Int64.lt_iff_toInt_lt.mp hm
  have h := length_le_of_rise (Int.le_of_lt h0) T.rise fun a ha =>
    ⟨Int64.lt_iff_toInt_lt.mp (T.range a ha).1, Int64.le_iff_toInt_le.mp (T.range a ha).2⟩
  rwa [show (0 : Int64).toInt = 0 from rfl, Int.sub_zero] at h

end

/-! ## the invariant -/

structure SysInv (s : Sys) : Prop where
  ledger : Ledger s.store s.held
  sized : Sized s
  known : ∀ id, s.Fresh id → s.store.jobs id = none
  unstarted : ∀ id, s.Fresh id → attempts id s.log = []
  track : ∀ j ∈ s.saved, j.attempt = 0 → 0 < j.maxAttempts →
    Track j.maxAttempts (s.store.jobs j.id) s.Running (attempts j.id s.log)

theorem init_inv (sc : Scheduler) : SysInv (Sys.init sc) where
  ledger := by
    refine Ledger.new.perm fun q => List.Perm.of_eq ?_
    simp [Sys.held, Sys.init, Worker.job]
  sized := ⟨fun _ => Nat.zero_le _, fun _ => Nat.zero_le _, fun _ => List.length_replicate⟩
  known := fun _ _ => rfl
  unstarted := fun _ _ => rfl
  track := fun _ h => absurd h List.not_mem_nil

section
variable {s t : Sys} {a : Label} (v : SysInv s)
include v

/-- only a claimed record is with a handler -/
theorem SysInv.not_running {j : Job} (hp : j.state = statePending) : ¬ s.Running j := by
  intro ⟨q, hr⟩
  have hc := ((v.ledger.mem q j).mp (mem_held_of_worker hr rfl)).2.1
  rw [hp] at hc
  exact absurd hc (by decide)

omit v in
theorem Frame.busy (fr : Frame s t) {j : Job} (h : s.Running j) : t.Running j :=
  h.imp fun q hq => fr.running q j hq

omit v in
theorem fresh_of_append {j : Job} (hs : t.saved = s.saved ++ [j]) {id : JobID} (h : t.Fresh id) :
    s.Fresh id ∧ id ≠ j.id := by
  unfold Sys.Fresh at *
  rw [hs, List.map_append, List.mem_append, not_or] at h
  exact ⟨h.1, fun e => h.2 (List.mem_singleton.mpr e)⟩

/-- a record stays absent under an ID that was not given out -/
theorem move_known (m : Move s a t) : ∀ id, t.Fresh id → t.store.jobs id = none := by
  intro id hf
  have hlift : t.saved = s.saved → s.store.jobs id = none := fun e =>
    v.known id (by unfold Sys.Fresh at *; rwa [e] at hf)
  -- a write to a record that exists is not a write to `id`
  have hwrite : ∀ (j : Job) (r : Option Job), t.saved = s.saved → s.store.jobs j.id = some j →
      t.store.jobs = Function.update s.store.jobs j.id r → t.store.jobs id = none := by
    intro j r hs hj e
    have hne : id ≠ j.id := fun h => by
      have h1 := hlift hs
      rw [h, hj] at h1
      cases h1
    rw [e, Function.update_of_ne hne]
    exact hlift hs
  cases m with
  | quiet store saved _ _ =>
    rw [store]
    exact hlift saved
  | save j _ _ _ jobs saved _ _ =>
    obtain ⟨h1, h2⟩ := fresh_of_append saved hf
    rw [jobs, Function.update_of_ne h2]
    exact v.known id h1
  | edit j r old _ _ _ jobs saved _ _ => exact hwrite j r saved old jobs
  | claim q now n w lu L _ batch saved _ _ =>
    rw [batch.eq_out id fun j hj e => ?_]
    · exact hlift saved
    · have h1 := hlift saved
      rw [← e, (batch.mem j hj).1] at h1
      cases h1
  | start q j store saved _ _ _ _ _ _ =>
    rw [store]
    exact hlift saved
  | finish q i j R w x d _ _ hw job store saved old _ _ _ =>
    have hj : j ∈ s.held q := old.mem_iff.mpr List.mem_cons_self
    obtain ⟨_, _, jobs⟩ := finish_jobs v.ledger hj hw job
    exact hwrite j _ saved ((v.ledger.mem q j).mp hj).1 (store ▸ jobs)

/-- nothing is started under an ID that was not given out -/
theorem move_unstarted (m : Move s a t) : ∀ id, t.Fresh id → attempts id t.log = [] := by
  intro id hf
  have hlift : t.saved = s.saved → s.Fresh id := fun e => by unfold Sys.Fresh at *; rwa [e] at hf
  cases m with
  | quiet _ saved _ fr => exact (fr.attempts id).trans (v.unstarted id (hlift saved))
  | save j _ _ _ _ saved _ fr =>
    exact (fr.attempts id).trans (v.unstarted id (fresh_of_append saved hf).1)
  | edit _ _ _ _ _ _ _ saved _ fr => exact (fr.attempts id).trans (v.unstarted id (hlift saved))
  | claim _ _ _ _ _ _ _ _ saved _ fr =>
    exact (fr.attempts id).trans (v.unstarted id (hlift saved))
  | start q j _ saved _ mem _ _ _ log =>
    have hne : j.id ≠ id := fun e => by
      have h1 := v.known id (hlift saved)
      rw [← e, ((v.ledger.mem q j).mp mem).1] at h1
      cases h1
    rw [log, attempts_append, v.unstarted id (hlift saved)]
    simp [attempts, hne]
  | finish q i j R w x d _ _ hw _ _ saved _ _ _ log =>
    rw [log, attempts_append, v.unstarted id (hlift saved), attempts_finish hw]
    rfl

theorem move_track (m : Move s a t) : ∀ j ∈ t.saved, j.attempt = 0 → 0 < j.maxAttempts →
    Track j.maxAttempts (t.store.jobs j.id) t.Running (attempts j.id t.log) := by
  intro k hk h0 hm
  have hT : t.saved = s.saved → Track k.maxAttempts (s.store.jobs k.id) s.Running
      (attempts k.id s.log) := fun e => v.track k (e ▸ hk) h0 hm
  cases m with
  | quiet store saved _ fr =>
    rw [store, fr.attempts]
    exact (hT saved).quiet fun i hi => ⟨i, hi, rfl, rfl, fr.busy⟩
  | save j fresh _ _ jobs saved _ fr =>
    rw [fr.attempts, jobs]
    rw [saved] at hk
    rcases List.mem_append.mp hk with hk | hk
    · have hne : k.id ≠ j.id := fun e => fresh (List.mem_map.mpr ⟨k, hk, e⟩)
      rw [Function.update_of_ne hne]
      exact (v.track k hk h0 hm).quiet fun i hi => ⟨i, hi, rfl, rfl, fr.busy⟩
    · obtain rfl := List.mem_singleton.mp hk
      rw [Function.update_self, v.unstarted k.id fresh]
      exact Track.new h0 hm
  | edit j r old pending new _ jobs saved _ fr =>
    rw [fr.attempts, jobs]
    by_cases e : k.id = j.id
    · rw [e, Function.update_self]
      refine (e ▸ hT saved).quiet fun i hi => ⟨j, old, (new i hi).2.1, (new i hi).2.2, fun h => ?_⟩
      exact absurd h (v.not_running pending)
    · rw [Function.update_of_ne e]
      exact (hT saved).quiet fun i hi => ⟨i, hi, rfl, rfl, fr.busy⟩
  | claim q now n w lu L _ batch saved _ fr =>
    rw [fr.attempts]
    refine (hT saved).quiet fun i hi => ?_
    by_cases e : ∃ j ∈ L, j.id = k.id
    · obtain ⟨j, hj, e⟩ := e
      obtain ⟨hrec, hpend, _⟩ := batch.mem j hj
      have h1 := batch.eq_in j hj
      rw [e, hi] at h1
      obtain rfl := Option.some.inj h1
      exact ⟨j, e ▸ hrec, rfl, rfl, fun h => absurd h (v.not_running hpend)⟩
    · rw [batch.eq_out k.id fun j hj h => e ⟨j, hj, h⟩] at hi
      exact ⟨i, hi, rfl, rfl, fr.busy⟩
  | start q j store saved _ mem idle self running log =>
    have hrec := ((v.ledger.mem q j).mp mem).1
    rw [store, log, attempts_append]
    by_cases e : k.id = j.id
    · have hT' := hT saved
      rw [e, hrec] at hT'
      rw [e, hrec]
      have hstart : attempts j.id [.start j.id j.name j.queue (j.attempt + 1)] =
          [j.attempt + 1] := by simp [attempts]
      rw [hstart]
      exact hT'.start (not_exists.mpr idle) ⟨q, self⟩
    · have hother : attempts k.id [.start j.id j.name j.queue (j.attempt + 1)] = [] := by
        simp [attempts, Ne.symm e]
      rw [hother, List.append_nil]
      exact (hT saved).quiet fun i hi => ⟨i, hi, rfl, rfl, Exists.imp fun q' h => running q' i h⟩
  | finish q i j R w x d _ _ hw job store saved old _ running log =>
    have hj : j ∈ s.held q := old.mem_iff.mpr List.mem_cons_self
    have hrec := ((v.ledger.mem q j).mp hj).1
    obtain ⟨_, _, jobs⟩ := finish_jobs v.ledger hj hw job
    rw [log, attempts_append, attempts_finish hw, List.append_nil, store, jobs]
    by_cases e : k.id = j.id
    · have hT' := hT saved
      rw [e, hrec] at hT'
      rw [e, Function.update_self]
      exact hT'.finish d.call
    · rw [Function.update_of_ne e]
      refine (hT saved).quiet fun i hi => ⟨i, hi, rfl, rfl, Exists.imp fun q' h => ?_⟩
      refine running q' i h fun hij => e ?_
      rw [← hij]
      exact (v.ledger.inv.jobs_id hi).symm

/-- **Every step keeps the invariant.** -/
theorem step_inv (h : step s a = some t) : SysInv t := by
  have m := step_move v.ledger h
  exact ⟨move_ledger v.ledger v.known m, step_sized v.ledger.inv v.sized h, move_known v m,
    move_unstarted v m, move_track v m⟩

end

theorem run_inv {sc : Scheduler} {l : List Label} {t : Sys}
    (h : Trans.run step (Sys.init sc) l = some t) : SysInv t :=
  Trans.run_keep (P := SysInv) (fun _ _ _ v h => step_inv v h) (init_inv sc) h

/-! ## what it says about a run -/

/-- the claimed records of every queue are held exactly once between the dispatcher, the channel and
the workers, they are at most three times the concurrency, and a job saved with attempt `0` and a
limit is handed out with rising attempts, at most as often as the limit says -/
structure Conserved (s : Sys) : Prop where
  once : ∀ q, (s.batch q ++ (s.chan q ++ (s.workers q).filterMap Worker.job)).Nodup
  exact : ∀ q j, j ∈ s.batch q ++ (s.chan q ++ (s.workers q).filterMap Worker.job) ↔
    s.store.Claimed q j
  bound : ∀ q (L : List Job), L.Nodup → (∀ j ∈ L, s.store.Claimed q j) →
    L.length ≤ 3 * (s.sched.concurrency q).getD 0
  tries : ∀ j ∈ s.saved, j.attempt = 0 → 0 < j.maxAttempts →
    ((attempts j.id s.log).length : Int) ≤ j.maxAttempts.toInt ∧
      (attempts j.id s.log).Pairwise (· < ·)

/-- **Every state of every run is conserved.** -/
theorem run_conserves (sc : Scheduler) (l : List Label) {t : Sys}
    (h : Trans.run step (Sys.init sc) l = some t) : Conserved t := by
  have v := run_inv h
  refine ⟨v.ledger.nodup, v.ledger.mem, fun q L hL hc => ?_, fun j hj h0 hm => ?_⟩
  · have hsub : L ⊆ t.held q := fun j hj => (v.ledger.mem q j).mpr (hc j hj)
    exact le_trans (List.subperm_of_subset hL hsub).length_le (v.sized.held_le q)
  · have T := v.track j hj h0 hm
    exact ⟨T.length_le hm, T.rise⟩

/-- a job that fails once and then succeeds -/
def retryRun : List Label :=
  [.schedule 0 0 "id" "job" [] [], .claim "default" 0, .send "default", .receive "default" 0,
    .lookup "default" 0, .finish "default" 0 ⟨.error "boom", 0, 0, 0⟩, .claim "default" 0,
    .send "default", .receive "default" 0, .lookup "default" 0]

theorem run_conserves_retry : ∃ t, Trans.run step (Sys.init oneHandler) retryRun = some t ∧
    attempts "id" t.log = [1, 2] ∧ Conserved t :=
  ⟨_, rfl, by decide, run_conserves oneHandler retryRun rfl⟩

end GS
