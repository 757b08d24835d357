import GoSchedule.Lib.Progress
import GoSchedule.MemStore.Map
import GoSchedule.Scheduler.Conserve

/-!
# A queue with a worker can be drained

No state of a running scheduler is a dead end: whatever the goroutines have done so far, those of a
queue can go on until no job of it is left.

* `Label.Of q`     a move of the dispatcher or of a worker of the queue `q`;
* `Sys.work s q`   a bound for the moves that are left: a job gives up one unit with each place that it
  leaves on its way from the store over the dispatcher, the channel and the worker to `Ack`;
* `Served q`       the scheduler's invariant, a worker for `q`, and a handler for each of its jobs;
* `progress`       while there is work, one of these goroutines has a move that lowers it;
* `drains_iff`     **the queue can be drained, by its own goroutines, exactly if it has a worker or
  nothing is in it**.
-/

namespace GS
open Mem Trans Slots

def Label.Of (q : String) : Label → Prop
  | .claim q' _ => q' = q
  | .send q' => q' = q
  | .receive q' _ => q' = q
  | .lookup q' _ => q' = q
  | .finish q' _ _ => q' = q
  | _ => False

/-- a worker without a handler puts its job back into the store -/
def Worker.weight : Worker → Nat
  | .idle => 0
  | .running _ => 1
  | .got _ => 2
  | .missing _ => 6

def Sys.work (s : Sys) (q : String) : Nat :=
  5 * s.store.queueSize q + 4 * (s.batch q).length + 3 * (s.chan q).length +
    ((s.workers q).map Worker.weight).sum

/-- a goroutine of the queue has a move that lowers the work -/
def Advances (q : String) (s : Sys) : Prop :=
  ∃ a t, Label.Of q a ∧ step s a = some t ∧ t.work q < s.work q

/-- no job of the queue is stored -/
def Sys.Drained (s : Sys) (q : String) : Prop := ∀ id j, s.store.jobs id = some j → j.queue ≠ q

/-! ## the records under the moves of a queue -/

section
variable {s t : Sys} {q : String} {a : Label}

theorem record_kept {call : StoreCall} {j k : Job} (h : call.record j = some k) :
    k.name = j.name ∧ k.queue = j.queue := by
  cases call with
  | ack id => cases h
  | fail id msg t =>
    simp only [StoreCall.record, afterFail] at h
    split at h
    · cases h
    · obtain rfl := Option.some.inj h
      exact ⟨rfl, rfl⟩

/-- the record of a job after a move is the one before it, with another state -/
structure Follows (k j : Job) : Prop where
  name : k.name = j.name
  queue : k.queue = j.queue
  live : k.state = j.state ∨ k.state = statePending ∨ k.state = stateClaimed

theorem Follows.refl (j : Job) : Follows j j := ⟨rfl, rfl, Or.inl rfl⟩

theorem claim_follows (v : Inv s.store) {now : Time} (h : step s (.claim q now) = some t) :
    t.sched = s.sched ∧ ∀ id k, t.store.jobs id = some k →
      ∃ j, s.store.jobs id = some j ∧ Follows k j := by
  simp only [step] at h
  split at h
  · rename_i c _ _
    obtain ⟨r, hr, rfl⟩ := Option.map_eq_some_iff.mp h
    obtain ⟨st, L, e, _, B, _⟩ := claimDue_spec v q now (Int.natCast_nonneg c) s.sched.workerID
      (now.add s.sched.visibilityTimeout)
    rw [hr] at e
    obtain rfl := Option.some.inj e
    refine ⟨rfl, fun id k hk => ?_⟩
    by_cases hL : ∃ j ∈ L, j.id = id
    · obtain ⟨j, hj, rfl⟩ := hL
      have h1 := B.eq_in j hj
      rw [hk] at h1
      obtain rfl := Option.some.inj h1
      exact ⟨j, (B.mem j hj).1, rfl, rfl, Or.inr (Or.inr rfl)⟩
    · have h1 := B.eq_out id fun j hj e => hL ⟨j, hj, e⟩
      exact ⟨k, h1 ▸ hk, Follows.refl k⟩
  · cases h

theorem finish_follows (l : Ledger s.store s.held) {i : Nat} {x : Outcome}
    (h : step s (.finish q i x) = some t) :
    t.sched = s.sched ∧ ∀ id k, t.store.jobs id = some k →
      ∃ j, s.store.jobs id = some j ∧ Follows k j := by
  simp only [step] at h
  split at h
  · rename_i w hw
    obtain ⟨d, hd, rfl⟩ := Option.map_eq_some_iff.mp h
    refine ⟨rfl, fun id k hk => ?_⟩
    obtain ⟨j, hj, _⟩ := Worker.finish_spec hd
    have hheld := mem_held_of_worker (List.mem_of_getElem? hw) hj
    obtain ⟨_, _, jobs⟩ := finish_jobs l hheld hd hj
    replace hk : d.store.jobs id = some k := hk
    rw [jobs] at hk
    by_cases e : id = j.id
    · subst e
      rw [Function.update_self] at hk
      obtain ⟨h1, h2⟩ := record_kept hk
      exact ⟨j, ((l.mem q j).mp hheld).1, h1, h2, Or.inr (Or.inl (record_pending hk).1)⟩
    · rw [Function.update_of_ne e] at hk
      exact ⟨k, hk, Follows.refl k⟩
  · cases h

/-- **The goroutines of a queue add no job, and keep the names and the queues.** -/
theorem step_follows (l : Ledger s.store s.held) (ha : a.Of q) (h : step s a = some t) :
    t.sched = s.sched ∧ ∀ id k, t.store.jobs id = some k →
      ∃ j, s.store.jobs id = some j ∧ Follows k j := by
  have hsame : t.store = s.store → ∀ id k, t.store.jobs id = some k →
      ∃ j, s.store.jobs id = some j ∧ Follows k j := fun e id k hk =>
    ⟨k, e ▸ hk, Follows.refl k⟩
  cases a with
  | register | save | schedule | fire | cancel | reschedule => exact absurd ha id
  | claim q' now =>
    obtain rfl : q' = q := ha
    exact claim_follows l.inv h
  | send q' =>
    simp only [step] at h
    split at h
    · obtain ⟨_, h⟩ := Option.ite_none_right_eq_some.mp h
      obtain rfl := Option.some.inj h
      exact ⟨rfl, hsame rfl⟩
    · cases h
  | receive q' i =>
    simp only [step] at h
    split at h
    · obtain rfl := Option.some.inj h
      exact ⟨rfl, hsame rfl⟩
    · cases h
  | lookup q' i =>
    simp only [step] at h
    split at h
    · split at h
      · obtain rfl := Option.some.inj h
        exact ⟨rfl, hsame rfl⟩
      · obtain rfl := Option.some.inj h
        exact ⟨rfl, hsame rfl⟩
    · cases h
  | finish q' i x =>
    obtain rfl : q' = q := ha
    exact finish_follows l h

end

/-! ## the number of pending jobs -/

section
variable {s s' : Mem.Store} (v : Mem.Inv s) (v' : Mem.Inv s') (q : String)
include v v'

theorem queueSize_le_of_subset {A : Finset Job} (h : JobMap.pending s'.jobs q ⊆
    JobMap.pending s.jobs q ∪ A) : s'.queueSize q ≤ s.queueSize q + A.card := by
  have h1 := Set.encard_le_encard h
  rw [encard_pending v'] at h1
  have h2 := h1.trans (Set.encard_union_le _ _)
  rw [encard_pending v, Set.encard_coe_eq_coe_finsetCard] at h2
  exact_mod_cast h2

/-- one record is written -/
theorem queueSize_update {id : JobID} {r : Option Job}
    (h : s'.jobs = Function.update s.jobs id r) :
    s'.queueSize q ≤ s.queueSize q + r.toList.length := by
  have hsub : JobMap.pending s'.jobs q ⊆ JobMap.pending s.jobs q ∪ (r.toFinset : Set Job) := by
    intro j hj
    obtain ⟨h1, h2, h3⟩ := hj
    rw [h] at h1
    by_cases e : j.id = id
    · rw [e, Function.update_self] at h1
      exact Or.inr (by simp [h1])
    · rw [Function.update_of_ne e] at h1
      exact Or.inl ⟨h1, h2, h3⟩
  have hle := queueSize_le_of_subset v v' q hsub
  cases r with
  | none => exact hle
  | some k => exact hle

/-- what a claim takes is not pending any more -/
theorem queueSize_batch {now : Time} {n : Int} {w : String} {lu : Time} {L : List Job}
    (B : Batch s.jobs q now n w lu L s'.jobs) : s'.queueSize q + L.length ≤ s.queueSize q := by
  have hin : ∀ j ∈ L, j ∈ JobMap.pending s.jobs q := fun j hj =>
    ⟨(B.mem j hj).1, (B.mem j hj).2.1, (B.mem j hj).2.2.1⟩
  -- a record that is pending after the claim was not taken
  have hout : ∀ j ∈ JobMap.pending s'.jobs q, (∀ k ∈ L, k.id ≠ j.id) ∧
      j ∈ JobMap.pending s.jobs q := by
    intro j ⟨h1, h2, h3⟩
    have hne : ∀ k ∈ L, k.id ≠ j.id := by
      intro k hk e
      have h4 := B.eq_in k hk
      rw [e, h1] at h4
      rw [Option.some.inj h4] at h2
      exact absurd (show stateClaimed = statePending from h2) (by decide)
    exact ⟨hne, B.eq_out j.id hne ▸ h1, h2, h3⟩
  have hdis : Disjoint (JobMap.pending s'.jobs q) (L.toFinset : Set Job) := by
    refine Set.disjoint_left.mpr fun j hj hL => ?_
    exact (hout j hj).1 j (List.mem_toFinset.mp hL) rfl
  have hsub : JobMap.pending s'.jobs q ∪ (L.toFinset : Set Job) ⊆ JobMap.pending s.jobs q := by
    intro j hj
    rcases hj with hj | hj
    · exact (hout j hj).2
    · exact hin j (List.mem_toFinset.mp hj)
  have h1 := Set.encard_le_encard hsub
  rw [Set.encard_union_eq hdis, encard_pending v, encard_pending v',
    Set.encard_coe_eq_coe_finsetCard, List.toFinset_card_of_nodup (List.Nodup.of_map _ B.nodup)] at h1
  exact_mod_cast h1

end

/-! ## progress -/

structure Served (q : String) (s : Sys) : Prop where
  inv : SysInv s
  live : ∀ id j, s.store.jobs id = some j → j.state = statePending ∨ j.state = stateClaimed
  registered : ∀ id j, s.store.jobs id = some j → j.queue = q → s.sched.isRegistered j.name = true
  workers : 1 ≤ (s.sched.concurrency q).getD 0

section
variable {s t : Sys} {q : String} {a : Label} (S : Served q s)
include S

theorem Served.step (ha : a.Of q) (h : step s a = some t) : Served q t := by
  obtain ⟨hsched, hjobs⟩ := step_follows S.inv.ledger ha h
  refine ⟨step_inv S.inv h, fun id k hk => ?_, fun id k hk hq => ?_, ?_⟩
  · obtain ⟨j, hj, F⟩ := hjobs id k hk
    rcases F.live with e | e
    · rw [e]
      exact S.live id j hj
    · exact e
  · obtain ⟨j, hj, F⟩ := hjobs id k hk
    rw [hsched, F.name]
    exact S.registered id j hj (F.queue ▸ hq)
  · rw [hsched]
    exact S.workers

theorem Served.concurrency : ∃ c, s.sched.concurrency q = some c ∧ 1 ≤ c := by
  have h := S.workers
  cases hc : s.sched.concurrency q with
  | none =>
    rw [hc] at h
    exact absurd h (by simp)
  | some c =>
    rw [hc] at h
    exact ⟨c, rfl, h⟩

omit S in
theorem work_setWorker {i : Nat} {w : Worker} (hw : (s.workers q)[i]? = some w) (w' : Worker) :
    (((s.setWorker q i w').workers q).map Worker.weight).sum + w.weight =
      ((s.workers q).map Worker.weight).sum + w'.weight := by
  rw [workers_setWorker_self]
  exact sum_set Worker.weight hw w'

/-- a worker with a job looks its handler up, which is there -/
theorem progress_lookup {i : Nat} {j : Job} (hw : (s.workers q)[i]? = some (.got j)) :
    Advances q s := by
  obtain ⟨hj, _, hq⟩ :=
    (S.inv.ledger.mem q j).mp (mem_held_of_worker (List.mem_of_getElem? hw) rfl)
  have hreg := S.registered j.id j hj hq
  have hstep : GS.step s (.lookup q i) = some { s.setWorker q i (.running j) with
      log := s.log ++ [.start j.id j.name j.queue (j.attempt + 1)] } := by
    simp only [GS.step, hw, hreg]
    rfl
  refine ⟨.lookup q i, _, rfl, hstep, ?_⟩
  have hsum := work_setWorker hw (.running j)
  rw [show Worker.weight (.got j) = 2 from rfl, show Worker.weight (.running j) = 1 from rfl] at hsum
  show 5 * s.store.queueSize q + 4 * (s.batch q).length + 3 * (s.chan q).length +
    (((s.setWorker q i (.running j)).workers q).map Worker.weight).sum < _
  unfold Sys.work
  omega

/-- a worker that ends its execution gives up its weight, less what the job counts in the store -/
theorem progress_finish {i : Nat} {w : Worker} {j : Job} {x : Outcome} {d : Done}
    (hw : (s.workers q)[i]? = some w) (hj : w.job = some j)
    (hd : w.finish s.sched x s.store = some d)
    (hlt : 5 * (d.call.record j).toList.length < w.weight) :
    Advances q s := by
  have hheld := mem_held_of_worker (List.mem_of_getElem? hw) hj
  obtain ⟨_, inv, jobs⟩ := finish_jobs S.inv.ledger hheld hd hj
  have hstep : GS.step s (.finish q i x) = some
      { s.setWorker q i .idle with store := d.store, log := s.log ++ d.events } := by
    simp only [GS.step, hw, hd]
    rfl
  refine ⟨.finish q i x, _, rfl, hstep, ?_⟩
  have hsum := work_setWorker hw .idle
  have hle := queueSize_update S.inv.ledger.inv inv q jobs
  rw [show Worker.weight .idle = 0 from rfl] at hsum
  show 5 * d.store.queueSize q + 4 * (s.batch q).length + 3 * (s.chan q).length +
    (((s.setWorker q i .idle).workers q).map Worker.weight).sum < _
  unfold Sys.work
  omega

/-- a worker that is not idle has a move -/
theorem progress_worker {i : Nat} {w : Worker} (hw : (s.workers q)[i]? = some w) (hne : w ≠ .idle) :
    Advances q s := by
  cases w with
  | idle => exact absurd rfl hne
  | got j => exact progress_lookup S hw
  | running j =>
    -- the handler succeeds, and `Ack` removes the job
    exact progress_finish S (x := ⟨.ok, 0, 0, 0⟩) hw rfl rfl Nat.zero_lt_one
  | missing j =>
    have hone : ∀ o : Option Job, o.toList.length ≤ 1 := fun o => by cases o <;> simp
    refine progress_finish S (x := ⟨.ok, 0, 0, 0⟩) hw rfl rfl ?_
    have h := hone ((noHandler ⟨.ok, 0, 0, 0⟩ j s.store).call.record j)
    show 5 * _ < 6
    omega

/-- while all workers are idle, the channel and then the dispatcher's batch can move on -/
theorem progress_pass (hidle : ∀ w ∈ s.workers q, w = .idle) (h : s.chan q ≠ [] ∨ s.batch q ≠ []) :
    Advances q s := by
  obtain ⟨c, hc, h1⟩ := S.concurrency
  cases hch : s.chan q with
  | cons j rest =>
    have hlen := S.inv.sized.workers q
    rw [hc, Option.getD_some] at hlen
    have h0 : (s.workers q)[0]? = some .idle := by
      rw [List.getElem?_eq_getElem (by omega), hidle _ (List.getElem_mem _)]
    have hstep : GS.step s (.receive q 0) = some
        ({ s with chan := Function.update s.chan q rest }.setWorker q 0 (.got j)) := by
      simp only [GS.step, hch, h0]
    refine ⟨.receive q 0, _, rfl, hstep, ?_⟩
    have hsum := work_setWorker h0 (.got j)
    rw [show Worker.weight .idle = 0 from rfl, show Worker.weight (.got j) = 2 from rfl] at hsum
    show 5 * s.store.queueSize q + 4 * (s.batch q).length +
      3 * (Function.update s.chan q rest q).length +
      (((s.setWorker q 0 (.got j)).workers q).map Worker.weight).sum < _
    unfold Sys.work
    rw [Function.update_self, hch, List.length_cons]
    omega
  | nil =>
    obtain ⟨j, rest, hb⟩ := List.exists_cons_of_ne_nil (h.resolve_left (not_not.mpr hch))
    have hstep : GS.step s (.send q) = some { s with
        batch := Function.update s.batch q rest,
        chan := Function.update s.chan q (s.chan q ++ [j]) } := by
      simp only [GS.step, hc, hb, hch]
      exact if_pos h1
    refine ⟨.send q, _, rfl, hstep, ?_⟩
    show 5 * s.store.queueSize q + 4 * (Function.update s.batch q rest q).length +
      3 * (Function.update s.chan q (s.chan q ++ [j]) q).length +
      ((s.workers q).map Worker.weight).sum < _
    unfold Sys.work
    rw [Function.update_self, Function.update_self, hb, hch]
    simp only [List.length_cons, List.nil_append, List.length_nil]
    omega

/-- pending jobs can be claimed, once the last of them is due -/
theorem progress_claim (hb : s.batch q = []) (hpos : 0 < s.store.queueSize q) :
    Advances q s := by
  obtain ⟨c, hc, h1⟩ := S.concurrency
  have v := S.inv.ledger.inv
  obtain ⟨now, hnow⟩ :=
    ((s.store.heap q).items.map fun r => (s.store.mem r).job.runAt).toFinset.exists_le
  have hdue : ∀ j, s.store.jobs j.id = some j → j.state = statePending → j.queue = q →
      j.runAt ≤ now := by
    intro j hj hp hq
    obtain ⟨r, hr, rfl⟩ := v.exists_item hj hp hq
    exact hnow _ (List.mem_toFinset.mpr (List.mem_map.mpr ⟨r, hr, rfl⟩))
  obtain ⟨st, L, e, inv, B, _⟩ := claimDue_spec v q now (Int.natCast_nonneg c) s.sched.workerID
    (now.add s.sched.visibilityTimeout)
  -- something is claimed: the batch is full, or it has all pending jobs
  have hL : 0 < L.length := by
    rcases B.stop with h | h | ⟨b, h1, h2, h3, h4, _⟩
    · omega
    · obtain ⟨r, hr⟩ := List.exists_mem_of_length_pos (queueSize_eq s.store q ▸ hpos)
      obtain ⟨hid, hp, hq⟩ := v.item hr
      exact List.length_pos_of_mem (h _ (jobs_eq_some.mpr ⟨r, hid, rfl⟩) hp hq)
    · exact absurd h4 (not_lt.mpr (hdue b h1 h2 h3))
  have hstep : GS.step s (.claim q now) = some { s with
      store := st,
      batch := Function.update s.batch q (L.map (Store.markClaimed now s.sched.workerID
        (now.add s.sched.visibilityTimeout))) } := by
    simp only [GS.step, hc, hb, e]
    rfl
  refine ⟨.claim q now, _, rfl, hstep, ?_⟩
  have hle := queueSize_batch v inv q B
  show 5 * st.queueSize q + 4 * (Function.update s.batch q (L.map (Store.markClaimed now
    s.sched.workerID (now.add s.sched.visibilityTimeout))) q).length + 3 * (s.chan q).length +
    ((s.workers q).map Worker.weight).sum < _
  unfold Sys.work
  rw [Function.update_self, List.length_map, hb, List.length_nil]
  omega

/-- **While there is work, one of the goroutines has a move that lowers it.** -/
theorem progress (hpos : 0 < s.work q) :
    ∃ a t, Label.Of q a ∧ GS.step s a = some t ∧ Served q t ∧ t.work q < s.work q := by
  have hmove : Advances q s := by
    by_cases hidle : ∀ w ∈ s.workers q, w = .idle
    · by_cases hpass : s.chan q ≠ [] ∨ s.batch q ≠ []
      · exact progress_pass S hidle hpass
      · rw [not_or, not_not, not_not] at hpass
        refine progress_claim S hpass.2 ?_
        have hsum : ((s.workers q).map Worker.weight).sum = 0 := by
          refine List.sum_eq_zero fun n hn => ?_
          obtain ⟨w, hw, rfl⟩ := List.mem_map.mp hn
          rw [hidle w hw]
          rfl
        unfold Sys.work at hpos
        rw [hpass.1, hpass.2, hsum, List.length_nil] at hpos
        omega
    · obtain ⟨w, hne⟩ := not_forall.mp hidle
      obtain ⟨hw, hne⟩ := Classical.not_imp.mp hne
      obtain ⟨i, hi⟩ := List.getElem?_of_mem hw
      exact progress_worker S hi hne
  obtain ⟨a, t, ha, ht, hlt⟩ := hmove
  exact ⟨a, t, ha, ht, S.step ha ht, hlt⟩

/-- without work, no job of the queue is stored -/
theorem Served.drained (h0 : s.work q = 0) : s.Drained q := by
  unfold Sys.work at h0
  intro id j hj hq
  have hid : j.id = id := S.inv.ledger.inv.jobs_id hj
  subst hid
  rcases S.live _ j hj with hp | hc
  · obtain ⟨r, hr, _⟩ := S.inv.ledger.inv.exists_item hj hp hq
    have := List.length_pos_of_mem hr
    rw [← queueSize_eq] at this
    omega
  · have hheld : j ∈ s.held q := (S.inv.ledger.mem q j).mpr ⟨hj, hc, hq⟩
    rcases List.mem_append.mp hheld with h | h
    · have := List.length_pos_of_mem h
      omega
    · rcases List.mem_append.mp h with h | h
      · have := List.length_pos_of_mem h
        omega
      · obtain ⟨w, hw, hjob⟩ := List.mem_filterMap.mp h
        have hle : w.weight ≤ ((s.workers q).map Worker.weight).sum :=
          List.single_le_sum (by simp) _ (List.mem_map.mpr ⟨w, hw, rfl⟩)
        have hpos : 0 < w.weight := by
          cases w with
          | idle => cases hjob
          | got => exact Nat.zero_lt_two
          | running => exact Nat.zero_lt_one
          | missing => exact Nat.succ_pos 5
        omega

end

/-! ## every reachable state -/

/-- the records of a running scheduler are pending or claimed -/
theorem step_live {s t : Sys} {a : Label} (v : SysInv s)
    (hlive : ∀ id j, s.store.jobs id = some j → j.state = statePending ∨ j.state = stateClaimed)
    (h : step s a = some t) :
    ∀ id j, t.store.jobs id = some j → j.state = statePending ∨ j.state = stateClaimed := by
  have hwrite : ∀ (i : JobID) (r : Option Job), (∀ k, r = some k → k.state = statePending) →
      t.store.jobs = Function.update s.store.jobs i r →
      ∀ id j, t.store.jobs id = some j → j.state = statePending ∨ j.state = stateClaimed := by
    intro i r hr e id j hj
    rw [e] at hj
    by_cases hi : id = i
    · rw [hi, Function.update_self] at hj
      exact Or.inl (hr j hj)
    · rw [Function.update_of_ne hi] at hj
      exact hlive id j hj
  cases step_move v.ledger h with
  | quiet store => rw [store]; exact hlive
  | start _ _ store => rw [store]; exact hlive
  | save j _ pending _ jobs =>
    exact hwrite _ _ (fun k hk => Option.some.inj hk ▸ pending) jobs
  | edit j r _ _ new _ jobs => exact hwrite _ _ (fun k hk => (new k hk).1) jobs
  | claim q now n w lu L _ B =>
    intro id j hj
    by_cases hL : ∃ k ∈ L, k.id = id
    · obtain ⟨k, hk, rfl⟩ := hL
      rw [B.eq_in k hk] at hj
      rw [← Option.some.inj hj]
      exact Or.inr rfl
    · rw [B.eq_out id fun k hk e => hL ⟨k, hk, e⟩] at hj
      exact hlive id j hj
  | finish q i j R w x d _ _ hw job store _ old =>
    have hheld : j ∈ s.held q := old.mem_iff.mpr List.mem_cons_self
    obtain ⟨_, _, jobs⟩ := finish_jobs v.ledger hheld hw job
    exact hwrite _ _ (fun k hk => (record_pending hk).1) (store ▸ jobs)

theorem run_live {sc : Scheduler} {l : List Label} {s : Sys} (h : run step (Sys.init sc) l = some s) :
    SysInv s ∧ ∀ id j, s.store.jobs id = some j → j.state = statePending ∨ j.state = stateClaimed :=
  run_keep (P := fun s => SysInv s ∧ ∀ id j, s.store.jobs id = some j →
    j.state = statePending ∨ j.state = stateClaimed)
    (fun _ _ _ v h => ⟨step_inv v.1 h, step_live v.1 v.2 h⟩)
    ⟨init_inv sc, fun _ _ h => by cases h⟩ h

/-- the goroutines of a queue without a worker do not change the store -/
theorem unserved_step {s t : Sys} {q : String} {a : Label} (v : SysInv s)
    (h0 : (s.sched.concurrency q).getD 0 = 0) (ha : a.Of q) (h : step s a = some t) :
    t.sched = s.sched ∧ t.store.jobs = s.store.jobs := by
  refine ⟨(step_follows v.ledger ha h).1, ?_⟩
  have hworkers : s.workers q = [] := List.eq_nil_of_length_eq_zero ((v.sized.workers q).trans h0)
  cases a with
  | register | save | schedule | fire | cancel | reschedule => exact absurd ha id
  | claim q' now =>
    obtain rfl : q' = q := ha
    simp only [step] at h
    split at h
    · rename_i c hc _
      obtain ⟨r, hr, rfl⟩ := Option.map_eq_some_iff.mp h
      obtain ⟨st, L, e, _, B, _⟩ := claimDue_spec v.ledger.inv q' now (Int.natCast_nonneg c)
        s.sched.workerID (now.add s.sched.visibilityTimeout)
      rw [hr] at e
      obtain rfl := Option.some.inj e
      rw [hc, Option.getD_some] at h0
      have hL : L = [] := List.eq_nil_of_length_eq_zero (by have := B.le; omega)
      funext id
      exact B.eq_out id fun j hj => absurd hj (by rw [hL]; exact List.not_mem_nil)
    · cases h
  | send q' =>
    simp only [step] at h
    split at h
    · obtain ⟨_, h⟩ := Option.ite_none_right_eq_some.mp h
      rw [← Option.some.inj h]
    · cases h
  | receive q' i =>
    simp only [step] at h
    split at h
    · rw [← Option.some.inj h]
      rfl
    · cases h
  | lookup q' i =>
    obtain rfl : q' = q := ha
    simp [step, hworkers] at h
  | finish q' i x =>
    obtain rfl : q' = q := ha
    simp [step, hworkers] at h

theorem unserved_run {s t : Sys} {q : String} {l : List Label} (v : SysInv s)
    (h0 : (s.sched.concurrency q).getD 0 = 0) (hl : ∀ a ∈ l, a.Of q)
    (h : run step s l = some t) : t.store.jobs = s.store.jobs := by
  induction l generalizing s with
  | nil => rw [← Option.some.inj h]
  | cons a l ih =>
    obtain ⟨u, hu, h⟩ := run_cons.mp h
    obtain ⟨h1, h2⟩ := unserved_step v h0 (hl a List.mem_cons_self) hu
    rw [← h2]
    exact ih (step_inv v hu) (h1 ▸ h0) (fun b hb => hl b (List.mem_cons_of_mem _ hb)) h

theorem Worker.weight_le (w : Worker) : w.weight ≤ 6 * w.job.toList.length := by
  cases w <;> simp [Worker.weight, Worker.job]

/-- six moves for each job are enough -/
theorem Sys.work_le (s : Sys) (q : String) :
    s.work q ≤ 6 * (s.store.queueSize q + (s.held q).length) := by
  have hw : ∀ l : List Worker, (l.map Worker.weight).sum ≤ 6 * (l.filterMap Worker.job).length := by
    intro l
    induction l with
    | nil => simp
    | cons w l ih =>
      have h1 := w.weight_le
      cases hj : w.job with
      | none =>
        rw [hj] at h1
        simp only [List.map_cons, List.sum_cons, List.filterMap_cons, hj, Option.toList,
          List.length_nil] at h1 ⊢
        omega
      | some j =>
        rw [hj] at h1
        simp only [List.map_cons, List.sum_cons, List.filterMap_cons, hj, Option.toList,
          List.length_cons, List.length_nil] at h1 ⊢
        omega
  have h1 := hw (s.workers q)
  unfold Sys.work Sys.held
  simp only [List.length_append]
  omega

/-- **A queue can be drained exactly if it has a worker**, or nothing is in it: from every reachable
state, with a handler for each job of the queue, moves of its own goroutines lead to a state where no
job of it is stored, at most six for each job. -/
theorem drains_iff (sc : Scheduler) (l : List Label) (s : Sys)
    (h : run step (Sys.init sc) l = some s) (q : String)
    (hreg : ∀ id j, s.store.jobs id = some j → j.queue = q → s.sched.isRegistered j.name = true) :
    (∃ l' t, (∀ a ∈ l', Label.Of q a) ∧
        l'.length ≤ 6 * (s.store.queueSize q + (s.held q).length) ∧
        run step s l' = some t ∧ t.Drained q) ↔
      1 ≤ (s.sched.concurrency q).getD 0 ∨ s.Drained q := by
  obtain ⟨v, hlive⟩ := run_live h
  constructor
  · rintro ⟨l', t, hl', _, hrun, hd⟩
    by_cases h0 : (s.sched.concurrency q).getD 0 = 0
    · right
      unfold Sys.Drained at hd
      rwa [unserved_run v h0 hl' hrun] at hd
    · exact Or.inl (Nat.pos_of_ne_zero h0)
  · rintro (hc | hd)
    · obtain ⟨l', t, hl', hle, hrun, S, h0⟩ := exists_run_of_progress (I := Label.Of q)
        (P := Served q) (μ := fun s => s.work q) (fun _ S hpos => progress S hpos)
        (show Served q s from ⟨v, hlive, hreg, hc⟩)
      exact ⟨l', t, hl', hle.trans (s.work_le q), hrun, S.drained h0⟩
    · exact ⟨[], s, fun _ h => absurd h List.not_mem_nil, Nat.zero_le _, rfl, hd⟩

/-- a job whose retry a worker has received, and one that is due later -/
def backlog : List Label := retryRun.take 9 ++ [.schedule 0 99 "later" "job" [] []]

theorem drains_iff_backlog : ∃ s, run step (Sys.init oneHandler) backlog = some s ∧
    s.store.queueSize "default" = 1 ∧ (s.held "default").length = 1 ∧
    ∃ l' t, (∀ a ∈ l', Label.Of "default" a) ∧ l'.length ≤ 12 ∧ run step s l' = some t ∧
      t.Drained "default" := by
  have heval : (run step (Sys.init oneHandler) backlog).map (fun s =>
      (s.saved.map Job.id, s.store.queueSize "default", (s.held "default").length,
        (s.sched.concurrency "default").getD 0, ["id", "later"].map fun id =>
          (s.store.jobs id).all fun j => s.sched.isRegistered j.name)) =
      some (["id", "later"], 1, 1, 1, [true, true]) := by decide +kernel
  obtain ⟨s, hs, e⟩ := Option.map_eq_some_iff.mp heval
  simp only [Prod.mk.injEq, List.map_cons, List.map_nil, List.cons.injEq, and_true] at e
  obtain ⟨hsaved, hsize, hheld, hc, h1, h2⟩ := e
  refine ⟨s, hs, hsize, hheld, ?_⟩
  have hreg : ∀ id j, s.store.jobs id = some j → j.queue = "default" →
      s.sched.isRegistered j.name = true := by
    intro id j hj _
    by_cases hid : id ∈ s.saved.map Job.id
    · rw [hsaved, List.mem_cons, List.mem_singleton] at hid
      rcases hid with rfl | rfl
      · rwa [hj] at h1
      · rwa [hj] at h2
    · rw [(run_inv hs).known id hid] at hj
      cases hj
  obtain ⟨l', t, hl', hle, hrun, hd⟩ :=
    (drains_iff oneHandler backlog s hs "default" hreg).mpr (Or.inl hc.ge)
  rw [hsize, hheld] at hle
  exact ⟨l', t, hl', hle, hrun, hd⟩

end GS
