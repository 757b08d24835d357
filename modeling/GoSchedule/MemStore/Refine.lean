import GoSchedule.MemStore.Claim

/-!
# The operations of the in-memory store on the map from job ID to job

`s.jobs` forgets the heaps: it is the map from job ID to job that the store stands for.  Each
operation keeps `Inv` and has a short description on `s.jobs`:

* `save_spec`                      `Save` writes the record of its job;
* `ack_ok`, `fail_ok`              on a claimed record: deleted, or replaced by `afterFail`;
* `cancel_ok`, `reschedule_ok`     on a pending record: deleted, or its `RunAt` replaced;
* `ack_err`, `fail_err`, `cancel_err_*`, `reschedule_err_*`   the store is unchanged;
* `claimDue_spec`                  a batch `L` of pending records, in claim order (`Batch`).

`runOps_inv` is the invariant of every reachable store, and `runOps_repInv` reads it on the slices
and entries themselves.
-/

namespace GS.Mem
open GoHeap QHeap Store

/-- the map from job ID to job -/
def Store.jobs (s : Store) (id : JobID) : Option Job := (s.byID id).map fun r => (s.mem r).job

/-- `j` is a pending record of the queue `q` -/
def Store.Pending (s : Store) (q : String) (j : Job) : Prop :=
  s.jobs j.id = some j ∧ j.state = statePending ∧ j.queue = q

/-- the record after a failed attempt that is retried at `t` -/
def retried (j : Job) (errMsg : String) (t : Time) : Job := requeue t (countFailure errMsg j)

/-- the failed attempt was the last one the store allows -/
def Exhausted (j : Job) : Prop := 0 < j.maxAttempts ∧ j.maxAttempts ≤ j.attempt + 1

instance (j : Job) : Decidable (Exhausted j) := inferInstanceAs (Decidable (_ ∧ _))

def afterFail (j : Job) (errMsg : String) (t : Time) : Option Job :=
  if Exhausted j then none else some (retried j errMsg t)

theorem jobs_eq_some {s : Store} {id : JobID} {j : Job} :
    s.jobs id = some j ↔ ∃ r, s.byID id = some r ∧ (s.mem r).job = j :=
  Option.map_eq_some_iff

theorem jobs_eq_none {s : Store} {id : JobID} : s.jobs id = none ↔ s.byID id = none :=
  Option.map_eq_none_iff

theorem jobs_congr {s s' : Store} (hid : s'.byID = s.byID)
    (hjob : ∀ id r, s.byID id = some r → (s'.mem r).job = (s.mem r).job) : s'.jobs = s.jobs := by
  funext id
  unfold Store.jobs
  rw [hid]
  cases h : s.byID id with
  | none => rfl
  | some r => rw [Option.map_some, Option.map_some, hjob id r h]

theorem jobs_setID (s : Store) (id : JobID) (r : Option Ref) :
    (s.setID id r).jobs = Function.update s.jobs id (r.map fun x => (s.mem x).job) := by
  funext id'
  unfold Store.jobs Store.setID
  by_cases h : id' = id
  · subst h; simp
  · simp [h]

theorem jobs_setJob {s : Store} {id : JobID} {r : Ref} (f : Job → Job) (hid : s.byID id = some r)
    (hu : ∀ id', s.byID id' = some r → id' = id) :
    (s.setJob r f).jobs = Function.update s.jobs id (some (f (s.mem r).job)) := by
  funext id'
  show (s.byID id').map (fun x => ((s.setJob r f).mem x).job) = _
  by_cases h : id' = id
  · subst h
    rw [hid, Function.update_self, Option.map_some, mem_setJob_self]
  · rw [Function.update_of_ne h]
    unfold Store.jobs
    cases hx : s.byID id' with
    | none => rfl
    | some x =>
      have hne : x ≠ r := by
        rintro rfl
        exact h (hu id' hx)
      rw [Option.map_some, Option.map_some, mem_setJob_ne s f hne]

theorem Inv.unique {s : Store} (v : Inv s) {id : JobID} {r : Ref} (hid : s.byID id = some r) :
    ∀ id', s.byID id' = some r → id' = id :=
  fun _ h => (v.id_eq h).symm.trans (v.id_eq hid)

theorem Inv.jobs_id {s : Store} (v : Inv s) {id : JobID} {j : Job} (h : s.jobs id = some j) :
    j.id = id := by
  obtain ⟨r, hr, rfl⟩ := jobs_eq_some.mp h
  exact v.id_eq hr

theorem jobs_heapPush (s : Store) {x : Ref} (n : Near s x) (q : String) :
    (s.heapPush q x).jobs = s.jobs :=
  jobs_congr rfl fun _ r _ => (hpush_spec (n.ok q) (n.out q)).job r

/-! ## Save -/

theorem save_norm (j : Job) : (if j.state = 0 then { j with state := statePending } else j) = j := by
  by_cases h : j.state = 0
  · rw [if_pos h]
    obtain ⟨⟩ := j
    dsimp only at h
    subst h
    rfl
  · rw [if_neg h]

/-- the entry of an overwritten job leaves its heap before the ID is pointed at the new one -/
theorem save_near {s : Store} (v : Inv s) (j : Job) :
    ∃ t : Store, t = ((s.alloc j).unlink j.id).setID j.id (some s.next) ∧ Near t s.next ∧
      t.byID j.id = some s.next ∧ t.mem s.next = ⟨j, -1⟩ ∧
      t.jobs = Function.update s.jobs j.id (some j) := by
  obtain ⟨va, hne, hself⟩ := v.alloc j
  have hfresh : ∀ id, s.byID id ≠ some s.next := fun id h => lt_irrefl _ (v.lt_next h)
  have hout : ∀ q, s.next ∉ ((s.alloc j).heap q).items := fun q h => hfresh _ (va.item h).1
  have hjobs : (s.alloc j).jobs = s.jobs := jobs_congr rfl fun id r h => by
    rw [hne r (fun e => hfresh id (e ▸ h))]
  refine ⟨_, rfl, ?_⟩
  cases hid : s.byID j.id with
  | some x =>
    have hid' : (s.alloc j).byID j.id = some x := hid
    obtain ⟨n, hby, hnext, hjob, hoff, _⟩ := va.unlink hid'
    have hx : ∀ id', ((s.alloc j).unlink j.id).byID id' = some x → id' = j.id := by
      rw [hby]; exact v.unique hid
    have hy : ∀ y, ((s.alloc j).unlink j.id).byID j.id = some y → y = x := by
      rw [hby]; exact fun y hy => Option.some.inj (hy.symm.trans hid)
    have hm : ((s.alloc j).unlink j.id).mem s.next = ⟨j, -1⟩ := by
      rw [hoff _ hout]; exact hself
    have hq : ∀ q, s.next ∉ (((s.alloc j).unlink j.id).heap q).items := by
      intro q h
      have h1 := (n.item h).1
      rw [hby] at h1
      exact hfresh _ h1
    refine ⟨n.setID_some hy hx (by rw [hm]) hq ?_, byID_setID_self _ _ _, hm, ?_⟩
    · rw [hnext]; exact Nat.lt_succ_self _
    · rw [jobs_setID, Option.map_some, hm, jobs_congr hby fun _ r _ => hjob r, hjobs]
  | none =>
    have e : (s.alloc j).unlink j.id = s.alloc j := by
      unfold Store.unlink
      have h1 : (s.alloc j).byID j.id = none := hid
      rw [h1]
    rw [e]
    refine ⟨(va.near hout).setID_some (fun y hy => ?_) (fun id' h => absurd h (hfresh id'))
      (by rw [hself]) hout (Nat.lt_succ_self _), byID_setID_self _ _ _, hself, ?_⟩
    · have h1 : s.byID j.id = some y := hy
      rw [hid] at h1
      cases h1
    · rw [jobs_setID, Option.map_some, hself, hjobs]

theorem save_spec {s : Store} (v : Inv s) (j : Job) :
    Inv (s.save j) ∧ (s.save j).jobs = Function.update s.jobs j.id (some j) := by
  obtain ⟨t, ht, n, hby, hmem, hjobs⟩ := save_near v j
  have e : s.save j = if j.state = statePending then t.heapPush j.queue s.next else t := by
    unfold Store.save
    rw [save_norm, ht]
  rw [e]
  by_cases hp : j.state = statePending
  · rw [if_pos hp]
    have pu := n.push (by rw [hmem]; exact hby) (by rw [hmem]; exact hp)
    rw [hmem] at pu
    exact ⟨pu, by rw [jobs_heapPush t n, hjobs]⟩
  · rw [if_neg hp]
    exact ⟨n.inv (fun _ _ => by rw [hmem]; exact ⟨hp, rfl⟩), hjobs⟩

/-! ## Ack and Fail -/

section
variable {s : Store} (v : Inv s) {id : JobID} {j : Job}
include v

/-- the entry of a claimed record is in no heap -/
theorem near_of_claimed {r : Ref} (hc : (s.mem r).job.state = stateClaimed) : Near s r :=
  v.near fun q => v.out (by rw [hc]; decide) q

theorem ack_ok (hj : s.jobs id = some j) (hc : j.state = stateClaimed) :
    (s.ack id).2 = none ∧ Inv (s.ack id).1 ∧ (s.ack id).1.jobs = Function.update s.jobs id none := by
  obtain ⟨r, hr, rfl⟩ := jobs_eq_some.mp hj
  unfold Store.ack
  rw [hr]
  dsimp only
  rw [if_neg (not_not.mpr hc)]
  refine ⟨rfl,
    ((near_of_claimed v hc).setJob (f := setState stateSucceeded) (fun _ => rfl)).setID_none hr, ?_⟩
  rw [jobs_setID, jobs_setJob _ hr (v.unique hr), Function.update_idem]
  rfl

omit v in
theorem ack_err (h : ∀ j, s.jobs id = some j → j.state ≠ stateClaimed) :
    s.ack id = (s, some .jobNotFound) := by
  unfold Store.ack
  cases hr : s.byID id with
  | none => rfl
  | some r => exact if_pos (h _ (jobs_eq_some.mpr ⟨r, hr, rfl⟩))

theorem fail_ok (hj : s.jobs id = some j) (hc : j.state = stateClaimed) (msg : String) (t : Time) :
    (s.fail id msg t).2 = none ∧ Inv (s.fail id msg t).1 ∧
      (s.fail id msg t).1.jobs = Function.update s.jobs id (afterFail j msg t) := by
  obtain ⟨r, hr, rfl⟩ := jobs_eq_some.mp hj
  have n1 := (near_of_claimed v hc).setJob (f := countFailure msg) (fun _ => rfl)
  have j1 := jobs_setJob (countFailure msg) hr (v.unique hr)
  have m1 := mem_setJob_self s r (countFailure msg)
  unfold Store.fail
  rw [hr]
  dsimp only
  rw [if_neg (not_not.mpr hc)]
  generalize hs1 : s.setJob r (countFailure msg) = s1 at n1 j1 m1 ⊢
  have hr1 : s1.byID id = some r := by rw [← hs1]; exact hr
  have hu1 : ∀ id', s1.byID id' = some r → id' = id := by rw [← hs1]; exact v.unique hr
  rw [m1]
  by_cases hx : Exhausted (s.mem r).job
  · have hx' : 0 < (countFailure msg (s.mem r).job).maxAttempts ∧
        (countFailure msg (s.mem r).job).maxAttempts ≤ (countFailure msg (s.mem r).job).attempt := hx
    rw [if_pos hx']
    refine ⟨rfl, (n1.setJob (f := setState stateFailed) (fun _ => rfl)).setID_none hr1, ?_⟩
    rw [jobs_setID, jobs_setJob _ hr1 hu1, Function.update_idem, j1, Function.update_idem,
      afterFail, if_pos hx]
    rfl
  · have hx' : ¬ (0 < (countFailure msg (s.mem r).job).maxAttempts ∧
        (countFailure msg (s.mem r).job).maxAttempts ≤ (countFailure msg (s.mem r).job).attempt) := hx
    rw [if_neg hx']
    have n2 := n1.setJob (f := requeue t) (fun _ => rfl)
    have j2 := jobs_setJob (requeue t) hr1 hu1
    have m2 := mem_setJob_self s1 r (requeue t)
    generalize hs2 : s1.setJob r (requeue t) = s2 at n2 j2 m2 ⊢
    have hr2 : s2.byID (s2.mem r).job.id = some r := by
      rw [m2, m1, ← hs2]
      show s1.byID (s.mem r).job.id = some r
      rw [v.id_eq hr]
      exact hr1
    have pu := n2.push hr2 (by rw [m2]; rfl)
    have hq : (s2.mem r).job.queue = (s.mem r).job.queue := by rw [m2, m1]; rfl
    rw [hq] at pu
    refine ⟨rfl, pu, ?_⟩
    show (s2.heapPush (s.mem r).job.queue r).jobs = _
    rw [jobs_heapPush s2 n2, j2, j1, Function.update_idem, m1, afterFail, if_neg hx]
    rfl

omit v in
theorem fail_err (h : ∀ j, s.jobs id = some j → j.state ≠ stateClaimed) (msg : String) (t : Time) :
    s.fail id msg t = (s, some .jobNotFound) := by
  unfold Store.fail
  cases hr : s.byID id with
  | none => rfl
  | some r => exact if_pos (h _ (jobs_eq_some.mpr ⟨r, hr, rfl⟩))

/-! ## Cancel and Reschedule -/

theorem cancel_ok (hj : s.jobs id = some j) (hp : j.state = statePending) :
    (s.cancel id).2 = none ∧ Inv (s.cancel id).1 ∧
      (s.cancel id).1.jobs = Function.update s.jobs id none := by
  obtain ⟨r, hr, rfl⟩ := jobs_eq_some.mp hj
  have e : s.cancel id = ((s.unlink id).setID id none, none) := by
    unfold Store.cancel Store.unlink
    rw [hr]
    dsimp only
    rw [if_neg (not_not.mpr hp)]
  obtain ⟨n, hby, _, hjob, _, _⟩ := v.unlink hr
  rw [e]
  refine ⟨rfl, n.setID_none (by rw [hby]; exact hr), ?_⟩
  rw [jobs_setID, jobs_congr hby fun _ r _ => hjob r]
  rfl

omit v in
theorem cancel_err_missing (h : s.jobs id = none) : s.cancel id = (s, some .jobNotFound) := by
  unfold Store.cancel
  rw [jobs_eq_none.mp h]

omit v in
theorem cancel_err_state (hj : s.jobs id = some j) (hp : j.state ≠ statePending) :
    s.cancel id = (s, some .jobNotPending) := by
  obtain ⟨r, hr, rfl⟩ := jobs_eq_some.mp hj
  unfold Store.cancel
  rw [hr]
  exact if_pos hp

theorem reschedule_ok (hj : s.jobs id = some j) (hp : j.state = statePending) (t : Time) :
    (s.reschedule id t).2 = none ∧ Inv (s.reschedule id t).1 ∧
      (s.reschedule id t).1.jobs = Function.update s.jobs id (some (setRunAt t j)) := by
  obtain ⟨r, hr, rfl⟩ := jobs_eq_some.mp hj
  have hx := v.pend hr hp
  obtain ⟨h0, hlt, hget⟩ := v.position hx
  have m1 := mem_setJob_self s r (setRunAt t)
  have mne := fun x (h : x ≠ r) => mem_setJob_ne s (setRunAt t) h
  have j1 := jobs_setJob (setRunAt t) hr (v.unique hr)
  have e : s.reschedule id t = ((s.setJob r (setRunAt t)).heapFix
      (s.mem r).job.queue (s.mem r).index, none) := by
    unfold Store.reschedule
    rw [hr]
    dsimp only
    rw [if_neg (not_not.mpr hp), m1]
    exact congrArg (fun a => (a, none)) (if_pos h0)
  rw [e]
  generalize hs1 : s.setJob r (setRunAt t) = s1 at m1 mne j1 ⊢
  have hitems : ∀ q, (s1.heap q).items = (s.heap q).items := fun q => by rw [← hs1]; rfl
  have hidx : ∀ x, (s1.mem x).index = (s.mem x).index := by
    intro x
    by_cases h : x = r
    · subst h; rw [m1]
    · rw [mne x h]
  have hne : ∀ x, x ≠ (s.heap (s.mem r).job.queue).get (s.mem r).index.toNat →
      ((s1.heap (s.mem r).job.queue).mem x).job = (s.mem x).job := by
    intro x h
    rw [hget] at h
    show (s1.mem x).job = _
    rw [mne x h]
  obtain ⟨mv, ok⟩ := hfix_spec (v.ok _) hlt (hitems _) hidx hne
  unfold Store.heapFix
  generalize hfix heapI (s1.heap (s.mem r).job.queue) (s.mem r).index.toNat = h' at mv ok ⊢
  have hjobs : (s1.setHeap (s.mem r).job.queue h').jobs = s1.jobs :=
    jobs_congr rfl fun _ x _ => mv.job x
  refine ⟨rfl, ?_, by rw [hjobs, j1]⟩
  have hjob : ∀ x, ((s1.setHeap (s.mem r).job.queue h').mem x).job = (s1.mem x).job := mv.job
  have hby : (s1.setHeap (s.mem r).job.queue h').byID = s.byID := by rw [← hs1]; rfl
  have hnext : (s1.setHeap (s.mem r).job.queue h').next = s.next := by rw [← hs1]; rfl
  have hsame : ∀ x, (s1.mem x).job.id = (s.mem x).job.id ∧
      (s1.mem x).job.state = (s.mem x).job.state ∧ (s1.mem x).job.queue = (s.mem x).job.queue := by
    intro x
    by_cases h : x = r
    · subst h; rw [m1]; exact ⟨rfl, rfl, rfl⟩
    · rw [mne x h]; exact ⟨rfl, rfl, rfl⟩
  have hmem : ∀ q x, x ∈ ((s1.setHeap (s.mem r).job.queue h').heap q).items ↔
      x ∈ (s.heap q).items := by
    intro q x
    by_cases hq : q = (s.mem r).job.queue
    · rw [hq, heap_setHeap_self, mv.perm.mem_iff, hitems]
    · rw [items_setHeap_ne _ _ hq, hitems]
  have hoff : ∀ q, q ≠ (s.mem r).job.queue → ∀ x ∈ (s.heap q).items,
      (s1.setHeap (s.mem r).job.queue h').mem x = s.mem x := by
    intro q hq x hxq
    have hne : x ≠ r := by
      rintro rfl
      exact hq (v.item hxq).2.2.symm
    refine (mv.off x ?_).trans (mne x hne)
    rw [hitems]
    exact fun h => hq ((v.item hxq).2.2.symm.trans (v.item h).2.2)
  refine ⟨?_, ?_, ?_, ?_, ?_, ?_⟩
  · intro id' x h
    rw [hby] at h
    rw [hjob, (hsame x).1]
    exact v.id_eq h
  · intro id' x h
    rw [hby] at h
    rw [hnext]
    exact v.lt_next h
  · intro q
    by_cases hq : q = (s.mem r).job.queue
    · rw [hq, heap_setHeap_self]; exact ok
    · exact Ok.congr (v.ok q) (by rw [items_setHeap_ne _ _ hq, hitems]) (hoff q hq)
  · intro q x h
    rw [hjob, hby, (hsame x).1, (hsame x).2.1, (hsame x).2.2]
    exact v.item ((hmem q x).mp h)
  · intro id' x h hst
    rw [hby] at h
    rw [hjob, (hsame x).2.1] at hst
    rw [hjob, (hsame x).2.2, hmem]
    exact v.pend h hst
  · intro id' x h hst
    rw [hby] at h
    rw [hjob, (hsame x).2.1] at hst
    have h1 : x ∉ ((s1.heap (s.mem r).job.queue).items) := by
      rw [hitems]; exact v.out hst _
    have h2 : (s1.setHeap (s.mem r).job.queue h').mem x = s1.mem x := mv.off x h1
    rw [h2, hidx]
    exact v.rest h hst

omit v in
theorem reschedule_err_missing (h : s.jobs id = none) (t : Time) :
    s.reschedule id t = (s, some .jobNotFound) := by
  unfold Store.reschedule
  rw [jobs_eq_none.mp h]

omit v in
theorem reschedule_err_state (hj : s.jobs id = some j) (hp : j.state ≠ statePending) (t : Time) :
    s.reschedule id t = (s, some .jobNotPending) := by
  obtain ⟨r, hr, rfl⟩ := jobs_eq_some.mp hj
  unfold Store.reschedule
  rw [hr]
  exact if_pos hp

end

/-! ## ClaimDue -/

/-- what a claim from the queue `q` at `now` does to the map `m`: it takes the batch `L` of pending
records and rewrites exactly those to `m'` -/
structure Batch (m : JobID → Option Job) (q : String) (now : Time) (n : Int) (w : String)
    (lu : Time) (L : List Job) (m' : JobID → Option Job) : Prop where
  mem : ∀ j ∈ L, m j.id = some j ∧ j.state = statePending ∧ j.queue = q ∧ j.runAt ≤ now
  nodup : (L.map Job.id).Nodup
  sorted : L.Pairwise ClaimLE
  before : ∀ a ∈ L, ∀ b, m b.id = some b → b.state = statePending → b.queue = q → b ∉ L →
    jobLess b a = false
  le : (L.length : Int) ≤ n
  stop : (L.length : Int) = n ∨ (∀ j, m j.id = some j → j.state = statePending → j.queue = q → j ∈ L)
    ∨ ∃ b, m b.id = some b ∧ b.state = statePending ∧ b.queue = q ∧ now < b.runAt ∧
      ∀ j, m j.id = some j → j.state = statePending → j.queue = q → j ∉ L → jobLess j b = false
  eq_in : ∀ j ∈ L, m' j.id = some (markClaimed now w lu j)
  eq_out : ∀ id, (∀ j ∈ L, j.id ≠ id) → m' id = m id

theorem sliceStable_of_sorted {L : List Job} (h : L.Pairwise ClaimLE) :
    sliceStable L = L :=
  h.insertionSort_eq

theorem claimDue_missing {s : Store} {q : String} (h : s.queues q = none) (now : Time) (n : Int)
    (w : String) (lu : Time) : s.claimDue q now n w lu = some (s, []) := by
  unfold Store.claimDue
  rw [h]

theorem claimDue_panic {s : Store} {q : String} {items : List Ref} (h : s.queues q = some items)
    (now : Time) {n : Int} (hn : n < 0) (w : String) (lu : Time) :
    s.claimDue q now n w lu = none := by
  unfold Store.claimDue
  rw [h]
  exact if_pos hn

theorem Inv.exists_item {s : Store} (v : Inv s) {q : String} {b : Job} (hb : s.jobs b.id = some b)
    (hp : b.state = statePending) (hq : b.queue = q) :
    ∃ r ∈ (s.heap q).items, (s.mem r).job = b := by
  obtain ⟨r, hr, rfl⟩ := jobs_eq_some.mp hb
  exact ⟨r, hq ▸ v.pend hr hp, rfl⟩

/-- the entries the loop popped, read on the map of jobs -/
theorem Taken.batch {s : Store} (v : Inv s) {q : String} {now : Time} {n : Int} (hn : 0 ≤ n)
    {w : String} {lu : Time} {h' : QHeap} {taken : List Ref}
    (T : Taken now n w lu 0 (s.heap q) h' taken) :
    Batch s.jobs q now n w lu (taken.map fun r => (s.mem r).job) (s.setHeap q h').jobs := by
  have hsub : ∀ r ∈ taken, r ∈ (s.heap q).items := fun r hr =>
    T.perm.mem_iff.mp (List.mem_append_left _ hr)
  have hrec : ∀ r ∈ taken, s.jobs (s.mem r).job.id = some (s.mem r).job := fun r hr =>
    jobs_eq_some.mpr ⟨r, (v.item (hsub r hr)).1, rfl⟩
  have hleft : ∀ b, s.jobs b.id = some b → b.state = statePending → b.queue = q →
      b ∉ (taken.map fun r => (s.mem r).job) → ∃ r ∈ h'.items, (s.mem r).job = b := by
    intro b hb hp hq hL
    obtain ⟨r, hr, rfl⟩ := v.exists_item hb hp hq
    rcases List.mem_append.mp (T.perm.mem_iff.mpr hr) with h | h
    · exact absurd (List.mem_map_of_mem h) hL
    · exact ⟨r, h, rfl⟩
  have hnd : taken.Nodup :=
    (List.nodup_append.mp (T.perm.symm.nodup (v.ok q).idx.nodup)).1
  refine ⟨?_, ?_, ?_, ?_, ?_, ?_, ?_, ?_⟩
  · intro j hj
    obtain ⟨r, hr, rfl⟩ := List.mem_map.mp hj
    exact ⟨hrec r hr, (v.item (hsub r hr)).2.1, (v.item (hsub r hr)).2.2, T.due r hr⟩
  · rw [List.map_map]
    refine hnd.map_on (fun a ha b hb e => ?_)
    have h1 := (v.item (hsub a ha)).1
    have e' : (s.mem a).job.id = (s.mem b).job.id := e
    rw [e', (v.item (hsub b hb)).1] at h1
    exact (Option.some.inj h1).symm
  · exact List.pairwise_map.mpr T.sorted
  · intro a ha b hb hp hq hL
    obtain ⟨r, hr, rfl⟩ := List.mem_map.mp ha
    obtain ⟨x, hx, rfl⟩ := hleft b hb hp hq hL
    exact T.before r hr x hx
  · rw [List.length_map]
    have h1 := T.le (by simpa using hn)
    simpa using h1
  · rw [List.length_map]
    have hle := T.le (by simpa using hn)
    rcases T.stop with h1 | h1 | ⟨b, hb, h1, h2⟩
    · push_cast at h1 hle
      exact Or.inl (by omega)
    · refine Or.inr (Or.inl (fun j hj hp hq => ?_))
      by_contra hL
      obtain ⟨r, hr, _⟩ := hleft j hj hp hq hL
      rw [h1] at hr
      exact absurd hr List.not_mem_nil
    · have hbq : b ∈ (s.heap q).items := T.perm.mem_iff.mp (List.mem_append_right _ hb)
      refine Or.inr (Or.inr ⟨(s.mem b).job, jobs_eq_some.mpr ⟨b, (v.item hbq).1, rfl⟩,
        (v.item hbq).2.1, (v.item hbq).2.2, h1, fun j hj hp hq hL => ?_⟩)
      obtain ⟨r, hr, rfl⟩ := hleft j hj hp hq hL
      exact h2 r hr
  · intro j hj
    obtain ⟨r, hr, rfl⟩ := List.mem_map.mp hj
    exact jobs_eq_some.mpr ⟨r, (v.item (hsub r hr)).1, T.job_in r hr⟩
  · intro id hid
    show (s.byID id).map (fun r => (h'.mem r).job) = (s.byID id).map fun r => (s.mem r).job
    cases hr : s.byID id with
    | none => rfl
    | some r =>
      rw [Option.map_some, Option.map_some]
      refine congrArg some (T.job_out r (fun h => ?_))
      exact hid _ (List.mem_map_of_mem h) (v.id_eq hr)

/-- **`ClaimDue` on the map of jobs.** -/
theorem claimDue_spec {s : Store} (v : Inv s) (q : String) (now : Time) {n : Int} (hn : 0 ≤ n)
    (w : String) (lu : Time) : ∃ s' L, s.claimDue q now n w lu
        = some (s', L.map (markClaimed now w lu)) ∧ Inv s' ∧
      Batch s.jobs q now n w lu L s'.jobs ∧ s'.recurring = s.recurring := by
  cases hq : s.queues q with
  | none =>
    refine ⟨s, [], claimDue_missing hq now n w lu, v, ?_, rfl⟩
    have hno : ∀ j, s.jobs j.id = some j → j.state = statePending → j.queue = q → False := by
      intro j hj hp hjq
      obtain ⟨r, hr, rfl⟩ := jobs_eq_some.mp hj
      have h1 := v.pend hr hp
      rw [hjq] at h1
      unfold Store.heap at h1
      rw [hq] at h1
      exact absurd h1 List.not_mem_nil
    refine ⟨?_, List.nodup_nil, List.Pairwise.nil, ?_, ?_, Or.inr (Or.inl ?_), ?_, fun _ _ => rfl⟩
    · exact fun j hj => absurd hj List.not_mem_nil
    · exact fun a ha => absurd ha List.not_mem_nil
    · simpa using hn
    · exact fun j h1 h2 h3 => (hno j h1 h2 h3).elim
    · exact fun j hj => absurd hj List.not_mem_nil
  | some items =>
    have hh : s.heap q = ⟨s.mem, items⟩ := by unfold Store.heap; rw [hq]; rfl
    have e0 : s.setHeap q ⟨s.mem, items⟩ = s := by
      unfold Store.setHeap
      rw [← hq, Function.update_eq_self]
    obtain ⟨taken, v', T, hout⟩ := claimLoop_spec now n w lu items.length (le_refl _)
      (show Inv (s.setHeap q ⟨s.mem, items⟩) by rw [e0]; exact v) []
    have T' : Taken now n w lu 0 (s.heap q)
        (claimLoop now n w lu items.length ⟨s.mem, items⟩ []).1 taken := by rw [hh]; exact T
    have B := T'.batch v hn
    have hs : sliceStable (claimLoop now n w lu items.length ⟨s.mem, items⟩ []).2
        = (taken.map fun r => (s.mem r).job).map (markClaimed now w lu) := by
      rw [hout, List.nil_append, List.map_map]
      exact sliceStable_of_sorted (List.pairwise_map.mpr T.sorted)
    refine ⟨_, _, ?_, v', B, rfl⟩
    unfold Store.claimDue
    rw [hq]
    dsimp only
    rw [if_neg (not_lt.mpr hn), hs]

/-! ## every reachable store -/

theorem apply_inv {s : Store} (v : Inv s) (op : Op) : Inv (op.apply s) := by
  cases op with
  | save j => exact (save_spec v j).1
  | claimDue q now n w lu =>
    by_cases hn : 0 ≤ n
    · obtain ⟨s', L, e, v', _⟩ := claimDue_spec v q now hn w lu
      show Inv (((s.claimDue q now n w lu).map Prod.fst).getD s)
      rw [e]
      exact v'
    · show Inv (((s.claimDue q now n w lu).map Prod.fst).getD s)
      cases hq : s.queues q with
      | none => rw [claimDue_missing hq]; exact v
      | some items => rw [claimDue_panic hq now (not_le.mp hn)]; exact v
  | ack id =>
    by_cases h : ∃ j, s.jobs id = some j ∧ j.state = stateClaimed
    · obtain ⟨j, hj, hc⟩ := h
      exact (ack_ok v hj hc).2.1
    · show Inv (s.ack id).1
      rw [ack_err (fun j hj hc => h ⟨j, hj, hc⟩)]
      exact v
  | fail id msg t =>
    by_cases h : ∃ j, s.jobs id = some j ∧ j.state = stateClaimed
    · obtain ⟨j, hj, hc⟩ := h
      exact (fail_ok v hj hc msg t).2.1
    · show Inv (s.fail id msg t).1
      rw [fail_err (fun j hj hc => h ⟨j, hj, hc⟩)]
      exact v
  | cancel id =>
    show Inv (s.cancel id).1
    cases hj : s.jobs id with
    | none => rw [cancel_err_missing hj]; exact v
    | some j =>
      by_cases hp : j.state = statePending
      · exact (cancel_ok v hj hp).2.1
      · rw [cancel_err_state hj hp]; exact v
  | reschedule id t =>
    show Inv (s.reschedule id t).1
    cases hj : s.jobs id with
    | none => rw [reschedule_err_missing hj]; exact v
    | some j =>
      by_cases hp : j.state = statePending
      · exact (reschedule_ok v hj hp t).2.1
      · rw [reschedule_err_state hj hp]; exact v
  | upsertRecurring spec => exact ⟨v.id_eq, v.lt_next, v.ok, v.item, v.pend, v.rest⟩
  | deleteRecurring id => exact ⟨v.id_eq, v.lt_next, v.ok, v.item, v.pend, v.rest⟩
  | updateRecurringNextRun id next last =>
    exact ⟨v.id_eq, v.lt_next, v.ok, v.item, v.pend, v.rest⟩

theorem foldl_inv (ops : List Op) {s : Store} (v : Inv s) : Inv (ops.foldl Op.apply s) := by
  induction ops generalizing s with
  | nil => exact v
  | cons op ops ih => exact ih (apply_inv v op)

theorem runOps_inv (ops : List Op) : Inv (runOps ops) := foldl_inv ops new_inv

/-- the representation invariant, read on the heaps that exist -/
structure RepInv (s : Store) : Prop where
  item : ∀ q items, s.queues q = some items → ∀ i (hi : i < items.length),
    (s.mem items[i]).index = i ∧ s.byID (s.mem items[i]).job.id = some items[i] ∧
      (s.mem items[i]).job.state = statePending ∧ (s.mem items[i]).job.queue = q
  pending : ∀ id r, s.byID id = some r → (s.mem r).job.state = statePending →
    ∃! q, ∃ items, s.queues q = some items ∧ r ∈ items
  other : ∀ id r, s.byID id = some r → (s.mem r).job.state ≠ statePending →
    (s.mem r).index = -1 ∧ ∀ q items, s.queues q = some items → r ∉ items
  order : ∀ q items, s.queues q = some items → ∀ i, 0 < i → i < items.length →
    QHeap.less ⟨s.mem, items⟩ i ((i - 1) / 2) = false

/-- **The representation invariant holds after every sequence of operations.** -/
theorem runOps_repInv (ops : List Op) : RepInv (runOps ops) := by
  have v := runOps_inv ops
  generalize runOps ops = s at v
  have hh : ∀ {q items}, s.queues q = some items → s.heap q = ⟨s.mem, items⟩ := by
    intro q items h
    unfold Store.heap
    rw [h]
    rfl
  have hin : ∀ {q items r}, s.queues q = some items → r ∈ items → r ∈ (s.heap q).items := by
    intro q items r h hr
    rw [hh h]
    exact hr
  refine ⟨?_, ?_, ?_, ?_⟩
  · intro q items h i hi
    have h1 := (v.ok q).idx
    rw [hh h] at h1
    have h2 := h1 i hi
    rw [get_eq _ hi] at h2
    exact ⟨h2, v.item (hin h (List.getElem_mem hi))⟩
  · intro id r hr hp
    have h1 := v.pend hr hp
    refine ⟨(s.mem r).job.queue, ?_, ?_⟩
    · cases hq : s.queues (s.mem r).job.queue with
      | none =>
        unfold Store.heap at h1
        rw [hq] at h1
        exact absurd h1 List.not_mem_nil
      | some items =>
        rw [hh hq] at h1
        exact ⟨items, hq, h1⟩
    · rintro q ⟨items, h, hr'⟩
      exact (v.item (hin h hr')).2.2.symm
  · intro id r hr hp
    exact ⟨v.rest hr hp, fun q items h hr' => v.out hp q (hin h hr')⟩
  · intro q items h i h0 hi
    have h1 := (v.ok q).ord
    rw [hh h] at h1
    exact h1 i h0 hi

end GS.Mem
