import GoSchedule.Lib.Orbit
import GoSchedule.Lib.Run
import GoSchedule.Recurring.Finish

/-!
# Whole runs of the recurring runner

A single scheduler on a memstore: rounds of the runner at any times, and operations on the store
between them.

* `tickOps`       the operations of a round on the store: `tick_eq`, the round is these operations;
* `Sys`, `step`   the store and the jobs that the runner has saved so far;
* `point parse spec k`   the `k`-th point of the schedule, from the `NextRunAt` that it began with;
* `round_fires`   what one round on one spec saves, and where it leaves `NextRunAt`;
* `Along`         the invariant of a run: the saved fires are points in order, `NextRunAt` is a later
  point;
* `ticks_follow_orbit`   **no drift, no repetition**, whatever the times of the rounds are.
-/

namespace GS.Recurring
open Loop Orbit Trans

/-! ## a round as operations on the store -/

section
variable (parse : String → Except String Schedule)

/-- the jobs that a round saves for a spec that is due -/
def fireJobs (uuid : Nat → JobID) (now : Time) (spec : RecurringSpec) : List Job :=
  (computeFires parse spec now).zipIdx.map fun p => fireJob spec (uuid p.2) now p.1

def tickSpecOps (uuid : Nat → JobID) (fuel : Nat) (now : Time) (spec : RecurringSpec) :
    Option (List Mem.Op) :=
  if now < spec.nextRunAt then some []
  else
    (nextAfter parse fuel spec now).map fun next =>
      (fireJobs parse uuid now spec).map .save ++ [.updateRecurringNextRun spec.id next now]

/-- the specs as they were listed -/
def tickOps (uuid : JobID → Nat → JobID) (fuel : Nat) (now : Time) :
    List RecurringSpec → Option (List Mem.Op)
  | [] => some []
  | spec :: specs => (tickSpecOps parse (uuid spec.id) fuel now spec).bind fun own =>
      (tickOps uuid fuel now specs).map fun rest => own ++ rest

variable {parse}

theorem tickSpec_eq (uuid : Nat → JobID) (fuel : Nat) (now : Time) (s : Mem.Store)
    (spec : RecurringSpec) : tickSpec parse uuid fuel now s spec =
      (tickSpecOps parse uuid fuel now spec).map fun ops => ops.foldl Mem.Op.apply s := by
  unfold tickSpec tickSpecOps
  split
  · rfl
  · rw [Option.map_map]
    refine congrArg (fun g => Option.map g (nextAfter parse fuel spec now)) (funext fun next => ?_)
    show _ = ((fireJobs parse uuid now spec).map Mem.Op.save ++ _).foldl Mem.Op.apply s
    rw [List.foldl_append, List.foldl_map, fireJobs, List.foldl_map]
    rfl

/-- **A round of the runner** is its operations, one after another. -/
theorem tick_eq (uuid : JobID → Nat → JobID) (fuel : Nat) (now : Time) (s : Mem.Store) :
    tick parse uuid fuel now s =
      (tickOps parse uuid fuel now s.recurring).map fun ops => ops.foldl Mem.Op.apply s := by
  have h : ∀ (specs : List RecurringSpec) (s : Mem.Store),
      specs.foldlM (fun s spec => tickSpec parse (uuid spec.id) fuel now s spec) s =
        (tickOps parse uuid fuel now specs).map fun ops => ops.foldl Mem.Op.apply s := by
    intro specs
    induction specs with
    | nil => intro s; rfl
    | cons spec specs ih =>
      intro s
      rw [List.foldlM_cons, tickSpec_eq, tickOps]
      cases tickSpecOps parse (uuid spec.id) fuel now spec with
      | none => rfl
      | some own =>
        show specs.foldlM _ (own.foldl Mem.Op.apply s) = _
        rw [ih, Option.bind_some, Option.map_map]
        refine congrArg (fun g => Option.map g (tickOps parse uuid fuel now specs)) ?_
        funext rest
        exact (List.foldl_append ..).symm
  exact h s.recurring s

end

/-! ## the runner and its store -/

/-- `log` lists the jobs that the runner has saved, the newest last -/
structure Sys where
  store : Mem.Store
  log : List Job

/-- the jobs that were enqueued for a spec -/
def Sys.fires (s : Sys) (id : JobID) : List Job := s.log.filter fun j => j.recurringID = id

def saved : Mem.Op → Option Job
  | .save j => some j
  | _ => none

inductive Event where
  | tick (uuid : JobID → Nat → JobID) (fuel : Nat) (now : Time)
  | op (o : Mem.Op)

def step (parse : String → Except String Schedule) (s : Sys) : Event → Option Sys
  | .tick uuid fuel now =>
    (tickOps parse uuid fuel now s.store.recurring).map fun ops =>
      ⟨ops.foldl Mem.Op.apply s.store, s.log ++ ops.filterMap saved⟩
  | .op o => some ⟨o.apply s.store, s.log⟩

/-- an operation that is not on the spec `id` -/
def Leaves (id : JobID) : Mem.Op → Prop
  | .upsertRecurring spec => spec.id ≠ id
  | .deleteRecurring i => i ≠ id
  | .updateRecurringNextRun i _ _ => i ≠ id
  | _ => True

/-! ## the specs of a store -/

/-- the operation on one spec -/
def touch (o : Mem.Op) (spec : RecurringSpec) : RecurringSpec :=
  match o with
  | .updateRecurringNextRun id next last =>
    if spec.id = id then { spec with nextRunAt := next, lastFireAt := last } else spec
  | _ => spec

theorem touch_id (o : Mem.Op) (spec : RecurringSpec) : (touch o spec).id = spec.id := by
  cases o with
  | updateRecurringNextRun id next last =>
    show (if spec.id = id then _ else spec : RecurringSpec).id = _
    split
    · rfl
    · rfl
  | _ => rfl

theorem foldl_touch_id (ops : List Mem.Op) (spec : RecurringSpec) :
    (ops.foldl (fun x o => touch o x) spec).id = spec.id := by
  induction ops generalizing spec with
  | nil => rfl
  | cons o ops ih => exact (ih _).trans (touch_id o spec)

theorem save_recurring (s : Mem.Store) (j : Job) : (s.save j).recurring = s.recurring := by
  have hu : ∀ (s : Mem.Store) id, (s.unlink id).recurring = s.recurring := by
    intro s id
    unfold Mem.Store.unlink
    split
    · split
      · rfl
      · rfl
    · rfl
  unfold Mem.Store.save
  dsimp only
  generalize (if j.state = 0 then { j with state := statePending } else j) = j'
  split
  · exact hu _ _
  · exact hu _ _

/-- an operation on jobs leaves the specs alone -/
theorem apply_recurring {o : Mem.Op} (h : ∀ id, Leaves id o) (s : Mem.Store) :
    (o.apply s).recurring = s.recurring := by
  cases o with
  | save j => exact save_recurring s j
  | claimDue q now n w lu =>
    show (((s.claimDue q now n w lu).map Prod.fst).getD s).recurring = _
    unfold Mem.Store.claimDue
    split
    · rfl
    · split
      · rfl
      · rfl
  | ack id =>
    show (s.ack id).1.recurring = _
    unfold Mem.Store.ack
    split
    · rfl
    · split
      · rfl
      · rfl
  | fail id msg t =>
    show (s.fail id msg t).1.recurring = _
    unfold Mem.Store.fail
    split
    · rfl
    · split
      · rfl
      · dsimp only
        split
        · rfl
        · rfl
  | cancel id =>
    show (s.cancel id).1.recurring = _
    unfold Mem.Store.cancel
    split
    · rfl
    · split
      · rfl
      · dsimp only
        split
        · rfl
        · rfl
  | reschedule id t =>
    show (s.reschedule id t).1.recurring = _
    unfold Mem.Store.reschedule
    split
    · rfl
    · split
      · rfl
      · dsimp only
        split
        · rfl
        · rfl
  | upsertRecurring spec => exact absurd rfl (h spec.id)
  | deleteRecurring id => exact absurd rfl (h id)
  | updateRecurringNextRun id next last => exact absurd rfl (h id)

/-- every ID names one spec -/
def Distinct (s : Mem.Store) : Prop := (s.recurring.map RecurringSpec.id).Nodup

theorem apply_distinct {s : Mem.Store} (h : Distinct s) (o : Mem.Op) : Distinct (o.apply s) := by
  cases o with
  | upsertRecurring spec =>
    show ((s.recurring.filter (fun r => r.id ≠ spec.id) ++ [spec]).map RecurringSpec.id).Nodup
    rw [List.map_append]
    refine List.nodup_append.mpr ⟨h.sublist (List.filter_sublist.map _), List.nodup_singleton _, ?_⟩
    intro a ha b hb e
    obtain ⟨r, hr, rfl⟩ := List.mem_map.mp ha
    have hne := of_decide_eq_true (List.mem_filter.mp hr).2
    exact hne (e.trans (List.mem_singleton.mp hb))
  | deleteRecurring id => exact h.sublist (List.filter_sublist.map _)
  | updateRecurringNextRun id next last =>
    show ((s.recurring.map (touch (.updateRecurringNextRun id next last))).map
      RecurringSpec.id).Nodup
    rw [List.map_map]
    have e : RecurringSpec.id ∘ touch (.updateRecurringNextRun id next last) = RecurringSpec.id :=
      funext (touch_id _)
    rw [e]
    exact h
  | _ =>
    unfold Distinct
    rw [apply_recurring]
    · exact h
    · exact fun _ => trivial

theorem foldl_distinct {s : Mem.Store} (h : Distinct s) (ops : List Mem.Op) :
    Distinct (ops.foldl Mem.Op.apply s) := by
  induction ops generalizing s with
  | nil => exact h
  | cons o ops ih => exact ih (apply_distinct h o)

theorem mem_apply {s : Mem.Store} {spec : RecurringSpec} (h : spec ∈ s.recurring) {o : Mem.Op}
    (hl : Leaves spec.id o) : spec ∈ (o.apply s).recurring := by
  cases o with
  | upsertRecurring x =>
    refine List.mem_append_left _ (List.mem_filter.mpr ⟨h, ?_⟩)
    exact decide_eq_true (Ne.symm hl)
  | deleteRecurring id => exact List.mem_filter.mpr ⟨h, decide_eq_true (Ne.symm hl)⟩
  | updateRecurringNextRun id next last =>
    refine List.mem_map.mpr ⟨spec, h, ?_⟩
    exact if_neg (Ne.symm hl)
  | _ =>
    rw [apply_recurring]
    · exact h
    · exact fun _ => trivial

/-! ## what a round does for one spec -/

/-- the operations of a round -/
def IsTickOp (o : Mem.Op) : Prop :=
  (∃ j, o = .save j) ∨ ∃ id next last, o = .updateRecurringNextRun id next last

/-- they change each spec by itself -/
theorem foldl_recurring {ops : List Mem.Op} (h : ∀ o ∈ ops, IsTickOp o) (s : Mem.Store) :
    (ops.foldl Mem.Op.apply s).recurring =
      s.recurring.map fun x => ops.foldl (fun x o => touch o x) x := by
  induction ops generalizing s with
  | nil => exact (List.map_id _).symm
  | cons o ops ih =>
    have ho : (o.apply s).recurring = s.recurring.map (touch o) := by
      rcases h o List.mem_cons_self with ⟨j, rfl⟩ | ⟨id, next, last, rfl⟩
      · exact (save_recurring s j).trans (List.map_id _).symm
      · rfl
    show (ops.foldl Mem.Op.apply (o.apply s)).recurring = _
    rw [ih (fun x hx => h x (List.mem_cons_of_mem _ hx)), ho, List.map_map]
    rfl

section
variable {parse : String → Except String Schedule}

theorem tickSpecOps_cases {uuid : Nat → JobID} {fuel : Nat} {now : Time} {spec : RecurringSpec}
    {own : List Mem.Op} (h : tickSpecOps parse uuid fuel now spec = some own) :
    (now < spec.nextRunAt ∧ own = []) ∨
      (spec.nextRunAt ≤ now ∧ ∃ next, nextAfter parse fuel spec now = some next ∧
        own = (fireJobs parse uuid now spec).map .save ++
          [.updateRecurringNextRun spec.id next now]) := by
  unfold tickSpecOps at h
  split at h
  · rename_i hlt
    exact Or.inl ⟨hlt, (Option.some.inj h).symm⟩
  · rename_i hle
    obtain ⟨next, hn, e⟩ := Option.map_eq_some_iff.mp h
    exact Or.inr ⟨not_lt.mp hle, next, hn, e.symm⟩

theorem foldl_touch_saves (jobs : List Job) (rest : List Mem.Op) (x : RecurringSpec) :
    (jobs.map Mem.Op.save ++ rest).foldl (fun x o => touch o x) x =
      rest.foldl (fun x o => touch o x) x := by
  induction jobs with
  | nil => rfl
  | cons j jobs ih => exact ih

theorem filterMap_saved (jobs : List Job) (id : JobID) (next last : Time) :
    (jobs.map Mem.Op.save ++ [Mem.Op.updateRecurringNextRun id next last]).filterMap saved = jobs := by
  induction jobs with
  | nil => rfl
  | cons j jobs ih =>
    show j :: _ = _
    exact congrArg (j :: ·) ih

theorem fireJobs_recurringID {uuid : Nat → JobID} {now : Time} {spec : RecurringSpec} {j : Job}
    (h : j ∈ fireJobs parse uuid now spec) : j.recurringID = spec.id ∧ j.createdAt = now := by
  obtain ⟨p, _, rfl⟩ := List.mem_map.mp h
  exact ⟨rfl, rfl⟩

/-- the operations for another spec -/
theorem own_other {uuid : Nat → JobID} {fuel : Nat} {now : Time} {spec x : RecurringSpec}
    {own : List Mem.Op} (h : tickSpecOps parse uuid fuel now spec = some own) (hx : spec.id ≠ x.id) :
    own.foldl (fun x o => touch o x) x = x ∧
      (own.filterMap saved).filter (fun j => j.recurringID = x.id) = [] := by
  rcases tickSpecOps_cases h with ⟨_, rfl⟩ | ⟨_, next, _, rfl⟩
  · exact ⟨rfl, rfl⟩
  · rw [foldl_touch_saves, filterMap_saved]
    refine ⟨if_neg (Ne.symm hx), List.filter_eq_nil_iff.mpr fun j hj hid => hx ?_⟩
    rw [← (fireJobs_recurringID hj).1]
    exact of_decide_eq_true hid

theorem own_isTickOp {uuid : Nat → JobID} {fuel : Nat} {now : Time} {spec : RecurringSpec}
    {own : List Mem.Op} (h : tickSpecOps parse uuid fuel now spec = some own) :
    ∀ o ∈ own, IsTickOp o := by
  intro o ho
  rcases tickSpecOps_cases h with ⟨_, rfl⟩ | ⟨_, next, _, rfl⟩
  · cases ho
  · rcases List.mem_append.mp ho with ho | ho
    · obtain ⟨j, _, rfl⟩ := List.mem_map.mp ho
      exact Or.inl ⟨j, rfl⟩
    · exact Or.inr ⟨_, _, _, List.mem_singleton.mp ho⟩

theorem tickOps_cons {uuid : JobID → Nat → JobID} {fuel : Nat} {now : Time} {spec : RecurringSpec}
    {specs : List RecurringSpec} {ops : List Mem.Op}
    (h : tickOps parse uuid fuel now (spec :: specs) = some ops) :
    ∃ own rest, tickSpecOps parse (uuid spec.id) fuel now spec = some own ∧
      tickOps parse uuid fuel now specs = some rest ∧ ops = own ++ rest := by
  obtain ⟨own, h1, h2⟩ := Option.bind_eq_some_iff.mp h
  obtain ⟨rest, h3, rfl⟩ := Option.map_eq_some_iff.mp h2
  exact ⟨own, rest, h1, h3, rfl⟩

theorem tickOps_isTickOp {uuid : JobID → Nat → JobID} {fuel : Nat} {now : Time}
    {specs : List RecurringSpec} {ops : List Mem.Op}
    (h : tickOps parse uuid fuel now specs = some ops) : ∀ o ∈ ops, IsTickOp o := by
  induction specs generalizing ops with
  | nil =>
    obtain rfl := Option.some.inj h
    intro o ho
    cases ho
  | cons spec specs ih =>
    obtain ⟨own, rest, h1, h2, rfl⟩ := tickOps_cons h
    intro o ho
    rcases List.mem_append.mp ho with ho | ho
    · exact own_isTickOp h1 o ho
    · exact ih h2 o ho

theorem tickOps_other {uuid : JobID → Nat → JobID} {fuel : Nat} {now : Time}
    {specs : List RecurringSpec} {ops : List Mem.Op} {x : RecurringSpec}
    (h : tickOps parse uuid fuel now specs = some ops) (hx : ∀ spec ∈ specs, spec.id ≠ x.id) :
    ops.foldl (fun x o => touch o x) x = x ∧
      (ops.filterMap saved).filter (fun j => j.recurringID = x.id) = [] := by
  induction specs generalizing ops with
  | nil =>
    obtain rfl := Option.some.inj h
    exact ⟨rfl, rfl⟩
  | cons spec specs ih =>
    obtain ⟨own, rest, h1, h2, rfl⟩ := tickOps_cons h
    obtain ⟨ho, hs⟩ := own_other h1 (hx spec List.mem_cons_self)
    obtain ⟨hr, hs'⟩ := ih h2 fun y hy => hx y (List.mem_cons_of_mem _ hy)
    rw [List.foldl_append, ho, List.filterMap_append, List.filter_append, hs, hs']
    exact ⟨hr, rfl⟩

/-- in a round, a spec meets its own operations only -/
theorem tickOps_own {uuid : JobID → Nat → JobID} {fuel : Nat} {now : Time}
    {specs : List RecurringSpec} {ops : List Mem.Op} {x : RecurringSpec}
    (h : tickOps parse uuid fuel now specs = some ops)
    (hn : (specs.map RecurringSpec.id).Nodup) (hx : x ∈ specs) :
    ∃ own, tickSpecOps parse (uuid x.id) fuel now x = some own ∧
      ops.foldl (fun x o => touch o x) x = own.foldl (fun x o => touch o x) x ∧
      (ops.filterMap saved).filter (fun j => j.recurringID = x.id) = own.filterMap saved := by
  induction specs generalizing ops with
  | nil => cases hx
  | cons spec specs ih =>
    obtain ⟨own, rest, h1, h2, rfl⟩ := tickOps_cons h
    rw [List.map_cons] at hn
    obtain ⟨hnot, hn⟩ := List.nodup_cons.mp hn
    rw [List.foldl_append, List.filterMap_append, List.filter_append]
    rcases List.mem_cons.mp hx with rfl | hx
    · -- the specs after it have other IDs, and so has its image
      have hid : ∀ y ∈ specs, y.id ≠ (own.foldl (fun x o => touch o x) x).id := by
        intro y hy e
        rw [foldl_touch_id] at e
        exact hnot (e ▸ List.mem_map_of_mem hy)
      have hid' : ∀ y ∈ specs, y.id ≠ x.id := fun y hy e => hnot (e ▸ List.mem_map_of_mem hy)
      refine ⟨own, h1, (tickOps_other h2 hid).1, ?_⟩
      rw [(tickOps_other h2 hid').2, List.append_nil, List.filter_eq_self.mpr]
      intro j hj
      rcases tickSpecOps_cases h1 with ⟨_, rfl⟩ | ⟨_, next, _, rfl⟩
      · cases hj
      · rw [filterMap_saved] at hj
        exact decide_eq_true (fireJobs_recurringID hj).1
    · have hne : spec.id ≠ x.id := fun e => hnot (e ▸ List.mem_map_of_mem hx)
      obtain ⟨own', h3, h4, h5⟩ := ih h2 hn hx
      refine ⟨own', h3, ?_, ?_⟩
      · rw [(own_other h1 hne).1, h4]
      · rw [(own_other h1 hne).2, List.nil_append, h5]

/-- **A round, seen from one spec.** -/
theorem tick_round {s t : Sys} {uuid : JobID → Nat → JobID} {fuel : Nat} {now : Time}
    (h : step parse s (.tick uuid fuel now) = some t) (hd : Distinct s.store)
    {spec : RecurringSpec} (hs : spec ∈ s.store.recurring) :
    (now < spec.nextRunAt ∧ spec ∈ t.store.recurring ∧ t.fires spec.id = s.fires spec.id) ∨
    (spec.nextRunAt ≤ now ∧ ∃ next, nextAfter parse fuel spec now = some next ∧
      { spec with nextRunAt := next, lastFireAt := now } ∈ t.store.recurring ∧
      t.fires spec.id = s.fires spec.id ++ fireJobs parse (uuid spec.id) now spec) := by
  obtain ⟨ops, hops, rfl⟩ := Option.map_eq_some_iff.mp h
  obtain ⟨own, hown, htouch, hsaved⟩ := tickOps_own hops hd hs
  have hmem : own.foldl (fun x o => touch o x) spec ∈
      (ops.foldl Mem.Op.apply s.store).recurring := by
    rw [foldl_recurring (tickOps_isTickOp hops)]
    exact List.mem_map.mpr ⟨spec, hs, htouch⟩
  have hfires : (s.log ++ ops.filterMap saved).filter (fun j => j.recurringID = spec.id) =
      s.fires spec.id ++ own.filterMap saved := by
    rw [List.filter_append, hsaved]
    rfl
  rcases tickSpecOps_cases hown with ⟨hlt, rfl⟩ | ⟨hle, next, hnext, rfl⟩
  · exact Or.inl ⟨hlt, hmem, hfires.trans (List.append_nil _)⟩
  · refine Or.inr ⟨hle, next, hnext, ?_, ?_⟩
    · rw [foldl_touch_saves] at hmem
      have e : touch (.updateRecurringNextRun spec.id next now) spec =
          { spec with nextRunAt := next, lastFireAt := now } := if_pos rfl
      rw [← e]
      exact hmem
    · rw [filterMap_saved] at hfires
      exact hfires

theorem step_distinct {s t : Sys} {e : Event} (h : step parse s e = some t) (hd : Distinct s.store) :
    Distinct t.store := by
  cases e with
  | tick uuid fuel now =>
    obtain ⟨ops, _, rfl⟩ := Option.map_eq_some_iff.mp h
    exact foldl_distinct hd ops
  | op o =>
    obtain rfl := Option.some.inj h
    exact apply_distinct hd o

/-! ## points of the schedule -/

variable (parse) in
def point (spec : RecurringSpec) (k : Nat) : Time := (advance parse spec)^[k] spec.nextRunAt

/-- the spec with the `k`-th point as its next fire -/
def atPoint (parse : String → Except String Schedule) (spec : RecurringSpec) (k : Nat)
    (last : Time) : RecurringSpec :=
  { spec with nextRunAt := point parse spec k, lastFireAt := last }

theorem point_atPoint (spec : RecurringSpec) (k : Nat) (last : Time) (i : Nat) :
    point parse (atPoint parse spec k last) i = point parse spec (k + i) := by
  show (advance parse spec)^[i] ((advance parse spec)^[k] spec.nextRunAt) = _
  rw [← Function.iterate_add_apply, Nat.add_comm]
  rfl

theorem catchupLoop_eq {spec : RecurringSpec} (hadv : ∀ t, t < advance parse spec t) (now : Time)
    (n : Nat) (t : Time) : catchupLoop parse spec now n t = upTo (advance parse spec) now n t := by
  induction n generalizing t with
  | zero => rfl
  | succ n ih =>
    unfold catchupLoop upTo
    dsimp only
    rw [if_neg (not_le.mpr (hadv t)), ih]

/-- **One round on one spec**: the first `m` points are fired and the next fire is the first point
after `now`, the `k`-th.  With catch-up the two agree, up to the bound. -/
theorem round_fires {spec : RecurringSpec} (hadv : ∀ t, t < advance parse spec t) {fuel : Nat}
    {now next : Time} (hdue : spec.nextRunAt ≤ now)
    (hnext : nextAfter parse fuel spec now = some next) :
    ∃ m k, 0 < m ∧ m ≤ k ∧ m ≤ maxCatchup + 1 ∧
      computeFires parse spec now = (List.range m).map (point parse spec) ∧
      next = point parse spec k ∧ now < next ∧ (∀ i < k, point parse spec i ≤ now) ∧
      (spec.catchup = true → k ≤ maxCatchup + 1 → m = k) := by
  obtain ⟨k, hk, hlt, hle⟩ := loop_spec hnext
  have hnextp : next = point parse spec (k + 1) := hk
  have hlek : ∀ i < k + 1, point parse spec i ≤ now := by
    intro i hi
    cases i with
    | zero => exact hdue
    | succ i => exact hle i (Nat.lt_of_succ_lt_succ hi)
  have hmono := strictMono hadv spec.nextRunAt
  by_cases hc : spec.catchup = true
  · obtain ⟨m, hm, e, hlem, hltm⟩ := upTo_spec (f := advance parse spec) now maxCatchup spec.nextRunAt
    have hmk : m ≤ k := by
      by_contra hkm
      have h1 : point parse spec (k + 1) ≤ now := hlem k (not_le.mp hkm)
      exact absurd hlt (not_lt.mpr (hnextp ▸ h1))
    refine ⟨m + 1, k + 1, Nat.succ_pos m, Nat.succ_le_succ hmk, Nat.succ_le_succ hm, ?_, hnextp, hlt,
      hlek, fun _ hk' => ?_⟩
    · rw [computeFires, if_pos hc, catchupLoop_eq hadv, e, List.range_succ_eq_map, List.map_cons,
        List.map_map]
      rfl
    · by_contra hne
      have hmlt : m < k := lt_of_le_of_ne hmk fun e' => hne (congrArg (· + 1) e')
      have h1 : now < point parse spec (m + 1) :=
        hltm (lt_of_lt_of_le hmlt (Nat.le_of_succ_le_succ hk'))
      exact absurd h1 (not_lt.mpr (hlek (m + 1) (Nat.succ_lt_succ hmlt)))
  · refine ⟨1, k + 1, Nat.one_pos, Nat.succ_le_succ (Nat.zero_le k), by decide, ?_, hnextp, hlt, hlek,
      fun h => absurd h hc⟩
    rw [computeFires, if_neg hc]
    rfl

theorem map_runAt_fireJobs (uuid : Nat → JobID) (now : Time) (spec : RecurringSpec) :
    (fireJobs parse uuid now spec).map Job.runAt = computeFires parse spec now := by
  unfold fireJobs
  rw [List.map_map]
  exact List.zipIdx_map_fst ..

/-! ## whole runs -/

/-- the state of a run that began with the spec `spec`: `K` points have been passed, the fires are
points before the `K`-th, in order, and none was enqueued before its time -/
structure Along (parse : String → Except String Schedule) (spec : RecurringSpec) (s : Sys) (K : Nat)
    (idx : List Nat) : Prop where
  distinct : Distinct s.store
  stored : ∃ last, atPoint parse spec K last ∈ s.store.recurring
  fires : (s.fires spec.id).map Job.runAt = idx.map (point parse spec)
  sorted : idx.Pairwise (· < ·)
  below : ∀ i ∈ idx, i < K
  due : ∀ j ∈ s.fires spec.id, j.runAt ≤ j.createdAt

/-- what a round does along a run -/
theorem Along.tick {spec : RecurringSpec} (hadv : ∀ t, t < advance parse spec t) {s t : Sys} {K : Nat}
    {idx : List Nat} (A : Along parse spec s K idx) {uuid : JobID → Nat → JobID} {fuel : Nat}
    {now : Time} (h : step parse s (.tick uuid fuel now) = some t) :
    (now < point parse spec K ∧ Along parse spec t K idx) ∨
    (point parse spec K ≤ now ∧ ∃ m k, 0 < m ∧ m ≤ k ∧ m ≤ maxCatchup + 1 ∧
      Along parse spec t (K + k) (idx ++ (List.range m).map (K + ·)) ∧
      now < point parse spec (K + k) ∧ (∀ i < k, point parse spec (K + i) ≤ now) ∧
      (spec.catchup = true → k ≤ maxCatchup + 1 → m = k)) := by
  obtain ⟨last, hlast⟩ := A.stored
  have hd := step_distinct h A.distinct
  rcases tick_round h A.distinct hlast with ⟨hlt, hmem, hf⟩ | ⟨hle, next, hnext, hmem, hf⟩
  · refine Or.inl ⟨hlt, hd, ⟨last, hmem⟩, ?_, A.sorted, A.below, ?_⟩
    · exact (congrArg (List.map Job.runAt) hf).trans A.fires
    · intro j hj
      exact A.due j (hf ▸ hj)
  · have hadv' : ∀ t, t < advance parse (atPoint parse spec K last) t := hadv
    obtain ⟨m, k, hm0, hmk, hmc, hfires, rfl, hlt, hlek, hc⟩ := round_fires hadv' hle hnext
    have hpt : ∀ i, point parse (atPoint parse spec K last) i = point parse spec (K + i) :=
      point_atPoint spec K last
    refine Or.inr ⟨hle, m, k, hm0, hmk, hmc, ⟨hd, ⟨now, ?_⟩, ?_, ?_, ?_, ?_⟩, ?_, ?_, hc⟩
    · rw [hpt k] at hmem
      exact hmem
    · have hf' : t.fires spec.id = s.fires spec.id ++
          fireJobs parse (uuid spec.id) now (atPoint parse spec K last) := hf
      rw [hf', List.map_append, A.fires, map_runAt_fireJobs, hfires, List.map_append, List.map_map]
      exact congrArg _ (List.map_congr_left fun i _ => hpt i)
    · refine List.pairwise_append.mpr ⟨A.sorted, ?_, ?_⟩
      · rw [List.pairwise_map]
        exact List.pairwise_lt_range.imp fun h => Nat.add_lt_add_left h K
      · intro a ha b hb
        obtain ⟨i, _, rfl⟩ := List.mem_map.mp hb
        exact lt_of_lt_of_le (A.below a ha) (Nat.le_add_right K i)
    · intro i hi
      rcases List.mem_append.mp hi with hi | hi
      · exact lt_of_lt_of_le (A.below i hi) (Nat.le_add_right K k)
      · obtain ⟨i', hi', rfl⟩ := List.mem_map.mp hi
        exact Nat.add_lt_add_left (lt_of_lt_of_le (List.mem_range.mp hi') hmk) K
    · intro j hj
      have hj' : j ∈ s.fires spec.id ++ fireJobs parse (uuid spec.id) now (atPoint parse spec K last) :=
        hf ▸ hj
      rcases List.mem_append.mp hj' with hj | hj
      · exact A.due j hj
      · have hrun : j.runAt ∈
            (fireJobs parse (uuid spec.id) now (atPoint parse spec K last)).map Job.runAt :=
          List.mem_map_of_mem hj
        rw [map_runAt_fireJobs, hfires] at hrun
        obtain ⟨i, hi, e⟩ := List.mem_map.mp hrun
        rw [(fireJobs_recurringID hj).2, ← e]
        exact hlek i (lt_of_lt_of_le (List.mem_range.mp hi) hmk)
    · rw [← hpt k]
      exact hlt
    · intro i hi
      rw [← hpt i]
      exact hlek i hi

theorem Along.op {spec : RecurringSpec} {s : Sys} {K : Nat} {idx : List Nat}
    (A : Along parse spec s K idx) {o : Mem.Op} (ho : Leaves spec.id o) :
    Along parse spec ⟨o.apply s.store, s.log⟩ K idx := by
  obtain ⟨last, hlast⟩ := A.stored
  exact ⟨apply_distinct A.distinct o, ⟨last, mem_apply hlast ho⟩, A.fires, A.sorted, A.below, A.due⟩

theorem runOps_distinct (ops : List Mem.Op) : Distinct (Mem.runOps ops) :=
  foldl_distinct (show Distinct Mem.Store.new from List.nodup_nil) ops

theorem init_along {ops : List Mem.Op} {spec : RecurringSpec}
    (h : spec ∈ (Mem.runOps ops).recurring) : Along parse spec ⟨Mem.runOps ops, []⟩ 0 [] :=
  ⟨runOps_distinct ops, ⟨spec.lastFireAt, h⟩, rfl, List.Pairwise.nil, fun _ h => (nomatch h),
    fun _ h => (nomatch h)⟩

/-- an event that leaves the spec in place -/
def Apart (id : JobID) : Event → Prop
  | .tick .. => True
  | .op o => Leaves id o

/-- a move along a run enqueues points from the `K`-th on only -/
theorem Along.move {spec : RecurringSpec} (hadv : ∀ t, t < advance parse spec t) {s t : Sys} {K : Nat}
    {idx : List Nat} (A : Along parse spec s K idx) {e : Event} (he : Apart spec.id e)
    (h : step parse s e = some t) :
    ∃ K' new, K ≤ K' ∧ Along parse spec t K' (idx ++ new) ∧ ∀ i ∈ new, K ≤ i := by
  have hsame : ∀ u, Along parse spec u K idx →
      ∃ K' new, K ≤ K' ∧ Along parse spec u K' (idx ++ new) ∧ ∀ i ∈ new, K ≤ i := by
    intro u A'
    rw [← List.append_nil idx] at A'
    exact ⟨K, [], le_rfl, A', fun _ h => (nomatch h)⟩
  cases e with
  | tick uuid fuel now =>
    rcases A.tick hadv h with ⟨_, A'⟩ | ⟨_, m, k, _, _, _, A', _⟩
    · exact hsame t A'
    · refine ⟨K + k, _, Nat.le_add_right K k, A', fun i hi => ?_⟩
      obtain ⟨n, _, rfl⟩ := List.mem_map.mp hi
      exact Nat.le_add_right K n
  | op o =>
    obtain rfl := Option.some.inj h
    exact hsame _ (A.op he)

theorem run_along {spec : RecurringSpec} (hadv : ∀ t, t < advance parse spec t) {s t : Sys}
    {es : List Event} (hes : ∀ e ∈ es, Apart spec.id e) (hrun : run (step parse) s es = some t)
    {K : Nat} {idx : List Nat} (A : Along parse spec s K idx) :
    ∃ K' new, K ≤ K' ∧ Along parse spec t K' (idx ++ new) ∧ ∀ i ∈ new, K ≤ i := by
  induction es generalizing s K idx with
  | nil =>
    obtain rfl := Option.some.inj hrun
    rw [← List.append_nil idx] at A
    exact ⟨K, [], le_rfl, A, fun _ h => (nomatch h)⟩
  | cons e es ih =>
    obtain ⟨u, hu, hrun⟩ := run_cons.mp hrun
    obtain ⟨K₁, new₁, hK₁, A₁, hnew₁⟩ := A.move hadv (hes e List.mem_cons_self) hu
    obtain ⟨K₂, new₂, hK₂, A₂, hnew₂⟩ := ih (fun x hx => hes x (List.mem_cons_of_mem _ hx)) hrun A₁
    rw [List.append_assoc] at A₂
    refine ⟨K₂, _, le_trans hK₁ hK₂, A₂, fun i hi => ?_⟩
    rcases List.mem_append.mp hi with hi | hi
    · exact hnew₁ i hi
    · exact le_trans hK₁ (hnew₂ i hi)

/-- **A round comes to an end** if every spec that is listed moves strictly forward. -/
theorem tick_total {s : Sys} (h : ∀ x ∈ s.store.recurring, ∀ t, t < advance parse x t)
    (uuid : JobID → Nat → JobID) (now : Time) :
    ∃ fuel t, step parse s (.tick uuid fuel now) = some t := by
  -- each spec has its own number of rounds; the largest is enough for all
  have hops : ∀ specs : List RecurringSpec, (∀ x ∈ specs, ∀ t, t < advance parse x t) →
      ∃ n, ∀ fuel, n ≤ fuel → ∃ ops, tickOps parse uuid fuel now specs = some ops := by
    intro specs
    induction specs with
    | nil => exact fun _ => ⟨0, fun _ _ => ⟨[], rfl⟩⟩
    | cons x specs ih =>
      intro hx
      obtain ⟨n, hn⟩ := ih fun y hy => hx y (List.mem_cons_of_mem _ hy)
      obtain ⟨n', y, hy⟩ : Halts (advance parse x) (fun t => decide (now < t))
          (advance parse x x.nextRunAt) :=
        halts_of_lt (r := advance parse x x.nextRunAt) (fun t _ _ => hx x List.mem_cons_self t) le_rfl
      refine ⟨max n n', fun fuel hf => ?_⟩
      obtain ⟨ops, ho⟩ := hn fuel (le_trans (le_max_left _ _) hf)
      have hnext : nextAfter parse fuel x now = some y :=
        loop_mono (le_trans (le_max_right _ _) hf) hy
      have hown : ∃ own, tickSpecOps parse (uuid x.id) fuel now x = some own := by
        unfold tickSpecOps
        split
        · exact ⟨_, rfl⟩
        · rw [hnext]
          exact ⟨_, rfl⟩
      obtain ⟨own, hown⟩ := hown
      refine ⟨own ++ ops, ?_⟩
      rw [tickOps, hown, ho]
      rfl
  obtain ⟨n, hn⟩ := hops s.store.recurring h
  obtain ⟨ops, ho⟩ := hn n le_rfl
  refine ⟨n, ⟨ops.foldl Mem.Op.apply s.store, s.log ++ ops.filterMap saved⟩, ?_⟩
  show (tickOps parse uuid n now s.store.recurring).map _ = _
  rw [ho]
  rfl

end

/-! ## an interval -/

theorem advance_every {parse : String → Except String Schedule} {spec : RecurringSpec}
    (h : 0 < spec.every) (t : Time) : advance parse spec t = t + spec.every.toInt := if_pos h

theorem point_every {parse : String → Except String Schedule} {spec : RecurringSpec}
    (h : 0 < spec.every) (k : Nat) :
    point parse spec k = spec.nextRunAt + k * spec.every.toInt := by
  induction k with
  | zero =>
    rw [Nat.cast_zero, zero_mul, add_zero]
    rfl
  | succ k ih =>
    show (advance parse spec)^[k + 1] spec.nextRunAt = _
    rw [Function.iterate_succ_apply', advance_every h]
    show point parse spec k + _ = _
    rw [ih]
    push_cast
    ring

/-- every second, from the first second on -/
def everySecond : RecurringSpec :=
  { id := "r", name := "job", queue := "q", every := second, catchup := true, nextRunAt := 1000000000 }

end GS.Recurring
