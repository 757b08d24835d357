import GoSchedule.Lib.Run
import GoSchedule.Recurring.Basic
import GoSchedule.Routes.Backend
import GoSchedule.Scheduler.System

/-!
# The ways of a job into the store

A scheduler on any store: the calls of a user, any number of rounds of recurring runners, and every other
step of the store in between.

* `Scheduler.accept`, `everySpec`, `cronSpec`   what `At`, `Every` and `Cron` check, and what they give
  to the store: `at_eq`, `every_eq`, `cron_eq`;
* `Phase`, `Label`, `step`   where a runner is in its round, and the next move.  A call of the store that
  errs has no step of the store;
* `Configured`   the queue of a call of `Every` or `Cron` is one of the scheduler's.  Neither checks it;
* `jobs_routed`  **then every job in the store is in a queue that a dispatcher drains, and has a handler**, if
  every queue is configured with a positive concurrency;
* `unrouted`     without it the jobs of a schedule go to a queue that nobody drains, and so do those that
  `At` accepts for a queue with the concurrency zero.
-/

namespace GS
namespace Scheduler

/-- the job that `At` saves -/
def accept (sc : Scheduler) (now t : Time) (uuid : JobID) (name : String) (payload : List UInt8)
    (opts : List JobOption) : Except ApiErr Job :=
  if sc.isRegistered name = false then .error (.noHandler name)
  else
    match sc.queues.lookup (atJob now t uuid name payload opts).queue with
    | none => .error (.unknownQueue (atJob now t uuid name payload opts).queue)
    | some _ => .ok (atJob now t uuid name payload opts)

/-- the schedule that `Every` upserts -/
def everySpec (sc : Scheduler) (now : Time) (d : Duration) (uuid : JobID) (name : String)
    (payload : List UInt8) (opts : List JobOption) : Except ApiErr RecurringSpec :=
  if sc.isRegistered name = false then .error (.noHandler name)
  else if d ≤ 0 then .error .interval
  else .ok { buildRecurringSpec uuid name payload opts with every := d, nextRunAt := now.add d }

def cronSpec (sc : Scheduler) (parse : String → Except String Schedule) (now : Time) (expr : String)
    (uuid : JobID) (name : String) (payload : List UInt8) (opts : List JobOption) :
    Except ApiErr RecurringSpec :=
  if sc.isRegistered name = false then .error (.noHandler name)
  else
    match parse expr with
    | .error err => .error (.parseCron expr err)
    | .ok sched =>
      .ok { buildRecurringSpec uuid name payload opts with cron := expr, nextRunAt := sched.next now }

section
variable (sc : Scheduler) (now : Time) (uuid : JobID) (s : Mem.Store) (name : String)
  (payload : List UInt8) (opts : List JobOption)

theorem at_eq (t : Time) : sc.at now t uuid s name payload opts =
    (sc.accept now t uuid name payload opts).map fun j =>
      (s.save j, j.id, [.enqueue j.id j.name j.queue]) := by
  unfold «at» accept
  split
  · rfl
  · dsimp only
    cases sc.queues.lookup (atJob now t uuid name payload opts).queue with
    | none => rfl
    | some c => rfl

theorem every_eq (d : Duration) : sc.every now d uuid s name payload opts =
    (sc.everySpec now d uuid name payload opts).map fun r =>
      (s.upsertRecurring r, r.id, [.enqueue r.id r.name r.queue]) := by
  unfold every everySpec
  split
  · rfl
  · split
    · rfl
    · rfl

theorem cron_eq (parse : String → Except String Schedule) (expr : String) :
    sc.cron parse now expr uuid s name payload opts =
    (sc.cronSpec parse now expr uuid name payload opts).map fun r =>
      (s.upsertRecurring r, r.id, [.enqueue r.id r.name r.queue]) := by
  unfold cron cronSpec
  split
  · rfl
  · cases parse expr with
    | error err => rfl
    | ok sched => rfl

end
end Scheduler

namespace Routes
open Inherit Recurring Scheduler Trans

/-- a runner between two rounds, with the specs of a round that are still to be looked at, or with the
fires of one of them that are still to be saved -/
inductive Phase where
  | idle
  | listed (now : Time) (specs : List RecurringSpec)
  | firing (now : Time) (spec : RecurringSpec) (fires : List Time) (rest : List RecurringSpec)
deriving DecidableEq, Repr

/-- `known` are the IDs that were handed out; `runner` counts the goroutines that run a runner -/
structure Sys (σ : Type) where
  sched : Scheduler
  store : σ
  known : List JobID
  runner : Nat → Phase

/-- `i` is the step in which the store carries the call out, if it does -/
inductive Label (ι : Type) where
  | register (name : String)
  | schedule (now t : Time) (uuid : JobID) (name : String) (payload : List UInt8)
      (opts : List JobOption) (i : Option ι)
  | every (now : Time) (d : Duration) (uuid : JobID) (name : String) (payload : List UInt8)
      (opts : List JobOption) (i : Option ι)
  | cron (now : Time) (expr : String) (uuid : JobID) (name : String) (payload : List UInt8)
      (opts : List JobOption) (i : Option ι)
  | tick (r : Nat) (now : Time)
  | list (r : Nat) (spec : RecurringSpec)
  | take (r : Nat) (leased : Bool)
  | fire (r : Nat) (uuid : JobID) (i : Option ι)
  | next (r : Nat)
  | store (i : ι)
deriving DecidableEq, Repr

section
variable {σ ι : Type} (B : Backend σ ι) (parse : String → Except String Schedule)

def Sys.init (sc : Scheduler) : Sys σ := ⟨sc, B.init, [], fun _ => .idle⟩

def Sys.save (s : Sys σ) (j : Job) : Option ι → Option (Sys σ)
  | none => some s
  | some i =>
    if B.saves i = some j ∧ B.upserts i = none ∧ j.id ∉ s.known then
      (B.step s.store i).map fun st => { s with store := st, known := j.id :: s.known }
    else none

def Sys.upsert (s : Sys σ) (spec : RecurringSpec) : Option ι → Option (Sys σ)
  | none => some s
  | some i =>
    if B.upserts i = some spec ∧ B.saves i = none then
      (B.step s.store i).map fun st => { s with store := st }
    else none

def Sys.setRunner (s : Sys σ) (r : Nat) (p : Phase) : Sys σ :=
  { s with runner := Function.update s.runner r p }

/-- `schedule` is `At`, and so `Now` and `After`.  A round of a runner is `tick`, a `list` for each spec
that `ListRecurring` reads, and then for each of them `take`, with the answer to the lease, and if it is
due a `fire` for each fire and `next`; `UpdateRecurringNextRun` is a `store` step, as are the calls of
dispatchers, workers and the janitor -/
def step (s : Sys σ) : Label ι → Option (Sys σ)
  | .register name => some { s with sched := s.sched.register name }
  | .schedule now t uuid name payload opts i =>
    match s.sched.accept now t uuid name payload opts with
    | .error _ => some s
    | .ok j => s.save B j i
  | .every now d uuid name payload opts i =>
    match s.sched.everySpec now d uuid name payload opts with
    | .error _ => some s
    | .ok spec => s.upsert B spec i
  | .cron now expr uuid name payload opts i =>
    match s.sched.cronSpec parse now expr uuid name payload opts with
    | .error _ => some s
    | .ok spec => s.upsert B spec i
  | .tick r now =>
    match s.runner r with
    | .idle | .listed _ [] => some (s.setRunner r (.listed now []))
    | _ => none
  | .list r spec =>
    match s.runner r with
    | .listed now specs =>
      if spec ∈ B.specs s.store then some (s.setRunner r (.listed now (specs ++ [spec]))) else none
    | _ => none
  | .take r leased =>
    match s.runner r with
    | .listed now (spec :: rest) =>
      if now < spec.nextRunAt ∨ leased = false then some (s.setRunner r (.listed now rest))
      else some (s.setRunner r (.firing now spec (computeFires parse spec now) rest))
    | _ => none
  | .fire r uuid i =>
    match s.runner r with
    | .firing now spec (fireAt :: fires) rest =>
      (s.setRunner r (.firing now spec fires rest)).save B (fireJob spec uuid now fireAt) i
    | _ => none
  | .next r =>
    match s.runner r with
    | .firing now _ [] rest => some (s.setRunner r (.listed now rest))
    | _ => none
  | .store i =>
    if B.saves i = none ∧ B.upserts i = none then
      (B.step s.store i).map fun st => { s with store := st }
    else none

end

/-- the queue that the options leave is a queue of the scheduler -/
def Configured {ι : Type} (sc : Scheduler) : Label ι → Prop
  | .every _ _ uuid name payload opts _ =>
    sc.queues.lookup (buildRecurringSpec uuid name payload opts).queue ≠ none
  | .cron _ _ uuid name payload opts _ =>
    sc.queues.lookup (buildRecurringSpec uuid name payload opts).queue ≠ none
  | _ => True

instance {ι : Type} (sc : Scheduler) : DecidablePred (@Configured ι sc)
  | .every .. => inferInstanceAs (Decidable (_ ≠ _))
  | .cron .. => inferInstanceAs (Decidable (_ ≠ _))
  | .register _ | .schedule .. | .tick .. | .list .. | .take .. | .fire .. | .next _ | .store _ =>
    isTrue trivial

/-! ## the invariant -/

/-- a queue with a dispatcher, and a name with a handler -/
def Good (queues : List (String × Int)) (sc : Scheduler) (queue name : String) : Prop :=
  queues.lookup queue ≠ none ∧ sc.isRegistered name = true

/-- the specs that a runner has in hand -/
def Phase.specs : Phase → List RecurringSpec
  | .idle => []
  | .listed _ specs => specs
  | .firing _ spec _ rest => spec :: rest

structure Routed {σ ι : Type} (B : Backend σ ι) (Q : List (String × Int)) (s : Sys σ) : Prop where
  queues : s.sched.queues = Q
  inv : B.Inv s.store
  known : ∀ j ∈ B.jobs s.store, j.id ∈ s.known
  jobs : ∀ j ∈ B.jobs s.store, Good Q s.sched j.queue j.name
  specs : ∀ spec ∈ B.specs s.store, Good Q s.sched spec.queue spec.name
  runner : ∀ r, ∀ spec ∈ (s.runner r).specs, Good Q s.sched spec.queue spec.name

section
variable {σ ι : Type} {B : Backend σ ι} {parse : String → Except String Schedule}
  {Q : List (String × Int)} {s t : Sys σ}

theorem init_routed (sc : Scheduler) : Routed B sc.queues (Sys.init B sc) where
  queues := rfl
  inv := B.inv_init
  known := fun j hj => by
    rw [Sys.init, B.jobs_init] at hj
    exact absurd hj (Set.notMem_empty j)
  jobs := fun j hj => by
    rw [Sys.init, B.jobs_init] at hj
    exact absurd hj (Set.notMem_empty j)
  specs := fun r hr => by
    rw [Sys.init, B.specs_init] at hr
    cases hr
  runner := fun _ _ h => (nomatch h)

theorem Good.register {sc : Scheduler} {queue name : String} (h : Good Q sc queue name)
    (n : String) : Good Q (sc.register n) queue name := by
  refine ⟨h.1, ?_⟩
  have hmem := List.contains_iff_mem.mp h.2
  exact List.contains_iff_mem.mpr (List.mem_cons_of_mem n hmem)

theorem Routed.register (hr : Routed B Q s) (name : String) :
    Routed B Q { s with sched := s.sched.register name } where
  queues := hr.queues
  inv := hr.inv
  known := hr.known
  jobs := fun j hj => (hr.jobs j hj).register name
  specs := fun r hj => (hr.specs r hj).register name
  runner := fun r spec hj => (hr.runner r spec hj).register name

theorem Routed.setRunner (hr : Routed B Q s) {r : Nat} {p : Phase}
    (hp : ∀ spec ∈ p.specs, Good Q s.sched spec.queue spec.name) :
    Routed B Q (s.setRunner r p) where
  queues := hr.queues
  inv := hr.inv
  known := hr.known
  jobs := hr.jobs
  specs := hr.specs
  runner := fun k => by
    show ∀ spec ∈ (Function.update s.runner r p k).specs, _
    by_cases e : k = r
    · subst e
      rw [Function.update_self]
      exact hp
    · rw [Function.update_of_ne e]
      exact hr.runner k

/-- **A step of the store**, and what the invariant needs of the job or the schedule that it brings -/
theorem Routed.store_step (hr : Routed B Q s) {i : ι} {st : σ} (h : B.step s.store i = some st)
    {known : List JobID} (hknown : s.known ⊆ known)
    (hsave : ∀ j, B.saves i = some j → j.state = statePending ∧ j.id ∉ s.known ∧ j.id ∈ known ∧
      Good Q s.sched j.queue j.name)
    (hupsert : ∀ r, B.upserts i = some r → Good Q s.sched r.queue r.name) :
    Routed B Q { s with store := st, known := known } := by
  have hfresh : ∀ j, B.saves i = some j →
      j.state = statePending ∧ ∀ k ∈ B.jobs s.store, k.id ≠ j.id := by
    intro j hj
    obtain ⟨hp, hnew, _⟩ := hsave j hj
    exact ⟨hp, fun k hk e => hnew (e ▸ hr.known k hk)⟩
  have hjobs := B.jobs_step s.store i st hr.inv hfresh h
  have hspecs := B.specs_step s.store i st hr.inv h
  refine ⟨hr.queues, B.inv_step s.store i st hr.inv hfresh h, ?_, ?_, ?_, hr.runner⟩
  · refine Inherits.forall (P := fun c => c.1 ∈ known) hjobs (fun j hj => hknown (hr.known j hj)) ?_
    intro c hc
    obtain ⟨j, hj, rfl⟩ := hc
    exact (hsave j hj).2.2.1
  · refine Inherits.forall (P := fun c => Good Q s.sched c.2.1 c.2.2) hjobs hr.jobs ?_
    intro c hc
    obtain ⟨j, hj, rfl⟩ := hc
    exact (hsave j hj).2.2.2
  · refine Inherits.forall (P := fun c : String × String => Good Q s.sched c.1 c.2) hspecs hr.specs ?_
    intro c hc
    obtain ⟨r, hr, rfl⟩ := hc
    exact hupsert r hr

theorem Routed.save (hr : Routed B Q s) {j : Job} (hp : j.state = statePending)
    (hgood : Good Q s.sched j.queue j.name) {i : Option ι} (h : s.save B j i = some t) :
    Routed B Q t := by
  cases i with
  | none =>
    obtain rfl := Option.some.inj h
    exact hr
  | some i =>
    obtain ⟨⟨hsave, hupsert, hnew⟩, h⟩ := Option.ite_none_right_eq_some.mp h
    obtain ⟨st, hst, rfl⟩ := Option.map_eq_some_iff.mp h
    refine hr.store_step hst (List.subset_cons_self _ _) (fun k hk => ?_) fun r hu => ?_
    · rw [hsave] at hk
      obtain rfl := Option.some.inj hk
      exact ⟨hp, hnew, List.mem_cons_self, hgood⟩
    · rw [hupsert] at hu
      cases hu

theorem Routed.upsert (hr : Routed B Q s) {spec : RecurringSpec}
    (hgood : Good Q s.sched spec.queue spec.name) {i : Option ι}
    (h : s.upsert B spec i = some t) : Routed B Q t := by
  cases i with
  | none =>
    obtain rfl := Option.some.inj h
    exact hr
  | some i =>
    obtain ⟨⟨hupsert, hsave⟩, h⟩ := Option.ite_none_right_eq_some.mp h
    obtain ⟨st, hst, rfl⟩ := Option.map_eq_some_iff.mp h
    refine hr.store_step hst (List.Subset.refl _) (fun k hk => ?_) fun r hu => ?_
    · rw [hsave] at hk
      cases hk
    · rw [hupsert] at hu
      obtain rfl := Option.some.inj hu
      exact hgood

/-! ## what the calls check -/

/-- `At` checks both -/
theorem accept_good {sc : Scheduler} {now u : Time} {uuid : JobID} {name : String}
    {payload : List UInt8} {opts : List JobOption} {j : Job}
    (h : sc.accept now u uuid name payload opts = .ok j) :
    j.state = statePending ∧ Good sc.queues sc j.queue j.name := by
  unfold accept at h
  split at h
  · cases h
  · rename_i hreg
    split at h
    · cases h
    · rename_i c hq
      cases h
      obtain ⟨_, hname, _, _, hstate⟩ := atJob_kept now u uuid name payload opts
      refine ⟨hstate, by rw [hq]; simp, ?_⟩
      rw [hname]
      exact Bool.not_eq_false _ ▸ hreg

/-- `Every` and `Cron` check the name only -/
theorem everySpec_ok {sc : Scheduler} {now : Time} {d : Duration} {uuid : JobID} {name : String}
    {payload : List UInt8} {opts : List JobOption} {spec : RecurringSpec}
    (h : sc.everySpec now d uuid name payload opts = .ok spec) :
    sc.isRegistered spec.name = true ∧
      spec.queue = (buildRecurringSpec uuid name payload opts).queue := by
  unfold everySpec at h
  split at h
  · cases h
  · rename_i hreg
    split at h
    · cases h
    · cases h
      exact ⟨Bool.not_eq_false _ ▸ hreg, rfl⟩

theorem cronSpec_ok {sc : Scheduler} {now : Time} {expr : String} {uuid : JobID} {name : String}
    {payload : List UInt8} {opts : List JobOption} {spec : RecurringSpec}
    (h : sc.cronSpec parse now expr uuid name payload opts = .ok spec) :
    sc.isRegistered spec.name = true ∧
      spec.queue = (buildRecurringSpec uuid name payload opts).queue := by
  unfold cronSpec at h
  split at h
  · cases h
  · rename_i hreg
    split at h
    · cases h
    · cases h
      exact ⟨Bool.not_eq_false _ ▸ hreg, rfl⟩

/-! ## one move -/

theorem step_routed {sc : Scheduler} {a : Label ι} (hr : Routed B sc.queues s) (hc : Configured sc a)
    (h : step B parse s a = some t) : Routed B sc.queues t := by
  cases a with
  | register name =>
    rw [← Option.some.inj h]
    exact hr.register name
  | schedule now u uuid name payload opts i =>
    simp only [step] at h
    split at h
    · rw [← Option.some.inj h]
      exact hr
    · rename_i j hj
      obtain ⟨hp, hgood⟩ := accept_good hj
      rw [hr.queues] at hgood
      exact hr.save hp hgood h
  | every now d uuid name payload opts i =>
    simp only [step] at h
    split at h
    · rw [← Option.some.inj h]
      exact hr
    · rename_i spec hspec
      obtain ⟨hreg, hq⟩ := everySpec_ok hspec
      exact hr.upsert ⟨hq ▸ hc, hreg⟩ h
  | cron now expr uuid name payload opts i =>
    simp only [step] at h
    split at h
    · rw [← Option.some.inj h]
      exact hr
    · rename_i spec hspec
      obtain ⟨hreg, hq⟩ := cronSpec_ok hspec
      exact hr.upsert ⟨hq ▸ hc, hreg⟩ h
  | tick r now =>
    simp only [step] at h
    split at h
    · rw [← Option.some.inj h]
      exact hr.setRunner fun _ hm => (nomatch hm)
    · rw [← Option.some.inj h]
      exact hr.setRunner fun _ hm => (nomatch hm)
    · cases h
  | list r spec =>
    simp only [step] at h
    split at h
    · rename_i now specs hrun
      obtain ⟨hspec, h⟩ := Option.ite_none_right_eq_some.mp h
      rw [← Option.some.inj h]
      refine hr.setRunner fun x hx => ?_
      rcases List.mem_append.mp hx with hx | hx
      · exact hr.runner r x (by rw [hrun]; exact hx)
      · rw [List.mem_singleton.mp hx]
        exact hr.specs spec hspec
    · cases h
  | take r leased =>
    simp only [step] at h
    split at h
    · rename_i now spec rest hrun
      have hin : ∀ x ∈ spec :: rest, Good sc.queues s.sched x.queue x.name :=
        fun x hx => hr.runner r x (by rw [hrun]; exact hx)
      split at h
      · rw [← Option.some.inj h]
        exact hr.setRunner fun x hx => hin x (List.mem_cons_of_mem _ hx)
      · rw [← Option.some.inj h]
        exact hr.setRunner hin
    · cases h
  | fire r uuid i =>
    simp only [step] at h
    split at h
    · rename_i now spec fireAt fires rest hrun
      have hin : ∀ x ∈ spec :: rest, Good sc.queues s.sched x.queue x.name :=
        fun x hx => hr.runner r x (by rw [hrun]; exact hx)
      have hmoved : Routed B sc.queues (s.setRunner r (.firing now spec fires rest)) :=
        hr.setRunner hin
      exact hmoved.save (j := fireJob spec uuid now fireAt) rfl (hin spec List.mem_cons_self) h
    · cases h
  | next r =>
    simp only [step] at h
    split at h
    · rename_i now spec rest hrun
      rw [← Option.some.inj h]
      refine hr.setRunner fun x hx => ?_
      exact hr.runner r x (by rw [hrun]; exact List.mem_cons_of_mem _ hx)
    · cases h
  | store i =>
    obtain ⟨⟨hsave, hupsert⟩, h⟩ := Option.ite_none_right_eq_some.mp h
    obtain ⟨st, hst, rfl⟩ := Option.map_eq_some_iff.mp h
    refine hr.store_step hst (List.Subset.refl _) (fun k hk => ?_) fun r hu => ?_
    · rw [hsave] at hk
      cases hk
    · rw [hupsert] at hu
      cases hu

end

/-- a label that brings no job into the store -/
def Executes : GS.Label → Prop
  | .save _ | .schedule .. | .fire .. => False
  | _ => True

/-- **Executions are `store` steps**: whatever dispatchers and workers do with a memstore is an operation
that saves nothing and upserts nothing. -/
theorem execution_store {s t : GS.Sys} {a : GS.Label} (ha : Executes a) (h : GS.step s a = some t) :
    t.store = s.store ∨
      ∃ op : Mem.Op, op.saves = none ∧ op.upserts = none ∧ t.store = op.apply s.store := by
  cases a with
  | save j => exact ha.elim
  | schedule now u uuid name payload opts => exact ha.elim
  | fire spec uuid now fireAt => exact ha.elim
  | register name =>
    rw [← Option.some.inj h]
    exact Or.inl rfl
  | cancel id =>
    rw [← Option.some.inj h]
    exact Or.inr ⟨.cancel id, rfl, rfl, rfl⟩
  | reschedule id u =>
    rw [← Option.some.inj h]
    exact Or.inr ⟨.reschedule id u, rfl, rfl, rfl⟩
  | claim q now =>
    simp only [GS.step] at h
    split at h
    · rename_i c _ _
      obtain ⟨r, hr, rfl⟩ := Option.map_eq_some_iff.mp h
      refine Or.inr ⟨.claimDue q now c s.sched.workerID (now.add s.sched.visibilityTimeout), rfl, rfl, ?_⟩
      show r.1 = ((s.store.claimDue q now c s.sched.workerID _).map Prod.fst).getD s.store
      rw [hr]
      rfl
    · cases h
  | send q =>
    simp only [GS.step] at h
    split at h
    · obtain ⟨_, h⟩ := Option.ite_none_right_eq_some.mp h
      rw [← Option.some.inj h]
      exact Or.inl rfl
    · cases h
  | receive q i =>
    simp only [GS.step] at h
    split at h
    · rw [← Option.some.inj h]
      exact Or.inl rfl
    · cases h
  | lookup q i =>
    simp only [GS.step] at h
    split at h
    · split at h
      · rw [← Option.some.inj h]
        exact Or.inl rfl
      · rw [← Option.some.inj h]
        exact Or.inl rfl
    · cases h
  | finish q i x =>
    simp only [GS.step] at h
    split at h
    · obtain ⟨d, hd, rfl⟩ := Option.map_eq_some_iff.mp h
      obtain ⟨j, _, _, hstore, _⟩ := Worker.finish_spec hd
      cases hcall : d.call with
      | ack id =>
        rw [hcall] at hstore
        exact Or.inr ⟨.ack id, rfl, rfl, hstore⟩
      | fail id msg u =>
        rw [hcall] at hstore
        exact Or.inr ⟨.fail id msg u, rfl, rfl, hstore⟩
    · cases h

/-! ## whole runs -/

/-- a queue of the scheduler with a positive concurrency has workers, and a dispatcher that claims -/
theorem exists_concurrency {sc : Scheduler} {q : String} {c : Int} (hq : sc.queues.lookup q = some c)
    (hc : 0 < c) : ∃ n, 0 < n ∧ sc.concurrency q = some n := by
  unfold Scheduler.concurrency
  rw [hq]
  cases c with
  | ofNat n => exact ⟨n, Int.natCast_pos.mp hc, rfl⟩
  | negSucc n => exact absurd hc (by omega)

/-- **Every job in the store is in a queue of the scheduler, with a dispatcher that claims, and has a
handler**, if the queues have workers and the calls of `Every` and `Cron` chose among them. -/
theorem jobs_routed {σ ι : Type} (B : Backend σ ι) (parse : String → Except String Schedule)
    (sc : Scheduler) (l : List (Label ι)) (s : Sys σ) (hrun : run (step B parse) (Sys.init B sc) l = some s)
    (hpos : ∀ q ∈ sc.queues, 0 < q.2) (hc : ∀ a ∈ l, Configured sc a) :
    ∀ j ∈ B.jobs s.store, s.sched.isRegistered j.name = true ∧
      (∃ c, sc.queues.lookup j.queue = some c) ∧ ∃ n, 0 < n ∧ sc.concurrency j.queue = some n := by
  have hrouted : Routed B sc.queues s :=
    run_keep_of (fun _ _ _ hr hc h => step_routed hr hc h) (meets_of_forall fun a ha _ => hc a ha)
      (init_routed sc) hrun
  intro j hj
  obtain ⟨hq, hreg⟩ := hrouted.jobs j hj
  obtain ⟨c, hlookup⟩ := Option.ne_none_iff_exists'.mp hq
  obtain ⟨_, _, e, _⟩ := List.lookup_eq_some_iff.mp hlookup
  have hmem : (j.queue, c) ∈ sc.queues := e ▸ List.mem_append_right _ List.mem_cons_self
  exact ⟨hreg, ⟨c, hlookup⟩, exists_concurrency hlookup (hpos _ hmem)⟩

/-! ## runs -/

/-- a scheduler without the queue `default` -/
def emails : Scheduler := { oneHandler with queues := [("emails", 4)] }

/-- `Every` with some options, and a round in which the schedule is due -/
def oneRound (opts : List JobOption) : List (Label Mem.Op) :=
  let spec := { buildRecurringSpec "r" "job" [] opts with every := second, nextRunAt := 1000000000 }
  [.every 0 second "r" "job" [] opts (some (.upsertRecurring spec)), .tick 0 2000000000, .list 0 spec,
    .take 0 true, .fire 0 "j" (some (.save (fireJob spec "j" 2000000000 1000000000))), .next 0,
    .store (.updateRecurringNextRun "r" 3000000000 2000000000)]

theorem jobs_routed_every : ∃ s, run (step Mem.backend noCron) (Sys.init Mem.backend emails)
      (oneRound [.withQueue "emails"]) = some s ∧
    (∃ j, s.store.jobs "j" = some j ∧ j.queue = "emails") ∧
    ∀ j ∈ Mem.backend.jobs s.store, s.sched.isRegistered j.name = true ∧
      (∃ c, emails.queues.lookup j.queue = some c) ∧
        ∃ n, 0 < n ∧ emails.concurrency j.queue = some n := by
  have hsome : ((run (step Mem.backend noCron) (Sys.init Mem.backend emails)
      (oneRound [.withQueue "emails"])).bind fun s => s.store.jobs "j").map Job.queue =
        some "emails" := by decide +kernel
  obtain ⟨j, hj, hq⟩ := Option.map_eq_some_iff.mp hsome
  obtain ⟨s, hs, hj⟩ := Option.bind_eq_some_iff.mp hj
  exact ⟨s, hs, ⟨j, hj, hq⟩,
    jobs_routed Mem.backend noCron emails _ s hs (by decide) (by decide +kernel)⟩

/-- a scheduler whose queue has no workers -/
def unstaffed : Scheduler := { oneHandler with queues := [("default", 0)] }

/-- **Jobs that nobody drains.**  `At` refuses the queue `default`, which this scheduler does not have.
`Every` accepts it, and the runner saves a pending job there.  And `At` accepts a job for a queue with the
concurrency zero, whose dispatcher claims no jobs. -/
theorem unrouted :
    emails.accept 0 0 "j" "job" [] [] = .error (.unknownQueue "default") ∧
    ((run (step Mem.backend noCron) (Sys.init Mem.backend emails) (oneRound [])).bind fun s =>
      s.store.jobs "j").map (fun j => (j.queue, j.state)) = some ("default", statePending) ∧
    emails.queues.lookup "default" = none ∧ emails.concurrency "default" = none ∧
    (unstaffed.accept 0 0 "j" "job" [] []).toOption.map Job.queue = some "default" ∧
    unstaffed.concurrency "default" = some 0 := by
  refine ⟨?_, ?_, ?_, ?_, ?_, ?_⟩ <;> decide +kernel

end Routes
end GS
