import GoSchedule.Lib.Inherit
import GoSchedule.MemStore.Map
import GoSchedule.Recurring.Ticks

/-!
# What a store does to queues and names

A store as the scheduler sees it: a state, steps, the jobs and the schedules that are in it.  The step of
one store is a whole call, of another one statement of a call.

* `Backend`   a store with its steps.  A step saves a job, or upserts a schedule, or is any other step of
  any call: claims, the calls of a worker, `Cancel`, `Reschedule`, leases, recovery;
* `jobs_step`, `specs_step`   only a step that saves brings in a job, and no step changes the queue or
  the name of one that is there; the same for schedules;
* `Mem.backend`   the memstore.
-/

namespace GS.Routes
open Inherit

def tag (j : Job) : JobID × String × String := (j.id, j.queue, j.name)

def specTag (r : RecurringSpec) : String × String := (r.queue, r.name)

/-- `Inv` is what the store's own steps keep, as long as an ID is saved once, and as a pending job -/
structure Backend (σ ι : Type) where
  init : σ
  step : σ → ι → Option σ
  saves : ι → Option Job
  upserts : ι → Option RecurringSpec
  jobs : σ → Set Job
  specs : σ → List RecurringSpec
  Inv : σ → Prop
  inv_init : Inv init
  jobs_init : jobs init = ∅
  specs_init : specs init = []
  inv_step : ∀ s i t, Inv s →
    (∀ j, saves i = some j → j.state = statePending ∧ ∀ k ∈ jobs s, k.id ≠ j.id) →
    step s i = some t → Inv t
  jobs_step : ∀ s i t, Inv s →
    (∀ j, saves i = some j → j.state = statePending ∧ ∀ k ∈ jobs s, k.id ≠ j.id) →
    step s i = some t → Inherits tag {c | ∃ j, saves i = some j ∧ tag j = c} (jobs s) (jobs t)
  specs_step : ∀ s i t, Inv s → step s i = some t →
    Inherits specTag {c | ∃ r, upserts i = some r ∧ specTag r = c} {r | r ∈ specs s} {r | r ∈ specs t}

end GS.Routes

/-! ## the memstore -/

namespace GS.Mem
open Inherit Routes Sim

def Op.saves : Op → Option Job
  | .save j => some j
  | _ => none

def Op.upserts : Op → Option RecurringSpec
  | .upsertRecurring spec => some spec
  | _ => none

/-- a call on one record that keeps its tag, or deletes it -/
theorem onState_inherits {m : JobMap} {N : Set (JobID × String × String)} (id : JobID) (st : State)
    (wrong : StoreErr) {act : Job → Option Job} (hact : ∀ j k, act j = some k → tag k = tag j) :
    Inherits tag N (values m) (values (m.onState id st wrong act).2) := by
  unfold JobMap.onState
  cases hj : m id with
  | none => exact of_subset subset_rfl
  | some j =>
    dsimp only
    split
    · refine values_update fun k hk => Or.inl ⟨j, ⟨id, hj⟩, ?_⟩
      exact (hact j k hk).symm
    · exact of_subset subset_rfl

theorem claims_inherits {m m' : JobMap} {N : Set (JobID × String × String)} {q : String} {now : Time}
    {n : Int} {w : String} {lu : Time} {L : List Job} (h : Claims m q now n w lu L m') :
    Inherits tag N (values m) (values m') := by
  refine values_map fun id k hk => ?_
  by_cases hid : ∃ j ∈ L, j.id = id
  · obtain ⟨j, hj, rfl⟩ := hid
    rw [h.claimed j hj] at hk
    exact ⟨j, (h.pending j hj).1, Option.some.inj hk ▸ rfl⟩
  · rw [h.others id fun j hj e => hid ⟨j, hj, e⟩] at hk
    exact ⟨k, hk, rfl⟩

theorem mapStep_inherits {m m' : JobMap} {op : Op} {r : Res} (h : MapStep m op r m') :
    Inherits tag {c | ∃ j, op.saves = some j ∧ tag j = c} (values m) (values m') := by
  cases h with
  | save j =>
    refine values_update fun k hk => Or.inr ⟨j, rfl, ?_⟩
    rw [Option.some.inj hk]
  | claimDue h => exact claims_inherits h
  | claimNegative hn hr => exact of_subset subset_rfl
  | ack id => exact onState_inherits _ _ _ fun _ _ e => (nomatch e)
  | fail id msg t =>
    refine onState_inherits _ _ _ fun j k e => ?_
    split at e
    · cases e
    · rw [← Option.some.inj e]
      rfl
  | cancel id => exact onState_inherits _ _ _ fun _ _ e => (nomatch e)
  | reschedule id t =>
    refine onState_inherits _ _ _ fun j k e => ?_
    rw [← Option.some.inj e]
    rfl
  | upsertRecurring spec => exact of_subset subset_rfl
  | deleteRecurring id => exact of_subset subset_rfl
  | updateRecurringNextRun id next last => exact of_subset subset_rfl

/-- an operation adds no schedule but the one that it upserts -/
theorem apply_inherits (s : Store) (op : Op) :
    Inherits specTag {c | ∃ r, op.upserts = some r ∧ specTag r = c} {r | r ∈ s.recurring}
      {r | r ∈ (op.apply s).recurring} := by
  cases op with
  | upsertRecurring spec =>
    refine of_new fun r hr => ?_
    rcases List.mem_append.mp hr with hr | hr
    · exact Or.inl (List.mem_of_mem_filter hr)
    · exact Or.inr ⟨spec, rfl, by rw [List.mem_singleton.mp hr]⟩
  | deleteRecurring id => exact of_subset fun r hr => List.mem_of_mem_filter hr
  | updateRecurringNextRun id next last =>
    refine of_keeps fun r hr => ?_
    obtain ⟨x, hx, rfl⟩ := List.mem_map.mp hr
    refine ⟨x, hx, ?_⟩
    split
    · rfl
    · rfl
  | _ =>
    rw [Recurring.apply_recurring]
    · exact of_subset subset_rfl
    · exact fun _ => trivial

def backend : Backend Store Op where
  init := Store.new
  step := fun s op => some (op.apply s)
  saves := Op.saves
  upserts := Op.upserts
  jobs := fun s => values s.jobs
  specs := fun s => s.recurring
  Inv := Inv
  inv_init := new_inv
  jobs_init := Set.eq_empty_of_forall_notMem fun _ h => by
    obtain ⟨_, h⟩ := h
    cases h
  specs_init := rfl
  inv_step := fun s op t v _ h => by
    rw [← Option.some.inj h]
    exact apply_inv v op
  jobs_step := fun s op t v _ h => by
    obtain ⟨m', hstep, hs⟩ := stands_simulates s s.jobs op (op.call s).1 (op.call s).2 ⟨v, rfl⟩ rfl
    rw [← Option.some.inj h, ← call_apply, hs.2]
    exact mapStep_inherits hstep
  specs_step := fun s op t _ h => by
    rw [← Option.some.inj h]
    exact apply_inherits s op

end GS.Mem
