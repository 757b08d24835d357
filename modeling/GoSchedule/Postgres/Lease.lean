import GoSchedule.Lib.Run
import GoSchedule.Postgres.Basic

/-!
# Recurring runners on one Postgres store

Any number of schedulers, each with its own worker ID and one `recurringRunner`, share the tables.  A
round of a runner reads its clock, lists the specs, and for each due spec takes the lease, saves the
fires and writes the next fire time; every call is one step, and other runners and the server's clock
move in between.

* `Phase`, `Move`, `step`   a runner between two calls, and the next call;
* `stale_listing_fires_twice`   the lease is taken for a spec that was listed earlier: a runner that
  is late by more than the lease fires a period again;
* `Serial`       a lease is granted only for a listing that is still right, to a runner that is alone
  on the spec, and an interval is not below a microsecond;
* `fires_once`   **in a run whose grants are serial no period is fired twice.**

`Every` and `Cron` have stored the specs before.  The clocks of the schedulers are arbitrary.
-/

namespace GS.Postgres
open Recurring Trans

inductive Phase where
  | idle
  | woken (now : Time)
  | looping (now : Time) (specs : List RecurringSpec)
  | firing (now : Time) (spec : RecurringSpec) (fires : List Time) (rest : List RecurringSpec)

/-- the spec for which a runner holds a lease and has not written the next fire time -/
def Phase.spec : Phase → Option JobID
  | .firing _ spec _ _ => some spec.id
  | _ => none

structure Runners where
  rows : List RecurringSpec
  clock : Time
  workers : List String
  phase : String → Phase
  saved : List Job

namespace Runners

def init (workers : List String) (specs : List RecurringSpec) (clock : Time) : Runners :=
  ⟨specs.foldl upsertRecurring [], clock, workers, fun _ => .idle, []⟩

def set (s : Runners) (w : String) (p : Phase) : Runners :=
  { s with phase := Function.update s.phase w p }

/-- no two saved jobs have one `RecurringID` and one `RunAt` -/
def FiredOnce (s : Runners) : Prop := (s.saved.map fun j => (j.recurringID, j.runAt)).Nodup

instance (s : Runners) : Decidable s.FiredOnce := inferInstanceAs (Decidable (List.Nodup _))

end Runners

inductive Move where
  | wake (w : String) (now : Time)
  | list (w : String) (specs : List RecurringSpec)
  | next (w : String)
  | acquire (w : String)
  | save (w : String) (uuid : JobID)
  | update (w : String) (fuel : Nat)
  | tick (d : Nat)

section
variable (parse : String → Except String Schedule) (leaseEvery : String → Duration)

/-- `next` passes over a spec that is not due, or ends the round; the rows of a listing come in any
order -/
def step (s : Runners) : Move → Option Runners
  | .wake w now =>
    match s.phase w with
    | .idle => if w ∈ s.workers then some (s.set w (.woken now)) else none
    | _ => none
  | .list w specs =>
    match s.phase w with
    | .woken now => if specs.Perm s.rows then some (s.set w (.looping now specs)) else none
    | _ => none
  | .next w =>
    match s.phase w with
    | .looping _ [] => some (s.set w .idle)
    | .looping now (spec :: rest) =>
      if now < spec.nextRunAt then some (s.set w (.looping now rest)) else none
    | _ => none
  | .acquire w =>
    match s.phase w with
    | .looping now (spec :: rest) =>
      if now < spec.nextRunAt then none
      else
        let r := acquireLease spec.id (now.add (leaseEvery w)) w s.clock s.rows
        if r.2 then
          some { s.set w (.firing now spec (computeFires parse spec now) rest) with rows := r.1 }
        else some (s.set w (.looping now rest))
    | _ => none
  | .save w uuid =>
    match s.phase w with
    | .firing now spec (f :: fs) rest =>
      if uuid ∉ s.saved.map Job.id then
        some { s.set w (.firing now spec fs rest) with
          saved := s.saved ++ [storedJob (fireJob spec uuid now f)] }
      else none
    | _ => none
  | .update w fuel =>
    match s.phase w with
    | .firing now spec [] rest =>
      (nextAfter parse fuel spec now).map fun next =>
        { s.set w (.looping now rest) with rows := updateRecurringNextRun spec.id next now s.rows }
    | _ => none
  | .tick d => some { s with clock := s.clock + d }

/-- the condition on a grant, for the spec as the runner has listed it -/
def Settled (s : Runners) (spec : RecurringSpec) : Prop :=
  (∃ r ∈ s.rows, r.id = spec.id ∧ r.nextRunAt = spec.nextRunAt) ∧
    (∀ w ∈ s.workers, (s.phase w).spec ≠ some spec.id) ∧
    (0 < spec.every → microsecond ≤ spec.every)

instance (s : Runners) (spec : RecurringSpec) : Decidable (Settled s spec) :=
  inferInstanceAs (Decidable (_ ∧ _))

/-- if the worker in this phase asks for a lease now and gets it, the state is settled -/
def SettledGrant (s : Runners) (w : String) : Phase → Prop
  | .looping now (spec :: _) =>
    (acquireLease spec.id (now.add (leaseEvery w)) w s.clock s.rows).2 = true → Settled s spec
  | _ => True

instance (s : Runners) (w : String) : ∀ p, Decidable (SettledGrant leaseEvery s w p)
  | .looping _ (_ :: _) => inferInstanceAs (Decidable (_ = true → Settled _ _))
  | .looping _ [] => isTrue trivial
  | .idle => isTrue trivial
  | .woken _ => isTrue trivial
  | .firing _ _ _ _ => isTrue trivial

/-- every lease that is granted is granted in a settled state -/
def Serial (s : Runners) : Move → Prop
  | .acquire w => SettledGrant leaseEvery s w (s.phase w)
  | _ => True

instance (s : Runners) (a : Move) : Decidable (Serial leaseEvery s a) := by
  cases a <;> unfold Serial <;> infer_instance

/-! ## the invariant -/

/-- what is left to save and the next fire are later than all that was saved for the spec -/
structure Ready (saved : List Job) (now : Time) (spec : RecurringSpec) (fires : List Time) : Prop where
  sorted : fires.Pairwise fun a b => pgTime a < pgTime b
  saved_lt : ∀ j ∈ saved, j.recurringID = spec.id → ∀ f ∈ fires, j.runAt < pgTime f
  saved_lt_next : ∀ fuel next, nextAfter parse fuel spec now = some next →
    ∀ j ∈ saved, j.recurringID = spec.id → j.runAt < pgTime next
  lt_next : ∀ fuel next, nextAfter parse fuel spec now = some next → ∀ f ∈ fires, pgTime f < pgTime next

structure Inv (s : Runners) : Prop where
  outside : ∀ w, w ∉ s.workers → s.phase w = .idle
  alone : ∀ w w' id, (s.phase w).spec = some id → (s.phase w').spec = some id → w = w'
  aligned : ∀ r ∈ s.rows, pgTime r.nextRunAt = r.nextRunAt
  free : ∀ r ∈ s.rows, (∀ w, (s.phase w).spec ≠ some r.id) →
    ∀ j ∈ s.saved, j.recurringID = r.id → j.runAt < r.nextRunAt
  firing : ∀ w now spec fires rest, s.phase w = .firing now spec fires rest →
    Ready parse s.saved now spec fires
  once : s.FiredOnce

end

section
variable {parse : String → Except String Schedule} {leaseEvery : String → Duration}
  {s t : Runners} {w : String}

theorem init_inv (workers : List String) (specs : List RecurringSpec) (clock : Time) :
    Inv parse (Runners.init workers specs clock) where
  outside := fun _ _ => rfl
  alone := fun _ _ _ h => by cases h
  aligned := by
    suffices h : ∀ rows : List RecurringSpec, (∀ r ∈ rows, pgTime r.nextRunAt = r.nextRunAt) →
        ∀ r ∈ specs.foldl upsertRecurring rows, pgTime r.nextRunAt = r.nextRunAt from
      h [] (by simp)
    induction specs with
    | nil => exact fun _ h => h
    | cons spec specs ih => exact fun rows h => ih _ (aligned_upsert h)
  free := fun _ _ _ _ h => by cases h
  firing := fun _ _ _ _ _ h => by cases h
  once := List.nodup_nil

/-- the runner `w` moves to the phase `p`; what has to hold for it and for the others -/
theorem Inv.of_move (hi : Inv parse s) {p : Phase} (hphase : t.phase = Function.update s.phase w p)
    (hworkers : t.workers = s.workers) (hw : w ∈ s.workers)
    (halone : ∀ id, p.spec = some id → ∀ w', w' ≠ w → (s.phase w').spec ≠ some id)
    (haligned : ∀ r ∈ t.rows, pgTime r.nextRunAt = r.nextRunAt)
    (hfree : ∀ r ∈ t.rows, p.spec ≠ some r.id → (∀ w', w' ≠ w → (s.phase w').spec ≠ some r.id) →
      ∀ j ∈ t.saved, j.recurringID = r.id → j.runAt < r.nextRunAt)
    (hready : ∀ now spec fires rest, p = .firing now spec fires rest →
      Ready parse t.saved now spec fires)
    (hothers : ∀ w' now spec fires rest, w' ≠ w → s.phase w' = .firing now spec fires rest →
      Ready parse t.saved now spec fires)
    (honce : t.FiredOnce) : Inv parse t := by
  have hself : t.phase w = p := by rw [hphase, Function.update_self]
  have hne : ∀ w', w' ≠ w → t.phase w' = s.phase w' := fun w' h => by
    rw [hphase, Function.update_of_ne h]
  refine ⟨fun w' h => ?_, fun w₁ w₂ id h₁ h₂ => ?_, haligned, fun r hr hf => ?_,
    fun w' now spec fires rest h => ?_, honce⟩
  · rw [hworkers] at h
    have e : w' ≠ w := fun e => h (e ▸ hw)
    rw [hne w' e]
    exact hi.outside w' h
  · by_cases e₁ : w₁ = w
    · subst e₁
      by_contra e₂
      rw [hself] at h₁
      rw [hne w₂ (Ne.symm e₂)] at h₂
      exact halone id h₁ w₂ (Ne.symm e₂) h₂
    · rw [hne w₁ e₁] at h₁
      by_cases e₂ : w₂ = w
      · subst e₂
        rw [hself] at h₂
        exact absurd h₁ (halone id h₂ w₁ e₁)
      · rw [hne w₂ e₂] at h₂
        exact hi.alone w₁ w₂ id h₁ h₂
  · refine hfree r hr (hself ▸ hf w) fun w' e => ?_
    rw [← hne w' e]
    exact hf w'
  · by_cases e : w' = w
    · subst e
      rw [hself] at h
      exact hready now spec fires rest h
    · rw [hne w' e] at h
      exact hothers w' now spec fires rest e h

theorem Inv.mem_workers (hi : Inv parse s) (h : s.phase w ≠ .idle) : w ∈ s.workers := by
  by_contra hw
  exact h (hi.outside w hw)

/-- a runner that holds no lease moves on without one -/
theorem Inv.quiet (hi : Inv parse s) {p : Phase} (hm : w ∈ s.workers)
    (hw : (s.phase w).spec = none) (hp : p.spec = none) : Inv parse (s.set w p) := by
  refine hi.of_move (w := w) (p := p) rfl rfl hm (fun id h => ?_) hi.aligned
    (fun r hr _ hf => hi.free r hr fun w' => ?_) (fun now spec fires rest h => ?_)
    (fun w' now spec fires rest _ h => hi.firing w' now spec fires rest h) hi.once
  · rw [hp] at h
    cases h
  · by_cases e : w' = w
    · rw [e, hw]
      simp
    · exact hf w' e
  · rw [h] at hp
    cases hp

/-- a lease that is granted in a settled state -/
theorem Inv.grant (hi : Inv parse s) {now : Time} {spec : RecurringSpec}
    {rest rows : List RecurringSpec} (hphase : s.phase w = .looping now (spec :: rest))
    (hs : Settled s spec) (hdue : spec.nextRunAt ≤ now)
    (hrows : ∀ r ∈ rows, ∃ r₀ ∈ s.rows, r₀.id = r.id ∧ r₀.nextRunAt = r.nextRunAt) :
    Inv parse { s.set w (.firing now spec (computeFires parse spec now) rest) with rows := rows } := by
  obtain ⟨⟨r, hr, hid, hnext⟩, hno, hevery⟩ := hs
  have hno : ∀ w', (s.phase w').spec ≠ some spec.id := by
    intro w'
    by_cases hm : w' ∈ s.workers
    · exact hno w' hm
    · rw [hi.outside w' hm]
      exact fun h => by cases h
  have hpast : ∀ j ∈ s.saved, j.recurringID = spec.id → j.runAt < pgTime spec.nextRunAt := by
    intro j hj e
    rw [← hnext, hi.aligned r hr]
    exact hi.free r hr (hid ▸ hno) j hj (hid ▸ e)
  obtain ⟨hpair, hfirst, hlast⟩ := computeFires_spec (advance_coarse parse hevery) hdue
  have hready : Ready parse s.saved now spec (computeFires parse spec now) :=
    ⟨hpair, fun j hj e f hf => lt_of_lt_of_le (hpast j hj e) (hfirst f hf),
      fun fuel next h j hj e => lt_trans (hpast j hj e) (hlast fuel next h _ List.mem_cons_self),
      hlast⟩
  refine hi.of_move (w := w) (p := .firing now spec (computeFires parse spec now) rest) rfl rfl
    (hi.mem_workers (by rw [hphase]; simp)) (fun id h w' _ => ?_) (fun r' hr' => ?_)
    (fun r' hr' _ hf j hj e => ?_)
    (fun now' spec' fires rest' h => ?_)
    (fun w' now' spec' fires rest' _ h => hi.firing w' now' spec' fires rest' h) hi.once
  · rw [← Option.some.inj h]
    exact hno w'
  · obtain ⟨r₀, hr₀, _, e⟩ := hrows r' hr'
    rw [← e]
    exact hi.aligned r₀ hr₀
  · obtain ⟨r₀, hr₀, e₁, e₂⟩ := hrows r' hr'
    rw [← e₂]
    refine hi.free r₀ hr₀ (fun w' => ?_) j hj (e.trans e₁.symm)
    by_cases ew : w' = w
    · rw [ew, hphase]
      exact fun h => by cases h
    · rw [e₁]
      exact hf w' ew
  · cases h
    exact hready

/-- the save of a fire -/
theorem Inv.save (hi : Inv parse s) {now f : Time} {spec : RecurringSpec} {fs : List Time}
    {rest : List RecurringSpec} {j : Job} (hphase : s.phase w = .firing now spec (f :: fs) rest)
    (hj : j.recurringID = spec.id) (hat : j.runAt = pgTime f) :
    Inv parse { s.set w (.firing now spec fs rest) with saved := s.saved ++ [j] } := by
  have hr := hi.firing w now spec (f :: fs) rest hphase
  have hspec : (s.phase w).spec = some spec.id := by
    rw [hphase]
    rfl
  have hother : ∀ w', w' ≠ w → (s.phase w').spec ≠ some spec.id :=
    fun w' e h => e (hi.alone w' w spec.id h hspec)
  have hmem : ∀ {j' : Job}, j' ∈ s.saved ++ [j] → j' ∈ s.saved ∨ j' = j := fun h =>
    (List.mem_append.mp h).imp_right List.mem_singleton.mp
  refine hi.of_move (w := w) (p := .firing now spec fs rest) rfl rfl
    (hi.mem_workers (by rw [hphase]; simp)) (fun id h w' e => ?_) hi.aligned
    (fun r hr' hp hf j' hj' e => ?_) (fun now' spec' fires rest' h => ?_)
    (fun w' now' spec' fires rest' e h => ?_) ?_
  · rw [← Option.some.inj h]
    exact hother w' e
  · rcases hmem hj' with hj' | rfl
    · refine hi.free r hr' (fun w' => ?_) j' hj' e
      by_cases ew : w' = w
      · rw [ew, hspec]
        exact hp
      · exact hf w' ew
    · exact absurd (congrArg some (hj.symm.trans e)) hp
  · cases h
    have hlt := List.pairwise_cons.mp hr.sorted
    refine ⟨hlt.2, fun j' hj' e f' hf' => ?_, fun fuel next h j' hj' e => ?_,
      fun fuel next h f' hf' => hr.lt_next fuel next h f' (List.mem_cons_of_mem _ hf')⟩
    · rcases hmem hj' with hj' | rfl
      · exact hr.saved_lt j' hj' e f' (List.mem_cons_of_mem _ hf')
      · rw [hat]
        exact hlt.1 f' hf'
    · rcases hmem hj' with hj' | rfl
      · exact hr.saved_lt_next fuel next h j' hj' e
      · rw [hat]
        exact hr.lt_next fuel next h f List.mem_cons_self
  · have hr' := hi.firing w' now' spec' fires rest' h
    have hne : j.recurringID ≠ spec'.id := by
      intro e'
      refine hother w' e ?_
      rw [h, ← hj, e']
      rfl
    refine ⟨hr'.sorted, fun j' hj' e' => ?_, fun fuel next hn j' hj' e' => ?_, hr'.lt_next⟩
    · rcases hmem hj' with hj' | rfl
      · exact hr'.saved_lt j' hj' e'
      · exact absurd e' hne
    · rcases hmem hj' with hj' | rfl
      · exact hr'.saved_lt_next fuel next hn j' hj' e'
      · exact absurd e' hne
  · show ((s.saved ++ [j]).map fun j => (j.recurringID, j.runAt)).Nodup
    rw [List.map_append, List.nodup_append]
    refine ⟨hi.once, by simp, fun a ha b hb e => ?_⟩
    obtain ⟨j', hj', rfl⟩ := List.mem_map.mp ha
    rw [List.mem_singleton.mp hb] at e
    have h := hr.saved_lt j' hj' ((congrArg Prod.fst e).trans hj) f List.mem_cons_self
    exact absurd ((congrArg Prod.snd e).trans hat) (ne_of_lt h)

/-- the write of the next fire time -/
theorem Inv.update (hi : Inv parse s) {now next last : Time} {spec : RecurringSpec} {fuel : Nat}
    {rest : List RecurringSpec} (hphase : s.phase w = .firing now spec [] rest)
    (hnext : nextAfter parse fuel spec now = some next) :
    Inv parse { s.set w (.looping now rest) with
      rows := updateRecurringNextRun spec.id next last s.rows } := by
  have hr := hi.firing w now spec [] rest hphase
  have hspec : (s.phase w).spec = some spec.id := by
    rw [hphase]
    rfl
  refine hi.of_move (w := w) (p := .looping now rest) rfl rfl
    (hi.mem_workers (by rw [hphase]; simp)) (fun id h => by cases h) (fun r hr' => ?_)
    (fun r hr' _ hf j hj e => ?_)
    (fun _ _ _ _ h => by cases h)
    (fun w' now' spec' fires rest' _ h => hi.firing w' now' spec' fires rest' h) hi.once
  · rcases mem_updateRecurringNextRun hr' with ⟨_, h⟩ | ⟨_, h⟩
    · rw [h]
      exact pgTime_pgTime _
    · exact hi.aligned r h
  · rcases mem_updateRecurringNextRun hr' with ⟨hid, h⟩ | ⟨hid, h⟩
    · rw [h]
      exact hr.saved_lt_next fuel next hnext j hj (e.trans hid)
    · refine hi.free r h (fun w' => ?_) j hj e
      by_cases ew : w' = w
      · rw [ew, hspec]
        exact fun e' => hid (Option.some.inj e').symm
      · exact hf w' ew

/-- **One step keeps the invariant**, if a lease that it grants is granted in a settled state. -/
theorem step_inv {a : Move} (hi : Inv parse s) (hC : Serial leaseEvery s a)
    (h : step parse leaseEvery s a = some t) : Inv parse t := by
  cases a with
  | wake w now =>
    simp only [step] at h
    split at h
    · rename_i hp
      obtain ⟨hw, e⟩ := Option.ite_none_right_eq_some.mp h
      rw [← Option.some.inj e]
      exact hi.quiet hw (by rw [hp]; rfl) rfl
    · cases h
  | list w specs =>
    simp only [step] at h
    split at h
    · rename_i hp
      obtain ⟨_, e⟩ := Option.ite_none_right_eq_some.mp h
      rw [← Option.some.inj e]
      exact hi.quiet (hi.mem_workers (by rw [hp]; simp)) (by rw [hp]; rfl) rfl
    · cases h
  | next w =>
    simp only [step] at h
    split at h
    · rename_i hp
      rw [← Option.some.inj h]
      exact hi.quiet (hi.mem_workers (by rw [hp]; simp)) (by rw [hp]; rfl) rfl
    · rename_i hp
      obtain ⟨_, e⟩ := Option.ite_none_right_eq_some.mp h
      rw [← Option.some.inj e]
      exact hi.quiet (hi.mem_workers (by rw [hp]; simp)) (by rw [hp]; rfl) rfl
    · cases h
  | acquire w =>
    simp only [step] at h
    split at h
    · rename_i now spec rest hp
      obtain ⟨hdue, h⟩ := Option.ite_none_left_eq_some.mp h
      rw [Serial, hp] at hC
      split at h
      · rename_i hg
        rw [← Option.some.inj h]
        exact hi.grant hp (hC hg) (not_lt.mp hdue) fun r hr => mem_acquireLease hr
      · rw [← Option.some.inj h]
        exact hi.quiet (hi.mem_workers (by rw [hp]; simp)) (by rw [hp]; rfl) rfl
    · cases h
  | save w uuid =>
    simp only [step] at h
    split at h
    · rename_i hp
      obtain ⟨_, e⟩ := Option.ite_none_right_eq_some.mp h
      rw [← Option.some.inj e]
      exact hi.save hp rfl rfl
    · cases h
  | update w fuel =>
    simp only [step] at h
    split at h
    · rename_i hp
      obtain ⟨next, hn, e⟩ := Option.map_eq_some_iff.mp h
      rw [← e]
      exact hi.update hp hn
    · cases h
  | tick d =>
    rw [← Option.some.inj h]
    exact ⟨hi.outside, hi.alone, hi.aligned, hi.free, hi.firing, hi.once⟩

end

/-- **Every period is fired once** in every state of a run whose grants are all settled: no two saved
jobs have one `RecurringID` and one `RunAt`. -/
theorem fires_once (parse : String → Except String Schedule) (leaseEvery : String → Duration)
    (workers : List String) (specs : List RecurringSpec) (clock : Time) (l : List Move) (s : Runners)
    (h : run (step parse leaseEvery) (Runners.init workers specs clock) l = some s)
    (hm : Meets (step parse leaseEvery) (Serial leaseEvery) (Runners.init workers specs clock) l) :
    s.FiredOnce :=
  (run_keep_of (P := Inv parse) (fun _ _ _ hi hC hst => step_inv hi hC hst) hm
    (init_inv workers specs clock) h).once

/-! ## runs -/

/-- a spec that is due at sixty seconds and every minute from then on -/
def minutely : RecurringSpec :=
  { id := "r", name := "job", queue := "default", every := 60000000000, nextRunAt := 60000000000 }

def oneSecond (_ : String) : Duration := second

/-- both list the spec; `A` fires it, and `B` finds the lease of `A` when it comes to it -/
def contested : List Move :=
  [.wake "A" 100000000000, .list "A" [minutely], .wake "B" 100000000000, .list "B" [minutely],
    .acquire "A", .acquire "B", .save "A" "job-1", .update "A" 1]

theorem fires_once_contested : ∃ s,
    run (step noCron oneSecond) (Runners.init ["A", "B"] [minutely] 100000000000) contested = some s ∧
      s.FiredOnce ∧ s.saved.map Job.runAt = [60000000000] := by
  have hrun : (run (step noCron oneSecond) (Runners.init ["A", "B"] [minutely] 100000000000)
      contested).map (fun s => s.saved.map Job.runAt) = some [60000000000] := by decide +kernel
  obtain ⟨s, hs, he⟩ := Option.map_eq_some_iff.mp hrun
  exact ⟨s, hs, fires_once noCron oneSecond ["A", "B"] [minutely] 100000000000 contested s hs
    (by decide +kernel), he⟩

/-- `B` listed the spec before `A` fired it, and asks for the lease two seconds later -/
def late : List Move :=
  [.wake "A" 100000000000, .list "A" [minutely], .wake "B" 100000000000, .list "B" [minutely],
    .acquire "A", .save "A" "job-1", .update "A" 1, .tick 2000000000, .acquire "B",
    .save "B" "job-2"]

/-- **A stale listing fires a period again**: one spec, two schedulers, two jobs for the same minute. -/
theorem stale_listing_fires_twice :
    (run (step noCron oneSecond) (Runners.init ["A", "B"] [minutely] 100000000000) late).map
      (fun s => (s.saved.map fun j => (j.id, j.recurringID, j.runAt), decide s.FiredOnce)) =
      some ([("job-1", "r", 60000000000), ("job-2", "r", 60000000000)], false) := by decide +kernel

end GS.Postgres
