import GoSchedule.Lib.Run
import GoSchedule.Lib.Slots
import GoSchedule.Scheduler.Worker

/-!
# The gauge of running jobs

The hooks of the Prometheus collector on any number of executions at once, with any handlers and any
results of the store calls.

* `Metrics`, `Metrics.hook`   the series that the hooks write, and `Collector.Hooks`;
* `hooksAfter`   the hook that `executeOne` fires when the store call has returned, if there is one;
  `finish_events` says that these are the hooks of `finish`;
* `Exec`, `Label`, `step`   where an execution stands, and its next move;
* `Sys.inFlight`   the executions of a queue that have fired `OnStart` and are not finished;
* `gauge_balanced_iff`   **the gauge shows that number in every state, if and only if every execution
  that finished had a handler and could report its retry**;
* `gauge_drifts`   what the other two ways out of `executeOne` do.
-/

namespace GS.Prometheus
open Slots Trans

/-- `queueSize` is sampled by `Collect` and no hook writes it -/
structure Metrics where
  enqueued : String × String → Nat
  succeeded : String × String → Nat
  failed : String × String → Nat
  retried : String × String → Nat
  duration : String × String → List Duration
  inFlight : String → Int

namespace Metrics

def newMetrics : Metrics := ⟨fun _ => 0, fun _ => 0, fun _ => 0, fun _ => 0, fun _ => [], fun _ => 0⟩

def inc (c : String × String → Nat) (queue name : String) : String × String → Nat :=
  Function.update c (queue, name) (c (queue, name) + 1)

/-- `Inc` and `Dec` of the gauge -/
def add (m : Metrics) (queue : String) (d : Int) : Metrics :=
  { m with inFlight := Function.update m.inFlight queue (m.inFlight queue + d) }

def observe (m : Metrics) (queue name : String) (d : Duration) : Metrics :=
  { m with duration := Function.update m.duration (queue, name) (m.duration (queue, name) ++ [d]) }

def hook (m : Metrics) : Event → Metrics
  | .enqueue _ name queue => { m with enqueued := inc m.enqueued queue name }
  | .start _ _ queue _ => m.add queue 1
  | .success _ name queue _ d =>
    (({ m with succeeded := inc m.succeeded queue name }).observe queue name d).add queue (-1)
  | .failure _ name queue _ _ => ({ m with failed := inc m.failed queue name }).add queue (-1)
  | .retry _ name queue _ _ _ => ({ m with retried := inc m.retried queue name }).add queue (-1)

end Metrics

/-! ## the hooks of an execution -/

/-- the handler failed and there is an attempt left -/
def Retries (x : Outcome) (j : Job) : Prop :=
  safeInvoke x.result ≠ none ∧ ¬ maxAttempts j ≤ j.attempt + 1

instance (x : Outcome) (j : Job) : Decidable (Retries x j) := inferInstanceAs (Decidable (_ ∧ _))

/-- `ok`: the store call returned nil -/
def hooksAfter (sc : Scheduler) (x : Outcome) (j : Job) (ok : Bool) : List Event :=
  let attempt := j.attempt + 1
  match safeInvoke x.result with
  | none => [.success j.id j.name j.queue attempt (x.ended.sub x.started)]
  | some err =>
    if maxAttempts j ≤ attempt then [.failure j.id j.name j.queue attempt err]
    else if ok then [.retry j.id j.name j.queue attempt err (x.now.add (sc.defaultBackoff attempt))]
    else []

def hooksUnhandled (j : Job) : List Event :=
  [.failure j.id j.name j.queue (j.attempt + 1) "no handler"]

theorem finish_events (sc : Scheduler) (x : Outcome) (j : Job) (s : Mem.Store) :
    (finish sc x j s).events = hooksAfter sc x j ((finish sc x j s).result).isNone := by
  unfold finish hooksAfter
  cases safeInvoke x.result with
  | none => rfl
  | some err =>
    dsimp only
    split
    · rfl
    · show (if _ then _ else _) = _
      unfold Done.of
      cases (StoreCall.apply s (.fail j.id err (x.now.add (sc.defaultBackoff (j.attempt + 1))))).2 with
      | none => rfl
      | some e => rfl

theorem noHandler_events (x : Outcome) (j : Job) (s : Mem.Store) :
    (noHandler x j s).events = hooksUnhandled j := rfl

/-! ## executions -/

/-- `executeOne` was called, found no handler, runs one, or has its store call behind it -/
inductive Exec where
  | begun (j : Job)
  | missing (j : Job)
  | running (j : Job)
  | unhandled (j : Job) (ok : Bool)
  | reported (j : Job) (x : Outcome) (ok : Bool)
  | done
deriving DecidableEq, Repr

/-- `OnStart` was fired, and the execution is not finished -/
def Exec.inFlight (q : String) : Exec → Bool
  | .running j => j.queue == q
  | .reported j _ _ => j.queue == q
  | _ => false

structure Sys where
  sched : Scheduler
  metrics : Metrics
  execs : List Exec

namespace Sys

def init (sc : Scheduler) : Sys := ⟨sc, .newMetrics, []⟩

def set (s : Sys) (i : Nat) (e : Exec) : Sys := { s with execs := s.execs.set i e }

def fire (s : Sys) (evs : List Event) : Sys := { s with metrics := evs.foldl Metrics.hook s.metrics }

def inFlight (s : Sys) (q : String) : Nat := s.execs.countP (Exec.inFlight q)

def Balanced (s : Sys) : Prop := ∀ q, s.metrics.inFlight q = s.inFlight q

end Sys

inductive Label where
  | register (name : String)
  | call (j : Job)
  | lookup (i : Nat)
  | report (i : Nat) (x : Outcome) (ok : Bool)
  | fire (i : Nat)
deriving DecidableEq, Repr

/-- `lookup` fires `OnStart` if there is a handler; `report` is the end of the handler, if there is
one, and the store call; `fire` is the last hook and the end of the execution -/
def step (s : Sys) : Label → Option Sys
  | .register name => some { s with sched := s.sched.register name }
  | .call j => some { s with execs := s.execs ++ [.begun j] }
  | .lookup i =>
    match s.execs[i]? with
    | some (.begun j) =>
      if s.sched.isRegistered j.name then
        some ((s.set i (.running j)).fire [.start j.id j.name j.queue (j.attempt + 1)])
      else some (s.set i (.missing j))
    | _ => none
  | .report i x ok =>
    match s.execs[i]? with
    | some (.running j) => some (s.set i (.reported j x ok))
    | some (.missing j) => some (s.set i (.unhandled j ok))
    | _ => none
  | .fire i =>
    match s.execs[i]? with
    | some (.reported j x ok) => some ((s.set i .done).fire (hooksAfter s.sched x j ok))
    | some (.unhandled j _) => some ((s.set i .done).fire (hooksUnhandled j))
    | _ => none

/-- it had a handler, and a retry that it asked for was stored -/
def Exec.Clean : Exec → Prop
  | .reported j x ok => Retries x j → ok = true
  | .unhandled _ _ => False
  | _ => True

instance : DecidablePred Exec.Clean
  | .reported j x ok => inferInstanceAs (Decidable (Retries x j → ok = true))
  | .unhandled _ _ => isFalse id
  | .begun _ | .missing _ | .running _ | .done => isTrue trivial

/-- an execution that finishes is clean -/
def Clean (s : Sys) : Label → Prop
  | .fire i => ∀ e ∈ s.execs[i]?, e.Clean
  | _ => True

instance (s : Sys) : DecidablePred (Clean s)
  | .fire i => inferInstanceAs (Decidable (∀ e ∈ s.execs[i]?, e.Clean))
  | .register _ | .call _ | .lookup _ | .report .. => isTrue trivial

/-! ## one move -/

section
variable {s t : Sys} {i : Nat}

theorem gauge_add (m : Metrics) (queue : String) (d : Int) (q : String) :
    (m.add queue d).inFlight q = m.inFlight q + if queue = q then d else 0 := by
  unfold Metrics.add
  by_cases h : q = queue
  · subst h
    rw [if_pos rfl]
    exact Function.update_self ..
  · rw [if_neg fun e => h e.symm, Int.add_zero]
    exact Function.update_of_ne h ..

/-- the change of the gauge by the hooks after a store call -/
theorem gauge_hooksAfter (sc : Scheduler) (x : Outcome) (j : Job) (ok : Bool) (m : Metrics)
    (q : String) : ((hooksAfter sc x j ok).foldl Metrics.hook m).inFlight q =
      m.inFlight q + if j.queue = q ∧ (Retries x j → ok = true) then -1 else 0 := by
  unfold hooksAfter
  cases hres : safeInvoke x.result with
  | none =>
    have hno : ¬ Retries x j := fun h => h.1 hres
    refine (gauge_add _ j.queue (-1) q).trans ?_
    simp [hno, Metrics.observe]
  | some err =>
    dsimp only
    by_cases hlast : maxAttempts j ≤ j.attempt + 1
    · have hno : ¬ Retries x j := fun h => h.2 hlast
      rw [if_pos hlast]
      refine (gauge_add _ j.queue (-1) q).trans ?_
      simp [hno]
    · have hyes : Retries x j := ⟨fun h => (by cases hres.symm.trans h), hlast⟩
      rw [if_neg hlast]
      cases ok with
      | true =>
        refine (gauge_add _ j.queue (-1) q).trans ?_
        simp
      | false => simp [hyes]

theorem inFlight_set {e : Exec} (h : s.execs[i]? = some e) (e' : Exec) (q : String) :
    (s.set i e').inFlight q + (if e.inFlight q then 1 else 0) =
      s.inFlight q + (if e'.inFlight q then 1 else 0) := countP_set _ h e'

/-- a move that keeps the gauge and does not change which executions are in flight -/
theorem balanced_set {e e' : Exec} (hb : s.Balanced) (h : s.execs[i]? = some e)
    (he : ∀ q, e'.inFlight q = e.inFlight q) : (s.set i e').Balanced := by
  intro q
  have hcount := inFlight_set h e' q
  rw [he q] at hcount
  show s.metrics.inFlight q = _
  rw [hb q, Nat.add_right_cancel hcount]

theorem balanced_lookup (hb : s.Balanced) (h : step s (.lookup i) = some t) : t.Balanced := by
  simp only [step] at h
  split at h
  · rename_i j he
    split at h
    · rw [← Option.some.inj h]
      intro q
      have hcount := inFlight_set he (.running j) q
      have hgauge := gauge_add s.metrics j.queue 1 q
      show (s.metrics.add j.queue 1).inFlight q = (s.set i (.running j)).inFlight q
      rw [hgauge, hb q]
      simp only [Exec.inFlight, Bool.false_eq_true, if_false, beq_iff_eq] at hcount
      split
      · rename_i hq
        rw [if_pos hq] at hcount
        omega
      · rename_i hq
        rw [if_neg hq] at hcount
        omega
    · rw [← Option.some.inj h]
      exact balanced_set hb he fun _ => rfl
  · cases h

theorem balanced_report {x : Outcome} {ok : Bool} (hb : s.Balanced)
    (h : step s (.report i x ok) = some t) : t.Balanced := by
  simp only [step] at h
  split at h
  · rename_i j he
    rw [← Option.some.inj h]
    exact balanced_set hb he fun _ => rfl
  · rename_i j he
    rw [← Option.some.inj h]
    exact balanced_set hb he fun _ => rfl
  · cases h

/-- the last hook keeps the balance exactly if the execution was clean -/
theorem balanced_fire_iff (hb : s.Balanced) (h : step s (.fire i) = some t) :
    t.Balanced ↔ Clean s (.fire i) := by
  simp only [step] at h
  split at h
  · rename_i j x ok he
    have hclean_iff : Clean s (.fire i) ↔ (Retries x j → ok = true) :=
      ⟨fun hc => hc _ he, fun hc e he' => Option.some.inj (he.symm.trans he') ▸ hc⟩
    rw [← Option.some.inj h, hclean_iff]
    have hcount := fun q => inFlight_set he .done q
    have hgauge := gauge_hooksAfter s.sched x j ok s.metrics
    constructor
    · intro ht
      by_contra hbad
      have hq := ht j.queue
      change ((hooksAfter s.sched x j ok).foldl Metrics.hook s.metrics).inFlight j.queue =
        (s.set i .done).inFlight j.queue at hq
      have hc := hcount j.queue
      rw [hgauge, if_neg fun h => hbad h.2, hb j.queue] at hq
      simp only [Exec.inFlight, beq_self_eq_true, if_true, Bool.false_eq_true, if_false] at hc
      omega
    · intro hclean q
      show ((hooksAfter s.sched x j ok).foldl Metrics.hook s.metrics).inFlight q =
        (s.set i .done).inFlight q
      have hc := hcount q
      rw [hgauge, hb q]
      simp only [Exec.inFlight, beq_iff_eq, Bool.false_eq_true, if_false] at hc
      by_cases hq : j.queue = q
      · rw [if_pos ⟨hq, hclean⟩]
        rw [if_pos hq] at hc
        omega
      · rw [if_neg fun h => hq h.1]
        rw [if_neg hq] at hc
        omega
  · rename_i j ok he
    rw [← Option.some.inj h]
    refine iff_of_false (fun ht => ?_) fun hc => hc _ he
    -- the hook takes one away that no hook has added
    have hq := ht j.queue
    change (({ s.metrics with failed := _ } : Metrics).add j.queue (-1)).inFlight j.queue =
      (s.set i .done).inFlight j.queue at hq
    have hc := inFlight_set he .done j.queue
    rw [gauge_add, if_pos rfl] at hq
    have hg := hb j.queue
    simp only [Exec.inFlight, Bool.false_eq_true, if_false] at hc
    change s.metrics.inFlight j.queue + -1 = _ at hq
    omega
  · cases h

/-- **One move**: the balance is kept exactly by the clean ones. -/
theorem step_balanced_iff {a : Label} (hb : s.Balanced) (h : step s a = some t) :
    t.Balanced ↔ Clean s a := by
  cases a with
  | register name =>
    rw [← Option.some.inj h]
    exact iff_of_true hb trivial
  | call j =>
    rw [← Option.some.inj h]
    refine iff_of_true (fun q => ?_) trivial
    show s.metrics.inFlight q = ((s.execs ++ [Exec.begun j]).countP (Exec.inFlight q) : Nat)
    rw [List.countP_append, hb q]
    rfl
  | lookup i => exact iff_of_true (balanced_lookup hb h) trivial
  | report i x ok => exact iff_of_true (balanced_report hb h) trivial
  | fire i => exact balanced_fire_iff hb h

end

/-! ## whole runs -/

theorem balanced_along_iff {s t : Sys} {l : List Label} (hb : s.Balanced)
    (hrun : run step s l = some t) :
    (∀ l₁ l₂ u, l = l₁ ++ l₂ → run step s l₁ = some u → u.Balanced) ↔ Meets step Clean s l := by
  induction l generalizing s with
  | nil =>
    refine iff_of_true (fun l₁ l₂ u e hu => ?_) trivial
    obtain ⟨rfl, _⟩ := List.append_eq_nil_iff.mp e.symm
    obtain rfl := Option.some.inj hu
    exact hb
  | cons a l ih =>
    obtain ⟨v, hv, hrest⟩ := run_cons.mp hrun
    constructor
    · intro hall
      have hvb : v.Balanced := hall [a] l v rfl (run_cons.mpr ⟨v, hv, rfl⟩)
      refine ⟨(step_balanced_iff hb hv).mp hvb, fun v' hv' => ?_⟩
      obtain rfl := Option.some.inj (hv.symm.trans hv')
      refine (ih hvb hrest).mp fun l₁ l₂ u e hu => ?_
      exact hall (a :: l₁) l₂ u (congrArg (a :: ·) e) (run_cons.mpr ⟨v, hv, hu⟩)
    · intro hm l₁ l₂ u e hu
      have hvb : v.Balanced := (step_balanced_iff hb hv).mpr hm.1
      cases l₁ with
      | nil =>
        obtain rfl := Option.some.inj hu
        exact hb
      | cons b l₁ =>
        obtain ⟨rfl, htail⟩ := List.cons.inj e
        obtain ⟨v', hv', hu⟩ := run_cons.mp hu
        obtain rfl := Option.some.inj (hv.symm.trans hv')
        exact (ih hvb hrest).mpr (hm.2 v hv) l₁ l₂ u htail hu

/-- **The gauge is right in every state of a run, if and only if every execution that finished in it
was clean.** -/
theorem gauge_balanced_iff (sc : Scheduler) (l : List Label) (s : Sys)
    (hrun : run step (Sys.init sc) l = some s) :
    (∀ l₁ l₂ t, l = l₁ ++ l₂ → run step (Sys.init sc) l₁ = some t →
      ∀ q, t.metrics.inFlight q = t.inFlight q) ↔ Meets step Clean (Sys.init sc) l :=
  balanced_along_iff (fun _ => rfl) hrun

/-! ## runs -/

def sampleJob : Job := { id := "j", name := "job", queue := "default", maxAttempts := 3 }

def failedAt (t : Time) : Outcome := ⟨.error "err", 0, t, t⟩

/-- a retry that is stored, and then a panic in the last attempt -/
def cleanRun : List Label :=
  [.call sampleJob, .lookup 0, .report 0 (failedAt 10) true, .fire 0,
    .call { sampleJob with attempt := 2 }, .lookup 1, .report 1 ⟨.panic "p" "", 20, 30, 30⟩ false, .fire 1]

theorem gauge_balanced_retry : ∃ s, run step (Sys.init oneHandler) cleanRun = some s ∧
    s.metrics.inFlight "default" = s.inFlight "default" := by
  have hsome : (run step (Sys.init oneHandler) cleanRun).isSome := by decide +kernel
  obtain ⟨s, hs⟩ := Option.isSome_iff_exists.mp hsome
  exact ⟨s, hs, (gauge_balanced_iff oneHandler cleanRun s hs).mpr (by decide +kernel) cleanRun [] s
    (List.append_nil _).symm hs "default"⟩

/-- **The other two ways out.**  A job without a handler leaves the gauge at `-1`; a retry that the
store refuses leaves it at `1`.  Nothing is in progress in either state. -/
theorem gauge_drifts :
    (run step (Sys.init oneHandler) [.call { sampleJob with name := "other" }, .lookup 0,
      .report 0 (failedAt 10) true, .fire 0]).map
        (fun s => (s.metrics.inFlight "default", s.inFlight "default", s.execs)) =
      some (-1, 0, [.done]) ∧
    (run step (Sys.init oneHandler) [.call sampleJob, .lookup 0, .report 0 (failedAt 10) false,
      .fire 0]).map (fun s => (s.metrics.inFlight "default", s.inFlight "default", s.execs)) =
      some (1, 0, [.done]) := by
  constructor
  · decide +kernel
  · decide +kernel

end GS.Prometheus
