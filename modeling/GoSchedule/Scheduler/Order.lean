import GoSchedule.Lib.Trace
import GoSchedule.Scheduler.Flow

/-!
# The order in which the workers of a queue get the jobs

The dispatcher's batch and the channel are one queue: claims add to its end, and workers take from its
front.

* `batchOf q`      the jobs that a move claims from `q`, in the order of the batch;
* `receivedOf q`   the job that a worker of `q` receives with a move, if it receives one;
* `endedOf q`      the job whose execution a worker of `q` ends with a move;
* `run_in_order`   **the workers of a queue receive the claimed jobs in the order in which they were
  claimed**, without a gap; and if the queue has one worker, their executions also end in that order.
-/

namespace GS
open Trans

def batchOf (q : String) (s : Sys) : Label → List Job
  | .claim q' now => if q' = q then ((step s (.claim q' now)).map fun t => t.batch q).getD [] else []
  | _ => []

def receivedOf (q : String) (s : Sys) : Label → List Job
  | .receive q' _ => if q' = q then (s.chan q).head?.toList else []
  | _ => []

def endedOf (q : String) (s : Sys) : Label → List Job
  | .finish q' i _ => if q' = q then ((s.workers q)[i]?.bind Worker.job).toList else []
  | _ => []

section
variable {s t : Sys} {a : Label} {q : String}

theorem batchOf_claim {q' : String} {now : Time} (h : step s (.claim q' now) = some t) :
    batchOf q s (.claim q' now) = if q' = q then t.batch q else [] := by
  show (if q' = q then ((step s (.claim q' now)).map fun t => t.batch q).getD [] else []) = _
  rw [h]
  rfl

theorem batchOf_eq_nil (h : ∀ q' now, a ≠ .claim q' now) : batchOf q s a = [] := by
  cases a with
  | claim q' now => exact absurd rfl (h q' now)
  | _ => rfl

theorem receivedOf_eq_nil (h : ∀ q' i, a ≠ .receive q' i) : receivedOf q s a = [] := by
  cases a with
  | receive q' i => exact absurd rfl (h q' i)
  | _ => rfl

theorem endedOf_eq_nil (h : ∀ q' i x, a ≠ .finish q' i x) : endedOf q s a = [] := by
  cases a with
  | finish q' i x => exact absurd rfl (h q' i x)
  | _ => rfl

/-- **A move takes from the front of the channel and adds to the end of the batch.** -/
theorem step_order (h : step s a = some t) :
    receivedOf q s a ++ (t.chan q ++ t.batch q) = s.chan q ++ s.batch q ++ batchOf q s a := by
  have hflow := step_flow h
  cases hflow with
  | quiet hcl hre _ hb hc _ =>
    rw [hc, hb, receivedOf_eq_nil hre, batchOf_eq_nil hcl, List.nil_append, List.append_nil]
  | @claim q' now c r _ hb _ =>
    rw [batchOf_claim h]
    show s.chan q ++ Function.update s.batch q' r.2 q =
      _ ++ if q' = q then Function.update s.batch q' r.2 q else []
    by_cases e : q' = q
    · subst e
      rw [if_pos rfl, hb, List.append_nil]
    · rw [if_neg e, Function.update_of_ne fun h => e h.symm, List.append_nil]
  | @send q' c j rest _ hb _ =>
    show Function.update s.chan q' (s.chan q' ++ [j]) q ++ Function.update s.batch q' rest q = _ ++ []
    by_cases e : q = q'
    · subst e
      rw [Function.update_self, Function.update_self, hb, List.append_assoc, List.append_nil]
      rfl
    · rw [Function.update_of_ne e, Function.update_of_ne e, List.append_nil]
  | @receive q' i j rest hc _ =>
    show (if q' = q then (s.chan q).head?.toList else []) ++
      (Function.update s.chan q' rest q ++ s.batch q) = _ ++ []
    by_cases e : q' = q
    · subst e
      rw [if_pos rfl, Function.update_self, hc, List.append_nil]
      rfl
    · rw [if_neg e, Function.update_of_ne fun h => e h.symm, List.append_nil]
      rfl
  | lookup => exact (List.append_nil _).symm
  | finish => exact (List.append_nil _).symm

/-! ## one worker -/

/-- the job of a pool of one worker, when its slot is written -/
theorem single_setWorker {i : Nat} {w : Worker} (h1 : (s.workers q).length = 1)
    (hw : (s.workers q)[i]? = some w) (w' : Worker) :
    (s.workers q).filterMap Worker.job = w.job.toList ∧
      ((s.setWorker q i w').workers q).filterMap Worker.job = w'.job.toList := by
  obtain ⟨v, hv⟩ := List.length_eq_one_iff.mp h1
  have hsingle : ∀ x : Worker, [x].filterMap Worker.job = x.job.toList := fun x => by
    cases h : x.job <;> simp [h]
  rw [workers_setWorker_self, hv]
  rw [hv] at hw
  cases i with
  | zero =>
    obtain rfl := Option.some.inj hw
    exact ⟨hsingle v, hsingle w'⟩
  | succ i => cases hw

/-- **The one worker of a queue ends one execution before it receives the next job.** -/
theorem step_single (h1 : (s.workers q).length = 1) (h : step s a = some t) :
    endedOf q s a ++ (t.workers q).filterMap Worker.job =
      (s.workers q).filterMap Worker.job ++ receivedOf q s a := by
  cases step_flow h with
  | quiet _ hre hfi _ _ hw =>
    rw [hw, receivedOf_eq_nil hre, endedOf_eq_nil hfi, List.nil_append, List.append_nil]
  | claim => exact (List.append_nil _).symm
  | send => exact (List.append_nil _).symm
  | @receive q' i j rest hc hw =>
    show ((s.setWorker q' i (.got j)).workers q).filterMap Worker.job =
      _ ++ if q' = q then (s.chan q).head?.toList else []
    by_cases e : q' = q
    · subst e
      obtain ⟨h2, h3⟩ := single_setWorker h1 hw (.got j)
      rw [h2, h3, if_pos rfl, hc]
      rfl
    · rw [if_neg e, workers_setWorker_ne fun h => e h.symm, List.append_nil]
  | @lookup q' i j w log hw hfound =>
    show ((s.setWorker q' i w).workers q).filterMap Worker.job = _ ++ []
    rw [List.append_nil]
    by_cases e : q' = q
    · subst e
      obtain ⟨h2, h3⟩ := single_setWorker h1 hw w
      rw [h2, h3]
      -- the worker keeps its job, whether it has found a handler or not
      rcases hfound with ⟨_, rfl, _⟩ | ⟨_, rfl, _⟩ <;> rfl
    · rw [workers_setWorker_ne fun h => e h.symm]
  | @finish q' i x w d hw _ =>
    show (if q' = q then ((s.workers q)[i]?.bind Worker.job).toList else []) ++
      ((s.setWorker q' i .idle).workers q).filterMap Worker.job = _ ++ []
    by_cases e : q' = q
    · subst e
      obtain ⟨h2, h3⟩ := single_setWorker h1 hw .idle
      rw [h2, h3, if_pos rfl, hw]
      rfl
    · rw [if_neg e, workers_setWorker_ne fun h => e h.symm, List.append_nil]
      rfl

theorem step_workers_length (h : step s a = some t) : (t.workers q).length = (s.workers q).length := by
  have hset : ∀ q' i w, ((s.setWorker q' i w).workers q).length = (s.workers q).length := by
    intro q' i w
    by_cases e : q = q'
    · subst e
      rw [workers_setWorker_self, List.length_set]
    · rw [workers_setWorker_ne e]
  cases step_flow h with
  | quiet _ _ _ _ _ hw => rw [hw]
  | claim => rfl
  | send => rfl
  | receive => exact hset _ _ _
  | lookup => exact hset _ _ _
  | finish => exact hset _ _ _

end

/-! ## whole runs -/

/-- **First claimed, first received**, and with one worker first ended. -/
theorem run_in_order (sc : Scheduler) (l : List Label) (t : Sys)
    (h : run step (Sys.init sc) l = some t) (q : String) :
    outputs step (receivedOf q) (Sys.init sc) l ++ (t.chan q ++ t.batch q) =
        outputs step (batchOf q) (Sys.init sc) l ∧
      (sc.concurrency q = some 1 → outputs step (endedOf q) (Sys.init sc) l ++
        (t.workers q).filterMap Worker.job = outputs step (receivedOf q) (Sys.init sc) l) := by
  constructor
  · refine run_induct (P := fun l t => outputs step (receivedOf q) (Sys.init sc) l ++
      (t.chan q ++ t.batch q) = outputs step (batchOf q) (Sys.init sc) l) rfl ?_ h
    intro l s a t hs ih ht
    rw [outputs_snoc _ a hs, outputs_snoc _ a hs, List.append_assoc, step_order ht,
      ← List.append_assoc, ih]
  · intro hc
    refine (run_induct (P := fun l t => (t.workers q).length = 1 ∧
      outputs step (endedOf q) (Sys.init sc) l ++ (t.workers q).filterMap Worker.job =
        outputs step (receivedOf q) (Sys.init sc) l) ?_ ?_ h).2
    · have hinit : (Sys.init sc).workers q = [.idle] := by
        show List.replicate ((sc.concurrency q).getD 0) _ = _
        rw [hc]
        rfl
      rw [hinit]
      exact ⟨rfl, rfl⟩
    · intro l s a t hs ih ht
      refine ⟨(step_workers_length ht).trans ih.1, ?_⟩
      rw [outputs_snoc _ a hs, outputs_snoc _ a hs, List.append_assoc, step_single ih.1 ht,
        ← List.append_assoc, ih.2]

/-- two jobs, of which the one that was saved later is claimed first -/
def twoJobs : List Label :=
  [.schedule 0 5 "low" "job" [] [.withPriority priorityLow],
    .schedule 1 7 "high" "job" [] [.withPriority priorityHigh], .claim "default" 9,
    .send "default", .receive "default" 0, .lookup "default" 0,
    .finish "default" 0 ⟨.ok, 9, 10, 10⟩, .claim "default" 11, .send "default"]

theorem run_in_order_two : ∃ t, run step (Sys.init oneHandler) twoJobs = some t ∧
    outputs step (endedOf "default") (Sys.init oneHandler) twoJobs ++
        ((t.workers "default").filterMap Worker.job ++ (t.chan "default" ++ t.batch "default")) =
      outputs step (batchOf "default") (Sys.init oneHandler) twoJobs ∧
    (outputs step (batchOf "default") (Sys.init oneHandler) twoJobs).map Job.id = ["high", "low"] := by
  have hsome : (run step (Sys.init oneHandler) twoJobs).isSome := by decide +kernel
  obtain ⟨t, ht⟩ := Option.isSome_iff_exists.mp hsome
  obtain ⟨h1, h2⟩ := run_in_order oneHandler twoJobs t ht "default"
  refine ⟨t, ht, ?_, by decide +kernel⟩
  rw [← List.append_assoc, h2 rfl, h1]

end GS
