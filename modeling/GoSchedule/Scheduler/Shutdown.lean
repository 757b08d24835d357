import GoSchedule.Lib.Run
import GoSchedule.Scheduler.Basic

/-!
# When `Start` returns

The goroutines of `Scheduler.Start`, as far as it matters for its return: where each of them stands,
the wait group, the context and the grace timer.  Jobs are only counted; what a claim returns, and how
long a handler runs, is left open.

* `QueueG`     the dispatcher, the channel and the workers of one queue (`dispatcher.go`,
  `worker.go`), with their own steps `QueueG.step`;
* `LoopPhase`  the recurring runner and the janitor (`recurring.go`, `janitor.go`);
* `Main`       `Start` itself: it spawns the queues one by one, the runner and the janitor, waits for
  the cancellation, and then for the wait group or the grace timer, whichever comes first;
* `Quiesced`   if `Start` has returned before the grace elapsed, every worker has exited;
* `quiesced_iff`   the configurations for which every run is `Quiesced`: those without a worker, since
  the dispatchers, the runner and the janitor are in the wait group and the workers are not;
* `returns_with_handler_running`   a run in which `Start` returns and a handler is still executing.
-/

namespace GS.Shutdown

inductive DispPhase where
  | poll
  | sending (left : Nat)
  | exited
deriving DecidableEq, Repr

inductive WorkerPhase where
  | select
  | executing
  | exited
deriving DecidableEq, Repr

inductive LoopPhase where
  | waiting
  | working
  | exited
deriving DecidableEq, Repr

structure QueueG where
  concurrency : Nat
  disp : DispPhase
  chan : Nat
  workers : List WorkerPhase
deriving DecidableEq, Repr

def QueueG.spawn (c : Nat) : QueueG := ⟨c, .poll, 0, List.replicate c .select⟩

/-- the dispatcher returns -/
def QueueG.leave (Q : QueueG) : QueueG := { Q with disp := .exited }

inductive QLabel where
  | claim (n : Nat)
  | send
  | sleep
  | dispExit
  | receive (i : Nat)
  | handled (i : Nat)
  | workerExit (i : Nat)
deriving DecidableEq, Repr

/-- a `select` with several ready cases may take any of them: a worker can receive a job after the
cancellation -/
def QueueG.step (cancelled : Bool) (Q : QueueG) : QLabel → Option QueueG
  | .claim n => if Q.disp = .poll ∧ n ≤ Q.concurrency then some { Q with disp := .sending n } else none
  | .send =>
    match Q.disp with
    | .sending (n + 1) =>
      if Q.chan < Q.concurrency then some { Q with disp := .sending n, chan := Q.chan + 1 } else none
    | _ => none
  | .sleep => if Q.disp = .sending 0 then some { Q with disp := .poll } else none
  | .dispExit =>
    if cancelled then
      match Q.disp with
      | .poll => some Q.leave
      | .sending (_ + 1) => some Q.leave
      | _ => none
    else none
  | .receive i =>
    if Q.workers[i]? = some .select ∧ 0 < Q.chan then
      some { Q with chan := Q.chan - 1, workers := Q.workers.set i .executing }
    else none
  | .handled i =>
    if Q.workers[i]? = some .executing then
      some { Q with workers := Q.workers.set i .select }
    else none
  | .workerExit i =>
    if cancelled ∧ Q.workers[i]? = some .select then
      some { Q with workers := Q.workers.set i .exited }
    else none

inductive Main where
  | spawning (todo : List (String × Int))
  | spawnJanitor
  | awaitCtx
  | awaitDone
  | returned
deriving DecidableEq, Repr

structure G where
  main : Main
  queues : List QueueG
  loops : List LoopPhase
  wg : Nat
  cancelled : Bool
  doneClosed : Bool
  elapsed : Bool
deriving DecidableEq, Repr

def G.init (queues : List (String × Int)) : G := ⟨.spawning queues, [], [], 0, false, false, false⟩

inductive Label where
  | spawn
  | cancel
  | ctxDone
  | waitDone
  | grace
  | ret
  | queue (k : Nat) (a : QLabel)
  | work (i : Nat)
  | rest (i : Nat)
  | loopExit (i : Nat)
deriving DecidableEq, Repr

/-- the list of queues is the order in which `range s.queues` yields them; with a negative concurrency
making the channel panics -/
def step (g : G) : Label → Option G
  | .spawn =>
    match g.main with
    | .spawning ((_, .ofNat c) :: todo) =>
      some { g with main := .spawning todo, queues := g.queues ++ [.spawn c], wg := g.wg + 1 }
    | .spawning [] =>
      some { g with main := .spawnJanitor, loops := g.loops ++ [.waiting], wg := g.wg + 1 }
    | .spawnJanitor =>
      some { g with main := .awaitCtx, loops := g.loops ++ [.waiting], wg := g.wg + 1 }
    | _ => none
  | .cancel => some { g with cancelled := true }
  | .ctxDone =>
    if g.main = .awaitCtx ∧ g.cancelled then some { g with main := .awaitDone } else none
  | .waitDone =>
    if (g.main = .awaitDone ∨ g.main = .returned) ∧ g.wg = 0 then some { g with doneClosed := true }
    else none
  | .grace => if g.main = .awaitDone then some { g with elapsed := true } else none
  | .ret =>
    if g.main = .awaitDone ∧ (g.doneClosed ∨ g.elapsed) then some { g with main := .returned }
    else none
  | .queue k a =>
    match g.queues[k]? with
    | some Q =>
      (Q.step g.cancelled a).map fun Q' =>
        { g with queues := g.queues.set k Q', wg := if a = .dispExit then g.wg - 1 else g.wg }
    | none => none
  | .work i =>
    if g.loops[i]? = some .waiting then some { g with loops := g.loops.set i .working } else none
  | .rest i =>
    if g.loops[i]? = some .working then some { g with loops := g.loops.set i .waiting } else none
  | .loopExit i =>
    if g.cancelled ∧ g.loops[i]? = some .waiting then
      some { g with loops := g.loops.set i .exited, wg := g.wg - 1 }
    else none

/-- if `Start` has returned before the grace elapsed, every worker has exited -/
def Quiesced (g : G) : Prop :=
  g.main = .returned → g.elapsed = false → ∀ Q ∈ g.queues, ∀ w ∈ Q.workers, w = .exited

/-! ## all that a step can do to the workers -/

theorem QueueG.step_length {cancelled : Bool} {Q Q' : QueueG} {a : QLabel}
    (h : Q.step cancelled a = some Q') : Q'.workers.length = Q.workers.length := by
  cases a with
  | claim n =>
    obtain ⟨_, h⟩ := Option.ite_none_right_eq_some.mp h
    rw [← Option.some.inj h]
  | send =>
    simp only [QueueG.step] at h
    split at h
    · obtain ⟨_, h⟩ := Option.ite_none_right_eq_some.mp h
      rw [← Option.some.inj h]
    · cases h
  | sleep =>
    obtain ⟨_, h⟩ := Option.ite_none_right_eq_some.mp h
    rw [← Option.some.inj h]
  | dispExit =>
    obtain ⟨_, h⟩ := Option.ite_none_right_eq_some.mp h
    split at h
    · rw [← Option.some.inj h]
      rfl
    · rw [← Option.some.inj h]
      rfl
    · cases h
  | receive i =>
    obtain ⟨_, h⟩ := Option.ite_none_right_eq_some.mp h
    rw [← Option.some.inj h]
    exact List.length_set
  | handled i =>
    obtain ⟨_, h⟩ := Option.ite_none_right_eq_some.mp h
    rw [← Option.some.inj h]
    exact List.length_set
  | workerExit i =>
    obtain ⟨_, h⟩ := Option.ite_none_right_eq_some.mp h
    rw [← Option.some.inj h]
    exact List.length_set

/-- what a step does to the queues and to `Start`: it spawns the next queue, it moves one queue, or it
leaves the queues alone and `Start` does not go back to spawning -/
theorem step_cases {g g' : G} {a : Label} (h : step g a = some g') :
    (∃ q c todo, g.main = .spawning ((q, .ofNat c) :: todo) ∧ g'.main = .spawning todo ∧
      g'.queues = g.queues ++ [.spawn c]) ∨
    (∃ k Q Q', Q ∈ g.queues ∧ Q'.workers.length = Q.workers.length ∧
      g'.queues = g.queues.set k Q' ∧ g'.main = g.main) ∨
    (g'.queues = g.queues ∧ (g'.main = g.main ∨
      (g.main = .spawning [] ∨ ∀ todo, g.main ≠ .spawning todo) ∧
        ∀ todo, g'.main ≠ .spawning todo)) := by
  cases a with
  | spawn =>
    simp only [step] at h
    split at h
    · rename_i q c todo hm
      obtain rfl := Option.some.inj h
      exact Or.inl ⟨q, c, todo, hm, rfl, rfl⟩
    · rename_i hm
      obtain rfl := Option.some.inj h
      exact Or.inr (Or.inr ⟨rfl, Or.inr ⟨Or.inl hm, by simp⟩⟩)
    · rename_i hm
      obtain rfl := Option.some.inj h
      exact Or.inr (Or.inr ⟨rfl, Or.inr ⟨Or.inr (by simp [hm]), by simp⟩⟩)
    · cases h
  | cancel =>
    obtain rfl := Option.some.inj h
    exact Or.inr (Or.inr ⟨rfl, Or.inl rfl⟩)
  | ctxDone =>
    obtain ⟨hm, h⟩ := Option.ite_none_right_eq_some.mp h
    obtain rfl := Option.some.inj h
    exact Or.inr (Or.inr ⟨rfl, Or.inr ⟨Or.inr (by simp [hm.1]), by simp⟩⟩)
  | waitDone =>
    obtain ⟨_, h⟩ := Option.ite_none_right_eq_some.mp h
    obtain rfl := Option.some.inj h
    exact Or.inr (Or.inr ⟨rfl, Or.inl rfl⟩)
  | grace =>
    obtain ⟨_, h⟩ := Option.ite_none_right_eq_some.mp h
    obtain rfl := Option.some.inj h
    exact Or.inr (Or.inr ⟨rfl, Or.inl rfl⟩)
  | ret =>
    obtain ⟨hm, h⟩ := Option.ite_none_right_eq_some.mp h
    obtain rfl := Option.some.inj h
    exact Or.inr (Or.inr ⟨rfl, Or.inr ⟨Or.inr (by simp [hm.1]), by simp⟩⟩)
  | queue k a =>
    simp only [step] at h
    split at h
    · rename_i Q hQ
      obtain ⟨Q', hQ', rfl⟩ := Option.map_eq_some_iff.mp h
      exact Or.inr (Or.inl ⟨k, Q, Q', List.mem_of_getElem? hQ, QueueG.step_length hQ', rfl, rfl⟩)
    · cases h
  | work i =>
    obtain ⟨_, h⟩ := Option.ite_none_right_eq_some.mp h
    obtain rfl := Option.some.inj h
    exact Or.inr (Or.inr ⟨rfl, Or.inl rfl⟩)
  | rest i =>
    obtain ⟨_, h⟩ := Option.ite_none_right_eq_some.mp h
    obtain rfl := Option.some.inj h
    exact Or.inr (Or.inr ⟨rfl, Or.inl rfl⟩)
  | loopExit i =>
    obtain ⟨_, h⟩ := Option.ite_none_right_eq_some.mp h
    obtain rfl := Option.some.inj h
    exact Or.inr (Or.inr ⟨rfl, Or.inl rfl⟩)

/-! ## configurations without workers -/

/-- no queue has a worker, and none to come has one -/
def NoWorkers (g : G) : Prop :=
  (∀ Q ∈ g.queues, Q.workers = []) ∧ ∀ todo, g.main = .spawning todo → ∀ p ∈ todo, p.2 = 0

theorem step_noWorkers {g g' : G} {a : Label} (v : NoWorkers g) (h : step g a = some g') :
    NoWorkers g' := by
  rcases step_cases h with ⟨q, c, todo, hm, hm', hq⟩ | ⟨k, Q, Q', hQ, hlen, hq, hm⟩ | ⟨hq, hm⟩
  · have hc : c = 0 := Int.ofNat_eq_zero.mp (v.2 _ hm _ List.mem_cons_self)
    subst hc
    refine ⟨fun Q hQ => ?_, fun todo' he p hp => ?_⟩
    · rw [hq, List.mem_append, List.mem_singleton] at hQ
      rcases hQ with hQ | hQ
      · exact v.1 Q hQ
      · rw [hQ]
        rfl
    · rw [hm'] at he
      injection he with he
      subst he
      exact v.2 _ hm p (List.mem_cons_of_mem _ hp)
  · refine ⟨fun P hP => ?_, fun todo he => v.2 todo (hm ▸ he)⟩
    rw [hq] at hP
    rcases List.mem_or_eq_of_mem_set hP with hP | rfl
    · exact v.1 P hP
    · rw [v.1 Q hQ] at hlen
      exact List.length_eq_zero_iff.mp hlen
  · refine ⟨hq ▸ v.1, fun todo he => ?_⟩
    rcases hm with hm | ⟨_, hm⟩
    · exact v.2 todo (hm ▸ he)
    · exact absurd he (hm todo)

/-- `Start` is still to make a channel with a negative capacity -/
def Panics (g : G) : Prop := ∃ todo, g.main = .spawning todo ∧ ∃ p ∈ todo, p.2 < 0

theorem step_panics {g g' : G} {a : Label} (v : Panics g) (h : step g a = some g') : Panics g' := by
  obtain ⟨todo, hm, p, hp, hneg⟩ := v
  rcases step_cases h with ⟨q, c, todo', hm', hg, _⟩ | ⟨_, _, _, _, _, _, hg⟩ | ⟨_, hg⟩
  · rw [hm] at hm'
    injection hm' with hm'
    subst hm'
    rcases List.mem_cons.mp hp with rfl | hp
    · exact absurd hneg (not_lt.mpr (Int.natCast_nonneg c))
    · exact ⟨todo', hg, p, hp, hneg⟩
  · exact ⟨todo, hg.trans hm, p, hp, hneg⟩
  · rcases hg with hg | ⟨hn, _⟩
    · exact ⟨todo, hg.trans hm, p, hp, hneg⟩
    · rcases hn with hn | hn
      · rw [hm] at hn
        injection hn with hn
        rw [hn] at hp
        exact absurd hp List.not_mem_nil
      · exact absurd hm (hn todo)

/-! ## a run that leaves every worker behind -/

theorem run_spawn {g : G} {todo : List (String × Int)} (hm : g.main = .spawning todo)
    (h : ∀ p ∈ todo, 0 ≤ p.2) :
    Trans.run step g (List.replicate todo.length .spawn) = some { g with
      main := .spawning [], queues := g.queues ++ todo.map fun p => .spawn p.2.toNat,
      wg := g.wg + todo.length } := by
  induction todo generalizing g with
  | nil =>
    simp only [List.length_nil, List.replicate_zero, List.map_nil, List.append_nil, Nat.add_zero,
      ← hm]
    rfl
  | cons p todo ih =>
    obtain ⟨q, c⟩ := p
    obtain ⟨c, rfl⟩ := Int.eq_ofNat_of_zero_le (h (q, c) List.mem_cons_self)
    have hs : step g .spawn = some { g with
        main := .spawning todo, queues := g.queues ++ [.spawn c], wg := g.wg + 1 } := by
      simp only [step, hm]
    rw [List.length_cons, List.replicate_succ]
    refine Trans.run_cons.mpr ⟨_, hs, ?_⟩
    rw [ih rfl fun p hp => h p (List.mem_cons_of_mem _ hp)]
    simp only [List.append_assoc, List.map_cons, Int.toNat_natCast, List.singleton_append]
    rw [Nat.add_assoc, Nat.add_comm 1]

/-- the dispatchers `k`, `k + 1`, ... exit -/
def exits : Nat → Nat → List Label
  | _, 0 => []
  | k, n + 1 => .queue k .dispExit :: exits (k + 1) n

theorem run_exits {g : G} (hc : g.cancelled = true) {A B : List QueueG} {n : Nat}
    (hB : ∀ Q ∈ B, Q.disp = .poll) (hq : g.queues = A ++ B) (hw : g.wg = n + B.length) :
    Trans.run step g (exits A.length B.length) = some { g with
      queues := A ++ B.map QueueG.leave, wg := n } := by
  induction B generalizing g A with
  | nil =>
    simp only [List.map_nil, ← hq, ← show g.wg = n from hw]
    rfl
  | cons Q B ih =>
    have hget : g.queues[A.length]? = some Q := by rw [hq]; simp
    have hQ : Q.step g.cancelled .dispExit = some Q.leave := by
      simp only [QueueG.step, hc, hB Q List.mem_cons_self]
      rfl
    have hs : step g (.queue A.length .dispExit) = some { g with
        queues := (A ++ [Q.leave]) ++ B, wg := n + B.length } := by
      simp only [step]
      rw [hget]
      simp only [hQ, Option.map_some, hq, hw, List.length_cons]
      simp
    have hrun := ih (g := { g with queues := (A ++ [Q.leave]) ++ B, wg := n + B.length })
      (A := A ++ [Q.leave]) hc (fun P hP => hB P (List.mem_cons_of_mem _ hP)) rfl rfl
    rw [List.length_append] at hrun
    refine Trans.run_cons.mpr ⟨_, hs, hrun.trans ?_⟩
    simp

/-- everything in the wait group exits at the cancellation, no worker moves -/
def leaveWorkers (n : Nat) : List Label :=
  List.replicate n .spawn ++ ([.spawn, .spawn, .cancel, .ctxDone] ++
    (exits 0 n ++ [.loopExit 0, .loopExit 1, .waitDone, .ret]))

/-- the runner and the janitor start, and the context ends -/
theorem run_stop (Qs : List QueueG) (n : Nat) :
    Trans.run step ⟨.spawning [], Qs, [], n, false, false, false⟩ [.spawn, .spawn, .cancel, .ctxDone] =
      some ⟨.awaitDone, Qs, [.waiting, .waiting], n + 2, true, false, false⟩ := rfl

/-- both exit, which makes the wait group empty -/
theorem run_return (Qs : List QueueG) :
    Trans.run step ⟨.awaitDone, Qs, [.waiting, .waiting], 2, true, false, false⟩
      [.loopExit 0, .loopExit 1, .waitDone, .ret] =
      some ⟨.returned, Qs, [.exited, .exited], 0, true, true, false⟩ := rfl

theorem run_leaveWorkers {queues : List (String × Int)} (h : ∀ p ∈ queues, 0 ≤ p.2) :
    ∃ g, Trans.run step (G.init queues) (leaveWorkers queues.length) = some g ∧
      g.main = .returned ∧ g.elapsed = false ∧
      g.queues = queues.map fun p => (QueueG.spawn p.2.toNat).leave := by
  have hspawn := run_spawn (g := G.init queues) rfl h
  have hlen : (queues.map fun p => QueueG.spawn p.2.toNat).length = queues.length :=
    List.length_map _
  have hpoll : ∀ Q ∈ queues.map fun p => QueueG.spawn p.2.toNat, Q.disp = .poll := by
    intro Q hQ
    obtain ⟨p, _, rfl⟩ := List.mem_map.mp hQ
    rfl
  have hexits := run_exits (g := ⟨.awaitDone, queues.map fun p => QueueG.spawn p.2.toNat,
      [.waiting, .waiting], 0 + queues.length + 2, true, false, false⟩) rfl (A := [])
    (B := queues.map fun p => QueueG.spawn p.2.toNat) (n := 2) hpoll rfl
    (by rw [hlen]; show 0 + queues.length + 2 = 2 + queues.length; omega)
  rw [hlen, List.map_map] at hexits
  exact ⟨_, Trans.run_append.mpr ⟨_, hspawn, Trans.run_append.mpr ⟨_, run_stop _ _,
    Trans.run_append.mpr ⟨_, hexits, run_return _⟩⟩⟩, rfl, rfl, rfl⟩

/-- **Every run is quiesced exactly if `Start` panics or spawns no worker.** -/
theorem quiesced_iff (queues : List (String × Int)) :
    (∀ l g, Trans.run step (G.init queues) l = some g → Quiesced g) ↔
      (∃ p ∈ queues, p.2 < 0) ∨ ∀ p ∈ queues, p.2 = 0 := by
  constructor
  · intro h
    by_cases hneg : ∃ p ∈ queues, p.2 < 0
    · exact Or.inl hneg
    · have hpos : ∀ p ∈ queues, 0 ≤ p.2 := fun p hp => not_lt.mp fun hlt => hneg ⟨p, hp, hlt⟩
      obtain ⟨g, hrun, hm, he, hq⟩ := run_leaveWorkers hpos
      refine Or.inr fun p hp => ?_
      by_contra hne
      have hw : WorkerPhase.select ∈ List.replicate p.2.toNat WorkerPhase.select := by
        refine List.mem_replicate.mpr ⟨?_, rfl⟩
        have h0 := hpos p hp
        omega
      have hmem : (QueueG.spawn p.2.toNat).leave ∈ g.queues := by
        rw [hq]
        exact List.mem_map.mpr ⟨p, hp, rfl⟩
      have hexit := h _ g hrun hm he _ hmem .select hw
      cases hexit
  · intro h l g hrun hm he Q hQ w hw
    rcases h with ⟨p, hp, hneg⟩ | hzero
    · obtain ⟨todo, hs, _⟩ := Trans.run_keep (P := Panics) (fun _ _ _ v h => step_panics v h)
        ⟨queues, rfl, p, hp, hneg⟩ hrun
      rw [hm] at hs
      cases hs
    · have v := Trans.run_keep (P := NoWorkers) (fun _ _ _ v h => step_noWorkers v h)
        (s := G.init queues) ⟨fun _ h => absurd h List.not_mem_nil, fun todo he => ?_⟩ hrun
      · rw [v.1 Q hQ] at hw
        exact absurd hw List.not_mem_nil
      · injection he with he
        subst he
        exact hzero

/-- one queue with one worker: it takes a job, and the cancellation comes while its handler runs -/
def handlerRunning : List Label :=
  [.spawn, .spawn, .spawn, .queue 0 (.claim 1), .queue 0 .send, .queue 0 .sleep,
    .queue 0 (.receive 0), .cancel, .ctxDone, .queue 0 .dispExit, .loopExit 0, .loopExit 1,
    .waitDone, .ret]

/-- `Start` has returned, the grace has not elapsed, and the handler is still executing -/
theorem returns_with_handler_running :
    Trans.run step (G.init [("default", 1)]) handlerRunning =
        some ⟨.returned, [⟨1, .exited, 0, [.executing]⟩], [.exited, .exited], 0, true, true, false⟩ ∧
      ¬ Quiesced ⟨.returned, [⟨1, .exited, 0, [.executing]⟩], [.exited, .exited], 0, true, true,
        false⟩ := by
  refine ⟨by decide, fun h => ?_⟩
  have hexit := h rfl rfl _ List.mem_cons_self .executing List.mem_cons_self
  cases hexit

end GS.Shutdown
