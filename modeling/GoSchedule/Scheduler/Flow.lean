import GoSchedule.Scheduler.System

/-!
# The way of a job through the goroutines

What a step of a running scheduler does to the dispatchers' batches, the channels and the workers,
whatever it does to the store: `Move` is about the records, `Flow` about where their copies are.

* `Flow s a t`   the six ways in which a step can move copies;
* `step_flow`    every step is one of them.
-/

namespace GS

/-- `claim` and `finish` say what the store call was, the other constructors leave the store alone -/
inductive Flow (s : Sys) : Label → Sys → Prop
  | quiet {a : Label} {t : Sys} (claim : ∀ q now, a ≠ .claim q now)
      (receive : ∀ q i, a ≠ .receive q i) (finish : ∀ q i x, a ≠ .finish q i x)
      (batch : t.batch = s.batch) (chan : t.chan = s.chan) (workers : t.workers = s.workers) :
      Flow s a t
  | claim {q : String} {now : Time} {c : Nat} {r : Mem.Store × List Job}
      (conc : s.sched.concurrency q = some c) (empty : s.batch q = [])
      (call : s.store.claimDue q now c s.sched.workerID (now.add s.sched.visibilityTimeout) = some r) :
      Flow s (.claim q now) { s with store := r.1, batch := Function.update s.batch q r.2 }
  | send {q : String} {c : Nat} {j : Job} {rest : List Job} (conc : s.sched.concurrency q = some c)
      (batch : s.batch q = j :: rest) (room : (s.chan q).length < c) :
      Flow s (.send q) { s with
        batch := Function.update s.batch q rest,
        chan := Function.update s.chan q (s.chan q ++ [j]) }
  | receive {q : String} {i : Nat} {j : Job} {rest : List Job} (chan : s.chan q = j :: rest)
      (slot : (s.workers q)[i]? = some .idle) :
      Flow s (.receive q i) ({ s with chan := Function.update s.chan q rest }.setWorker q i (.got j))
  | lookup {q : String} {i : Nat} {j : Job} {w : Worker} {log : List Event}
      (slot : (s.workers q)[i]? = some (.got j))
      (found : s.sched.isRegistered j.name = true ∧ w = .running j ∧
          log = s.log ++ [.start j.id j.name j.queue (j.attempt + 1)] ∨
        s.sched.isRegistered j.name = false ∧ w = .missing j ∧ log = s.log) :
      Flow s (.lookup q i) { s.setWorker q i w with log := log }
  | finish {q : String} {i : Nat} {x : Outcome} {w : Worker} {d : Done}
      (slot : (s.workers q)[i]? = some w) (call : w.finish s.sched x s.store = some d) :
      Flow s (.finish q i x)
        { s.setWorker q i .idle with store := d.store, log := s.log ++ d.events }

section
variable {s t : Sys} {a : Label}

/-- **Every step is one of these.** -/
theorem step_flow (h : step s a = some t) : Flow s a t := by
  cases a with
  | register name =>
    obtain rfl := Option.some.inj h
    exact .quiet (by simp) (by simp) (by simp) rfl rfl rfl
  | save j =>
    obtain ⟨_, h⟩ := Option.ite_none_right_eq_some.mp h
    obtain rfl := Option.some.inj h
    exact .quiet (by simp) (by simp) (by simp) rfl rfl rfl
  | schedule now u uuid name payload opts =>
    obtain ⟨_, h⟩ := Option.ite_none_right_eq_some.mp h
    split at h
    · obtain rfl := Option.some.inj h
      exact .quiet (by simp) (by simp) (by simp) rfl rfl rfl
    · obtain rfl := Option.some.inj h
      exact .quiet (by simp) (by simp) (by simp) rfl rfl rfl
  | fire spec uuid now fireAt =>
    obtain ⟨_, h⟩ := Option.ite_none_right_eq_some.mp h
    obtain rfl := Option.some.inj h
    exact .quiet (by simp) (by simp) (by simp) rfl rfl rfl
  | cancel id =>
    obtain rfl := Option.some.inj h
    exact .quiet (by simp) (by simp) (by simp) rfl rfl rfl
  | reschedule id u =>
    obtain rfl := Option.some.inj h
    exact .quiet (by simp) (by simp) (by simp) rfl rfl rfl
  | claim q now =>
    simp only [step] at h
    split at h
    · rename_i c hc hb
      obtain ⟨r, hr, rfl⟩ := Option.map_eq_some_iff.mp h
      exact .claim hc hb hr
    · cases h
  | send q =>
    simp only [step] at h
    split at h
    · rename_i hc hb
      obtain ⟨hlt, h⟩ := Option.ite_none_right_eq_some.mp h
      obtain rfl := Option.some.inj h
      exact .send hc hb hlt
    · cases h
  | receive q i =>
    simp only [step] at h
    split at h
    · rename_i hc hw
      obtain rfl := Option.some.inj h
      exact .receive hc hw
    · cases h
  | lookup q i =>
    simp only [step] at h
    split at h
    · rename_i j hw
      split at h
      · rename_i hreg
        obtain rfl := Option.some.inj h
        exact .lookup hw (Or.inl ⟨hreg, rfl, rfl⟩)
      · rename_i hreg
        obtain rfl := Option.some.inj h
        exact @Flow.lookup s q i j (.missing j) s.log hw
          (Or.inr ⟨Bool.eq_false_iff.mpr hreg, rfl, rfl⟩)
    · cases h
  | finish q i x =>
    simp only [step] at h
    split at h
    · rename_i w hw
      obtain ⟨d, hd, rfl⟩ := Option.map_eq_some_iff.mp h
      exact .finish hw hd
    · cases h

end
end GS
