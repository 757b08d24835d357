import GoSchedule.Redis.Calls
import GoSchedule.Redis.System

/-!
# The steps of the server

* `Command`, `exec`   the MULTI block of `Save` and the scripts, in any order and with any arguments;
* `call_exec`         a call sends at most one of them;
* `step_exec`         so does a step of callers that interleave;
* `runCalls_execAll`, `run_execAll`   **what the calls make of an empty server, one after the other or
  interleaved, commands make of it**.
-/

namespace GS.Redis

variable {ρ : Scores}

/-- the scripts of `Fail`, `Cancel` and `Reschedule` are sent with a bucket that was looked up before -/
inductive Command where
  | save (j : Job)
  | claim (queue : String) (now : Time) (n : Int) (workerID : String) (lockUntil : Time)
  | ack (id : JobID)
  | fail (bucket : String) (id : JobID) (errMsg : String) (nextAttemptAt now : Time)
  | cancel (bucket : String) (id : JobID)
  | reschedule (bucket : String) (id : JobID) (newTime now : Time)
  | recoverStale (clock : Int)

def exec (lua : Lua) (db : Db ρ) : Command → Db ρ
  | .save j => save j db
  | .claim queue now n workerID lockUntil => (claim queue now n workerID lockUntil db).1
  | .ack id => (ack id db).1
  | .fail bucket id errMsg nextAttemptAt now => (fail lua bucket id errMsg nextAttemptAt now db).1
  | .cancel bucket id => (cancel bucket id db).1
  | .reschedule bucket id newTime now => (reschedule bucket id newTime now db).1
  | .recoverStale clock => (recoverStale lua clock db).1

def execAll (ρ : Scores) (lua : Lua) (cmds : List Command) : Db ρ := cmds.foldl (exec lua) (Db.empty ρ)

section
variable {lua : Lua}

theorem execAll_snoc (cmds : List Command) (c : Command) :
    execAll ρ lua (cmds ++ [c]) = exec lua (execAll ρ lua cmds) c := by
  unfold execAll
  rw [List.foldl_append]
  rfl

/-! ## calls one after the other -/

theorem withBucket_exec {id : JobID} {db : Db ρ} {script : String → Db ρ × String}
    {err : String → Option StoreErr} (c : String → Command)
    (h : ∀ bucket, (script bucket).1 = exec lua db (c bucket)) :
    (withBucket id db script err).1 = db ∨ ∃ c, (withBucket id db script err).1 = exec lua db c := by
  unfold withBucket
  cases lookup id db with
  | none => exact Or.inl rfl
  | some bucket => exact Or.inr ⟨c bucket, h bucket⟩

theorem call_exec (db : Db ρ) (o : Op) :
    (call lua db o).1 = db ∨ ∃ c, (call lua db o).1 = exec lua db c := by
  cases o with
  | save j => exact Or.inr ⟨.save j, rfl⟩
  | claimDue q now n w lu => exact Or.inr ⟨.claim q now n w lu, rfl⟩
  | ack id => exact Or.inr ⟨.ack id, rfl⟩
  | fail id msg t now => exact withBucket_exec (.fail · id msg t now) fun _ => rfl
  | cancel id => exact withBucket_exec (.cancel · id) fun _ => rfl
  | reschedule id t now => exact withBucket_exec (.reschedule · id t now) fun _ => rfl
  | recoverStale clock => exact Or.inr ⟨.recoverStale clock, rfl⟩
  | queueSize q => exact Or.inl rfl

theorem execAll_extend {db db' : Db ρ} (h : ∃ cmds, db = execAll ρ lua cmds)
    (h' : db' = db ∨ ∃ c, db' = exec lua db c) : ∃ cmds, db' = execAll ρ lua cmds := by
  obtain ⟨cmds, rfl⟩ := h
  rcases h' with rfl | ⟨c, rfl⟩
  · exact ⟨cmds, rfl⟩
  · exact ⟨cmds ++ [c], (execAll_snoc cmds c).symm⟩

theorem runCalls_execAll (ops : List Op) : ∃ cmds, runCalls lua (Db.empty ρ) ops = execAll ρ lua cmds := by
  induction ops using List.reverseRecOn with
  | nil => exact ⟨[], rfl⟩
  | append_singleton ops o ih =>
    rw [runCalls_snoc]
    exact execAll_extend ih (call_exec _ o)

/-! ## callers that interleave -/

/-- only a `Save` sends a command that saves -/
theorem step_exec {s t : Sys ρ} {a : Label} (h : step lua s a = some t) :
    t.db = s.db ∨ ∃ c, t.db = exec lua s.db c ∧ ∀ j, c = .save j → a = .save j := by
  cases a with
  | save j =>
    obtain ⟨_, e⟩ := Option.ite_none_right_eq_some.mp h
    rw [← Option.some.inj e]
    exact Or.inr ⟨.save j, rfl, fun _ e => by cases e; rfl⟩
  | claim c q now n lu =>
    simp only [step] at h
    split at h
    · cases h
      exact Or.inr ⟨.claim q now n c.worker lu, rfl, fun _ e => by cases e⟩
    · cases h
  | fetch c =>
    simp only [step] at h
    split at h
    · cases h
      exact Or.inl rfl
    · cases h
      exact Or.inl rfl
    · cases h
  | ack c id =>
    simp only [step] at h
    split at h
    · cases h
      exact Or.inr ⟨.ack id, rfl, fun _ e => by cases e⟩
    · cases h
  | failLookup c id msg t' | cancelLookup c id | rescheduleLookup c id t' =>
    simp only [step] at h
    split at h
    · cases h
      exact Or.inl (look_db ..)
    · cases h
  | failRun c now =>
    simp only [step] at h
    split at h
    · next id b msg t' _ =>
      cases h
      exact Or.inr ⟨.fail b id msg t' now, rfl, fun _ e => by cases e⟩
    · cases h
  | cancelRun c =>
    simp only [step] at h
    split at h
    · next id b _ =>
      cases h
      exact Or.inr ⟨.cancel b id, rfl, fun _ e => by cases e⟩
    · cases h
  | rescheduleRun c now =>
    simp only [step] at h
    split at h
    · next id b t' _ =>
      cases h
      exact Or.inr ⟨.reschedule b id t' now, rfl, fun _ e => by cases e⟩
    · cases h
  | recoverStale =>
    cases h
    exact Or.inr ⟨.recoverStale s.nowNanos, rfl, fun _ e => by cases e⟩
  | tick d =>
    cases h
    exact Or.inl rfl

theorem run_execAll {l : List Label} {s : Sys ρ} (h : Trans.run (step lua) (Sys.init ρ) l = some s) :
    ∃ cmds, s.db = execAll ρ lua cmds := by
  refine Trans.run_keep (P := fun s => ∃ cmds, s.db = execAll ρ lua cmds) (fun s a t hs hst => ?_)
    ⟨[], rfl⟩ h
  exact execAll_extend hs ((step_exec hst).imp_right fun ⟨c, e, _⟩ => ⟨c, e⟩)

end
end GS.Redis
