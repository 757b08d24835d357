import GoSchedule.Cluster.Fate
import GoSchedule.Contract.Sqlite

/-!
# Schedulers on a SQLite store

A worker that is still busy when its lock runs out can have its job taken back, and then two workers
execute it.  When every worker reports, or is stopped, before that, this does not happen.

* `Prompt`   time does not pass the lock of a job that somebody holds;
* `Once`, `once_step`   **then every job is held once, the store has it as it is held, and a handler
  returns nil for it at most once**;
* `sqlite`, `sqlite_keeps`   the SQLite store as the store that is shared: its calls are transactions on
  one connection, one after the other;
* `prompt_executes_once`   **over every prompt run**;
* `saved_accounted`        **over every run, no saved job is lost**.
-/

namespace GS.Cluster
open Contract Slots Trans
open Mem (JobMap)

section
variable {σ : Type}

/-- a claim is for a time that has not run out, and time does not pass the lock of a job that is held -/
def Prompt (C : Scale) (s : Sys σ) : Label → Prop
  | .tick t => ∀ j ∈ s.held, ¬ C.late j.lockedUntil t
  | .claim i => ∀ L ∈ s.lanes[i]?.toList, ¬ C.late (s.clock.add L.sched.visibilityTimeout) s.clock
  | _ => True

instance (C : Scale) [DecidableRel C.late] (s : Sys σ) : DecidablePred (Prompt C s)
  | .tick t => inferInstanceAs (Decidable (∀ j ∈ s.held, ¬ C.late j.lockedUntil t))
  | .claim i => inferInstanceAs (Decidable (∀ L ∈ s.lanes[i]?.toList,
      ¬ C.late (s.clock.add L.sched.visibilityTimeout) s.clock))
  | .save _ | .cancel _ | .reschedule .. | .move .. | .finish .. | .janitor | .stop _ => isTrue trivial

structure Once (C : Scale) (s : Sys σ) (m : JobMap) : Prop where
  nodup : (s.held.map Job.id).Nodup
  record : ∀ j ∈ s.held, m j.id = some j ∧ j.state = stateClaimed
  lock : ∀ j ∈ s.held, ¬ C.late j.lockedUntil s.clock
  once : ∀ id, s.log.countP (Ev.succeeds id) ≤ 1
  gone : ∀ id, 0 < s.log.countP (Ev.succeeds id) → m id = none ∧ id ∈ s.saved.map Job.id

theorem once_init (C : Scale) (db : σ) (scs : List Scheduler) (clock : Time) :
    Once C (Sys.init db scs clock) Contract.empty := by
  have hheld := held_init db scs clock
  refine ⟨?_, ?_, ?_, fun _ => Nat.zero_le 1, fun _ h => by cases h⟩
  · rw [hheld]
    exact List.nodup_nil
  · rw [hheld]
    exact fun _ h => by cases h
  · rw [hheld]
    exact fun _ h => by cases h

variable {C : Scale} {s t : Sys σ} {a : Label} {m m' : JobMap}

/-- a call that leaves what is still held alone -/
theorem Once.call (O : Once C s m) {o : Op} {r : Res} (h : Step C m o r m') {D : List Job}
    (hheld : s.held.Perm (D ++ t.held)) (hspare : ∀ j ∈ t.held, Spares C j o)
    (hsave : ∀ j, o = .save j → j.id ∉ s.saved.map Job.id)
    (hsaved : ∀ id ∈ s.saved.map Job.id, id ∈ t.saved.map Job.id) (hclock : t.clock = s.clock)
    (hlog : ∀ id, t.log.countP (Ev.succeeds id) = s.log.countP (Ev.succeeds id)) : Once C t m' := by
  have hmem : ∀ j ∈ t.held, j ∈ s.held := fun j hj => hheld.mem_iff.mpr (List.mem_append_right _ hj)
  refine ⟨?_, fun j hj => ?_, fun j hj => ?_, fun id => ?_, fun id hid => ?_⟩
  · have hn := (hheld.map Job.id).nodup_iff.mp O.nodup
    rw [List.map_append] at hn
    exact (List.nodup_append.mp hn).2.1
  · obtain ⟨hrec, hc⟩ := O.record j (hmem j hj)
    exact ⟨claimed_kept h hrec hc (hspare j hj), hc⟩
  · rw [hclock]
    exact O.lock j (hmem j hj)
  · rw [hlog]
    exact O.once id
  · rw [hlog] at hid
    obtain ⟨hn, hs⟩ := O.gone id hid
    refine ⟨none_kept h hn fun j hj e => ?_, hsaved id hs⟩
    exact hsave j hj (e ▸ hs)

theorem once_claim (O : Once C s m) {i : Nat} {L : Lane} {J : List Job}
    (hp : Prompt C s (.claim i)) (lane : s.lanes[i]? = some L)
    (map : Step C m (L.claim s.clock) (.jobs J) m') (clock : t.clock = s.clock)
    (held : t.held.Perm (J ++ s.held)) (saved : t.saved = s.saved) (log : t.log = s.log) :
    Once C t m' := by
  obtain ⟨hnodup, hJ⟩ := claim_spec map
  have hlock : ¬ C.late (s.clock.add L.sched.visibilityTimeout) s.clock :=
    hp L (Option.mem_toList.mpr lane)
  -- what is claimed was pending, and what is held is claimed
  have hapart : ∀ j ∈ J, ∀ k ∈ s.held, j.id ≠ k.id := by
    intro j hj k hk e
    obtain ⟨_, _, _, k', hk', hpend⟩ := hJ j hj
    obtain ⟨hrec, hc⟩ := O.record k hk
    rw [e, hrec] at hk'
    rw [← Option.some.inj hk', hc] at hpend
    exact absurd hpend (by decide)
  refine ⟨?_, fun j hj => ?_, fun j hj => ?_, ?_, fun id hid => ?_⟩
  · refine (held.map Job.id).nodup_iff.mpr ?_
    rw [List.map_append]
    refine List.nodup_append.mpr ⟨hnodup, O.nodup, fun x hx y hy e => ?_⟩
    obtain ⟨j, hj, rfl⟩ := List.mem_map.mp hx
    obtain ⟨k, hk, rfl⟩ := List.mem_map.mp hy
    exact hapart j hj k hk e
  · rcases List.mem_append.mp (held.mem_iff.mp hj) with hj | hj
    · exact ⟨(hJ j hj).1, (hJ j hj).2.1⟩
    · obtain ⟨hrec, hc⟩ := O.record j hj
      exact ⟨claimed_kept map hrec hc trivial, hc⟩
  · rw [clock]
    rcases List.mem_append.mp (held.mem_iff.mp hj) with hj | hj
    · rw [(hJ j hj).2.2.1]
      exact hlock
    · exact O.lock j hj
  · rw [log]
    exact O.once
  · rw [log] at hid
    rw [saved]
    obtain ⟨hn, hs⟩ := O.gone id hid
    exact ⟨none_kept map hn fun j e => (by cases e), hs⟩

/-- an accepted acknowledgement removes the record -/
theorem ack_gone {j : Job} {r : Res} (h : Step C m (.ack j.id) r m') (hj : m j.id = some j)
    (hc : j.state = stateClaimed) : m' j.id = none := by
  cases h with
  | ack =>
    show (m.onState j.id stateClaimed .jobNotFound fun _ => none).2 j.id = none
    rw [Mem.onState_ok hj hc]
    exact Function.update_self ..

theorem once_finish (O : Once C s m) (K : Kept s m) {j : Job} {failure : Option String} {u : Time}
    {r : Res} (map : Step C m (match failure with
      | none => .ack j.id
      | some err => .fail j.id err u) r m') (clock : t.clock = s.clock)
    (held : s.held.Perm (j :: t.held)) (saved : t.saved = s.saved)
    (log : t.log = s.log ++ [.done j failure]) : Once C t m' := by
  have hnodup := (held.map Job.id).nodup_iff.mp O.nodup
  have hne : ∀ k ∈ t.held, j.id ≠ k.id := fun k hk e =>
    (List.nodup_cons.mp hnodup).1 (e ▸ List.mem_map_of_mem hk)
  obtain ⟨hrec, hc⟩ := O.record j (held.mem_iff.mpr List.mem_cons_self)
  have hzero : s.log.countP (Ev.succeeds j.id) = 0 := by
    by_contra hpos
    have hn := (O.gone j.id (Nat.pos_of_ne_zero hpos)).1
    cases hrec.symm.trans hn
  cases failure with
  | some err =>
    refine O.call (D := [j]) map held (fun k hk => hne k hk) (fun _ e => by cases e)
      (fun id hid => saved ▸ hid) clock fun id => ?_
    rw [log, List.countP_append]
    rfl
  | none =>
    -- apart from the report the move is a call like any other
    have hcall : Once C { t with log := s.log } m' :=
      O.call (D := [j]) map held (fun k hk => hne k hk) (fun _ e => by cases e)
        (fun id hid => saved ▸ hid) clock fun _ => rfl
    have hcount : ∀ id, t.log.countP (Ev.succeeds id) =
        s.log.countP (Ev.succeeds id) + if j.id = id then 1 else 0 := by
      intro id
      rw [log, List.countP_append, List.countP_singleton]
      simp only [Ev.succeeds, beq_iff_eq]
    refine ⟨hcall.nodup, hcall.record, hcall.lock, fun id => ?_, fun id hid => ?_⟩
    · rw [hcount]
      by_cases e : j.id = id
      · rw [← e, hzero, if_pos rfl]
      · rw [if_neg e]
        exact O.once id
    · by_cases e : j.id = id
      · subst e
        obtain ⟨j', hj', hid', _⟩ := K.record _ j hrec
        refine ⟨ack_gone map hrec hc, ?_⟩
        rw [saved, ← hid']
        exact List.mem_map_of_mem hj'
      · rw [hcount, if_neg e] at hid
        exact hcall.gone id hid

/-- **One prompt move.** -/
theorem once_step (O : Once C s m) (K : Kept s m) (hp : Prompt C s a) (h : Does C s a m m' t) :
    Once C t m' := by
  have hperm : t.held = s.held → s.held.Perm ([] ++ t.held) := fun e => by rw [e, List.nil_append]
  cases h with
  | tick c label map clock held saved log =>
    subst label
    subst map
    refine ⟨held ▸ O.nodup, held ▸ O.record, ?_, log ▸ O.once, ?_⟩
    · rw [held, clock]
      exact hp
    · rw [log, saved]
      exact O.gone
  | quiet D map clock held saved log =>
    subst map
    have hmem : ∀ j ∈ t.held, j ∈ s.held := fun j hj => held.mem_iff.mpr (List.mem_append_right _ hj)
    have hn := (held.map Job.id).nodup_iff.mp O.nodup
    rw [List.map_append] at hn
    refine ⟨(List.nodup_append.mp hn).2.1, fun j hj => O.record j (hmem j hj), fun j hj => ?_,
      log ▸ O.once, ?_⟩
    · rw [clock]
      exact O.lock j (hmem j hj)
    · rw [log, saved]
      exact O.gone
  | save j r pending attempt fresh map clock held saved log =>
    refine O.call map (hperm held) (fun k hk e => fresh ?_) (fun j' e => Op.save.inj e ▸ fresh)
      (fun id hid => ?_) clock fun _ => by rw [log]
    · rw [held] at hk
      obtain ⟨j', hj', hcopy⟩ := K.copy k hk
      rw [e, hcopy.id]
      exact List.mem_map_of_mem hj'
    · rw [saved, List.map_append]
      exact List.mem_append_left _ hid
  | cancel id r map clock held saved log =>
    refine O.call map (hperm held) (fun _ _ => trivial) (fun _ e => by cases e)
      (fun _ h => saved ▸ h) clock fun id' => ?_
    rw [log, List.countP_append]
    split <;> rfl
  | reschedule id u r map clock held saved log =>
    exact O.call map (hperm held) (fun _ _ => trivial) (fun _ e => by cases e) (fun _ h => saved ▸ h)
      clock fun _ => by rw [log]
  | claim i L J label lane map clock held saved log =>
    subst label
    exact once_claim O hp lane map clock held saved log
  | finish j failure u r map clock held saved log => exact once_finish O K map clock held saved log
  | janitor r map clock held saved log =>
    refine O.call map (hperm held) (fun j hj => ?_) (fun _ e => by cases e) (fun _ h => saved ▸ h)
      clock fun _ => by rw [log]
    exact O.lock j (held ▸ hj)

end

/-! ## the SQLite store -/

/-- the call with the reading of the clock that only `updated_at` sees -/
def issue (now : Time) : Op → Sqlite.Call
  | .save j => .op (.save j)
  | .claimDue queue t n workerID lockUntil => .op (.claimDue queue t n workerID lockUntil)
  | .ack id => .op (.ack id)
  | .fail id errMsg nextAttemptAt => .op (.fail id errMsg nextAttemptAt now)
  | .cancel id => .op (.cancel id)
  | .reschedule id newTime => .op (.reschedule id newTime now)
  | .recoverStale t => .op (.recoverStale t)
  | .queueSize queue => .queueSize queue

def sqlite : Backend Sqlite.Db := ⟨fun now db o => Sqlite.reply db (issue now o)⟩

/-- the instants of the call are sane, and so are the attempts that a failure finds -/
def SaneOp (db : Sqlite.Db) (o : Op) : Prop := Sqlite.SaneCall db (issue zeroTime o)

instance (db : Sqlite.Db) : DecidablePred (SaneOp db) :=
  fun _ => inferInstanceAs (Decidable (Sqlite.SaneCall db _))

theorem sqlite_keeps : Keeps sqlite Sqlite.scale SaneOp Sqlite.Shows := by
  intro now db m o hR hok
  have hsane : Sqlite.SaneCall db (issue now o) := by cases o <;> exact hok
  have hasked : (issue now o).asked = o := by cases o <;> rfl
  have h := Sqlite.reply_shows hR hsane
  rw [hasked] at h
  exact h

/-- the store call of a move is sane -/
def Sane (s : Sys Sqlite.Db) (a : Label) : Prop := ∀ o ∈ (s.op a).toList, SaneOp s.store o

instance (s : Sys Sqlite.Db) (a : Label) : Decidable (Sane s a) :=
  inferInstanceAs (Decidable (∀ o ∈ (s.op a).toList, SaneOp s.store o))

section
variable {scs : List Scheduler} {clock : Time} {l : List Label} {s : Sys Sqlite.Db}

theorem sane_does {t : Sys Sqlite.Db} {a : Label} {m : JobMap} (hR : Sqlite.Shows s.store m)
    (hs : Sane s a) (h : step sqlite s a = some t) :
    ∃ m', Sqlite.Shows t.store m' ∧ Does Sqlite.scale s a m m' t :=
  step_does sqlite_keeps hR (fun o ho => hs o (Option.mem_toList.mpr ho)) h

theorem kept_run (h : run (step sqlite) (Sys.init Sqlite.Db.empty scs clock) l = some s)
    (hs : Meets (step sqlite) Sane (Sys.init Sqlite.Db.empty scs clock) l) :
    ∃ m, Sqlite.Shows s.store m ∧ Kept s m := by
  refine run_keep_of (P := fun s => ∃ m, Sqlite.Shows s.store m ∧ Kept s m) ?_ hs
    ⟨_, Sqlite.empty_shows, kept_init _ scs clock⟩ h
  rintro s a t ⟨m, hR, K⟩ hsane ht
  obtain ⟨m', hR', hd⟩ := sane_does hR hsane ht
  exact ⟨m', hR', kept_step K hd⟩

theorem once_run (h : run (step sqlite) (Sys.init Sqlite.Db.empty scs clock) l = some s)
    (hs : Meets (step sqlite) (fun s a => Sane s a ∧ Prompt Sqlite.scale s a)
      (Sys.init Sqlite.Db.empty scs clock) l) :
    ∃ m, Sqlite.Shows s.store m ∧ Once Sqlite.scale s m := by
  have hkeep : ∃ m, Sqlite.Shows s.store m ∧ Kept s m ∧ Once Sqlite.scale s m := by
    refine run_keep_of (P := fun s => ∃ m, Sqlite.Shows s.store m ∧ Kept s m ∧ Once Sqlite.scale s m) ?_ hs
      ⟨_, Sqlite.empty_shows, kept_init _ scs clock, once_init _ _ scs clock⟩ h
    rintro s a t ⟨m, hR, K, O⟩ ⟨hsane, hp⟩ ht
    obtain ⟨m', hR', hd⟩ := sane_does hR hsane ht
    exact ⟨m', hR', kept_step K hd, once_step O K hp hd⟩
  obtain ⟨m, hR, _, O⟩ := hkeep
  exact ⟨m, hR, O⟩

end

/-- **In prompt runs every job is executed by one worker at a time, and with success at most once**: no
two dispatchers, channels or workers hold a job at the same time, and the row is claimed as its holder
has it. -/
theorem prompt_executes_once (scs : List Scheduler) (clock : Time) (l : List Label) (s : Sys Sqlite.Db)
    (h : run (step sqlite) (Sys.init Sqlite.Db.empty scs clock) l = some s)
    (hs : Meets (step sqlite) (fun s a => Sane s a ∧ Prompt Sqlite.scale s a)
      (Sys.init Sqlite.Db.empty scs clock) l) :
    (s.held.map Job.id).Nodup ∧
    (∀ j ∈ s.held, (s.store.jobs.lookup j.id).map Sqlite.shown = some j ∧ j.state = stateClaimed) ∧
    ∀ id, s.log.countP (Ev.succeeds id) ≤ 1 := by
  obtain ⟨m, hR, O⟩ := once_run h hs
  refine ⟨O.nodup, fun j hj => ?_, O.once⟩
  have hrec := O.record j hj
  rw [hR.eq] at hrec
  exact hrec

/-- two schedulers with one worker each, and a lock of twenty nanoseconds -/
def pair : List Scheduler :=
  [{ handlers := ["h"], queues := [("q", 1)], workerID := "a", visibilityTimeout := 20,
     defaultBackoff := fun _ => 5 },
   { handlers := ["h"], queues := [("q", 1)], workerID := "b", visibilityTimeout := 20,
     defaultBackoff := fun _ => 5 }]

def oneJob : Job :=
  { id := "j", name := "h", queue := "q", runAt := 5, state := statePending, maxAttempts := 1 }

/-- the lane `i` claims the job and its worker starts the handler -/
def takes (i : Nat) : List Label :=
  [.claim i, .move i .send, .move i (.receive 0), .move i (.lookup 0)]

/-- "a" executes the job and reports at 25; "b" claims before and after -/
def promptRun : List Label :=
  .save oneJob :: takes 0 ++ [.claim 1, .tick 25, .janitor, .finish 0 0 ⟨.ok, 10, 25, 25⟩, .tick 90,
    .janitor,
    .claim 1]

theorem prompt_executes_once_pair : ∃ s,
    run (step sqlite) (Sys.init Sqlite.Db.empty pair 10) promptRun = some s ∧
    (s.held.map Job.id).Nodup ∧ s.log.countP (Ev.succeeds "j") = 1 ∧
    ∀ id, s.log.countP (Ev.succeeds id) ≤ 1 := by
  have hrun : (run (step sqlite) (Sys.init Sqlite.Db.empty pair 10) promptRun).map
      (fun s => s.log.countP (Ev.succeeds "j")) = some 1 := by decide +kernel
  obtain ⟨s, hs, hlog⟩ := Option.map_eq_some_iff.mp hrun
  obtain ⟨h1, _, h3⟩ := prompt_executes_once pair 10 promptRun s hs (by decide +kernel)
  exact ⟨s, hs, h1, hlog, h3⟩

/-- "a" is still busy when its lock runs out, and "b" is given the job: both handlers return nil -/
theorem late_executes_twice : (run (step sqlite) (Sys.init Sqlite.Db.empty pair 10)
      (.save oneJob :: takes 0 ++ [.tick 31, .janitor] ++ takes 1 ++
        [.finish 0 0 ⟨.ok, 10, 31, 31⟩, .finish 1 0 ⟨.ok, 31, 31, 31⟩])).map
      (fun s => s.log.countP (Ev.succeeds "j")) = some 2 := by
  decide +kernel

/-- **No saved job is lost**, in any run: it is stored, or was cancelled, or its handler has returned nil
for the payload it was saved with, or it has failed as often as it may. -/
theorem saved_accounted (scs : List Scheduler) (clock : Time) (l : List Label) (s : Sys Sqlite.Db)
    (h : run (step sqlite) (Sys.init Sqlite.Db.empty scs clock) l = some s)
    (hs : Meets (step sqlite) Sane (Sys.init Sqlite.Db.empty scs clock) l) (j : Job) (hj : j ∈ s.saved) :
    (∃ r, s.store.jobs.lookup j.id = some r ∧ r.name = j.name ∧ r.payload = j.payload) ∨
    .cancelled j.id ∈ s.log ∨
    (∃ k, .done k none ∈ s.log ∧ k.id = j.id ∧ k.name = j.name ∧ k.payload = j.payload) ∨
    0 < (kept none j).maxAttempts ∧ (kept none j).maxAttempts.toInt ≤ s.log.countP (Ev.fails j.id) := by
  obtain ⟨m, hR, K⟩ := kept_run h hs
  cases K.fate j hj with
  | stored r record copy attempt =>
    obtain ⟨_, hname, _, hpayload⟩ := content_fields copy
    rw [hR.eq] at record
    obtain ⟨row, hrow, rfl⟩ := Option.map_eq_some_iff.mp record
    exact Or.inl ⟨row, hrow, hname, hpayload⟩
  | cancelled mem => exact Or.inr (Or.inl mem)
  | succeeded k mem copy =>
    obtain ⟨hid, hname, _, hpayload⟩ := content_fields copy
    exact Or.inr (Or.inr (Or.inl ⟨k, mem, hid, hname, hpayload⟩))
  | failed limit le => exact Or.inr (Or.inr (Or.inr ⟨limit, le⟩))

/-- "a" stops with the job in its channel, and "b" fails -/
def stoppedRun : List Label :=
  [.save oneJob, .claim 0, .move 0 .send, .stop 0, .tick 31, .janitor] ++ takes 1 ++
    [.finish 1 0 ⟨.error "boom", 31, 31, 31⟩]

theorem saved_accounted_stopped : ∃ s,
    run (step sqlite) (Sys.init Sqlite.Db.empty pair 10) stoppedRun = some s ∧ oneJob ∈ s.saved ∧
    ((∃ r, s.store.jobs.lookup "j" = some r ∧ r.name = "h" ∧ r.payload = []) ∨ .cancelled "j" ∈ s.log ∨
      (∃ k, .done k none ∈ s.log ∧ k.id = "j" ∧ k.name = "h" ∧ k.payload = []) ∨
      0 < (kept none oneJob).maxAttempts ∧
        (kept none oneJob).maxAttempts.toInt ≤ s.log.countP (Ev.fails "j")) := by
  have hrun : (run (step sqlite) (Sys.init Sqlite.Db.empty pair 10) stoppedRun).map
      (fun s => decide (oneJob ∈ s.saved)) = some true := by decide +kernel
  obtain ⟨s, hs, hsaved⟩ := Option.map_eq_some_iff.mp hrun
  have hmem : oneJob ∈ s.saved := of_decide_eq_true hsaved
  exact ⟨s, hs, hmem, saved_accounted pair 10 stoppedRun s hs (by decide +kernel) oneJob hmem⟩

end GS.Cluster
