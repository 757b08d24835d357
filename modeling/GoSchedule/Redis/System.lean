import GoSchedule.Lib.History
import GoSchedule.Lib.Run
import GoSchedule.Redis.Table

/-!
# Clients of one Redis server

Any number of callers share a server.  A script or a MULTI block is one step; `ClaimDue` is its script
and then one HGETALL for each ID, and `Fail`, `Cancel` and `Reschedule` are a lookup and then a script,
so a caller can be between two steps of a call (`Call`) while others move.

* `Label`, `step`   who moves next, and the move;
* `Ev`              the history that the steps write: IDs handed out by a claim script, jobs returned
  by `ClaimDue`, `Ack` and `Fail` called and their scripts run, successful `Fail` and `RecoverStale`;
* `Move`, `step_move`   all that a step can do to the table and the history;
* `Ok`, `step_ok`   the server holds a table, and a bucket that was looked up stays right;
* `run_consistent`  **the three structures agree in every reachable state**, and an ID is handed out
  again only after a `Fail` or `RecoverStale` on it.

`Save` is called with an ID that was never used and a pending job, of any priority.  The server's clock
never goes back.
-/

namespace GS.Redis
open Trans History Decimal MapOn

variable {ρ : Scores}

/-- a goroutine of the process with this worker ID -/
structure Caller where
  worker : String
  call : Nat
deriving DecidableEq, Repr

inductive Call where
  | idle
  | fetching (ids : List JobID) (got : List Job)
  | fail (id : JobID) (bucket : String) (errMsg : String) (nextAttemptAt : Time)
  | cancel (id : JobID) (bucket : String)
  | reschedule (id : JobID) (bucket : String) (newTime : Time)
deriving DecidableEq, Repr

/-- the job and the bucket of a call whose script is still to run -/
def Call.target : Call → Option (JobID × String)
  | .fail id b _ _ => some (id, b)
  | .cancel id b => some (id, b)
  | .reschedule id b _ => some (id, b)
  | _ => none

inductive Ev where
  | claimed (worker : String) (id : JobID) (lockUntil : Time)
  | returned (worker : String) (id : JobID)
  | called (worker : String) (id : JobID)
  | reported (worker : String) (id : JobID)
  | failed (id : JobID)
  | recovered (id : JobID)
deriving DecidableEq, Repr

namespace Ev

def handsOut (id : JobID) : Ev → Bool
  | claimed _ i _ => i == id
  | _ => false

def givesBack (id : JobID) : Ev → Bool
  | failed i => i == id
  | recovered i => i == id
  | _ => false

/-- an event that neither hands out nor gives back a job -/
def Quiet (e : Ev) : Prop := ∀ id, e.handsOut id = false ∧ e.givesBack id = false

theorem quiet_ack (w : String) (i : JobID) : ∀ e ∈ [called w i, reported w i], e.Quiet := by
  intro e he id
  rcases List.mem_cons.mp he with rfl | he
  · exact ⟨rfl, rfl⟩
  · rw [List.mem_singleton.mp he]
    exact ⟨rfl, rfl⟩

end Ev

structure Sys (ρ : Scores) where
  db : Db ρ
  clock : Nat
  calls : Caller → Call
  used : List JobID
  log : List Ev

namespace Sys

def init (ρ : Scores) : Sys ρ := ⟨Db.empty ρ, 0, fun _ => .idle, [], []⟩

def setCall (s : Sys ρ) (c : Caller) (x : Call) : Sys ρ :=
  { s with calls := Function.update s.calls c x }

def record (s : Sys ρ) (es : List Ev) : Sys ρ := { s with log := s.log ++ es }

theorem record_nil (s : Sys ρ) : s.record [] = s := by
  unfold record
  rw [List.append_nil]

/-- the HMGET of a call; a job that is not there ends the call -/
def look (s : Sys ρ) (c : Caller) (id : JobID) (next : String → Call) : Sys ρ :=
  match lookup id s.db with
  | none => s
  | some bucket => s.setCall c (next bucket)

/-- `now_nanos` of `recoverStaleScript` -/
def nowNanos (s : Sys ρ) : Int := nanos ρ.ofInt s.clock

end Sys

theorem look_db (s : Sys ρ) (c : Caller) (id : JobID) (next : String → Call) :
    (s.look c id next).db = s.db := by
  unfold Sys.look
  split
  · rfl
  · rfl

inductive Label where
  | save (j : Job)
  | claim (c : Caller) (queue : String) (now : Time) (n : Int) (lockUntil : Time)
  | fetch (c : Caller)
  | ack (c : Caller) (id : JobID)
  | failLookup (c : Caller) (id : JobID) (errMsg : String) (nextAttemptAt : Time)
  | failRun (c : Caller) (now : Time)
  | cancelLookup (c : Caller) (id : JobID)
  | cancelRun (c : Caller)
  | rescheduleLookup (c : Caller) (id : JobID) (newTime : Time)
  | rescheduleRun (c : Caller) (now : Time)
  | recoverStale
  | tick (d : Nat)

def step (lua : Lua) (s : Sys ρ) : Label → Option (Sys ρ)
  | .save j =>
    if j.id ∉ s.used ∧ j.state = statePending then
      some { s with db := save j s.db, used := j.id :: s.used }
    else none
  | .claim c q now n lockUntil =>
    match s.calls c with
    | .idle =>
      let r := claim q now n c.worker lockUntil s.db
      some { s.setCall c (.fetching r.2 []) with
        db := r.1, log := s.log ++ r.2.map fun id => .claimed c.worker id lockUntil }
    | _ => none
  | .fetch c =>
    match s.calls c with
    | .fetching (id :: ids) got =>
      some (s.setCall c (.fetching ids
        (got ++ [deserializeJob ((s.db.hash (jobKey id)).getD fun _ => none)])))
    | .fetching [] got =>
      some { s.setCall c .idle with log := s.log ++ got.map fun j => .returned c.worker j.id }
    | _ => none
  | .ack c id =>
    match s.calls c with
    | .idle =>
      some { s with
        db := (ack id s.db).1, log := s.log ++ [.called c.worker id, .reported c.worker id] }
    | _ => none
  | .failLookup c id errMsg t =>
    match s.calls c with
    | .idle =>
      some ((s.record [.called c.worker id]).look c id fun b => .fail id b errMsg t)
    | _ => none
  | .failRun c now =>
    match s.calls c with
    | .fail id bucket errMsg t =>
      let r := fail lua bucket id errMsg t now s.db
      some { s.setCall c .idle with
        db := r.1, log := s.log ++ .reported c.worker id :: if r.2 = "ok" then [.failed id] else [] }
    | _ => none
  | .cancelLookup c id =>
    match s.calls c with
    | .idle => some (s.look c id fun b => .cancel id b)
    | _ => none
  | .cancelRun c =>
    match s.calls c with
    | .cancel id bucket => some { s.setCall c .idle with db := (cancel bucket id s.db).1 }
    | _ => none
  | .rescheduleLookup c id t =>
    match s.calls c with
    | .idle => some (s.look c id fun b => .reschedule id b t)
    | _ => none
  | .rescheduleRun c now =>
    match s.calls c with
    | .reschedule id bucket t =>
      some { s.setCall c .idle with db := (reschedule bucket id t now s.db).1 }
    | _ => none
  | .recoverStale =>
    let r := recoverStale lua s.nowNanos s.db
    some { s with db := r.1, log := s.log ++ r.2.map .recovered }
  | .tick d => some { s with clock := s.clock + d }

/-! ## what a step can do -/

/-- `Move s T a es T'`: the step `a` from `s` with the table `T` writes the events `es` and leaves the
table `T'` -/
inductive Move (s : Sys ρ) (T : Table) : Label → List Ev → Table → Prop
  | quiet {a : Label} {es : List Ev} (hes : ∀ e ∈ es, e.Quiet) : Move s T a es T
  | save {j : Job} (fresh : j.id ∉ s.used) :
      Move s T (.save j) [] (Function.update T j.id (some (recOf j)))
  | claim {c : Caller} {q : String} {now lu : Time} {n : Int} {ids : List JobID} (hn : ids.Nodup)
      (hp : ∀ id ∈ ids, ∃ r, T id = some r ∧ r.claimed = false) :
      Move s T (.claim c q now n lu) (ids.map fun id => .claimed c.worker id lu)
        (mapOn T (Rec.claim c.worker (stamp lu)) ids)
  | ack {c : Caller} {id : JobID} {r : Rec} (hT : T id = some r) (hc : r.claimed = true) :
      Move s T (.ack c id) [.called c.worker id, .reported c.worker id] (Function.update T id none)
  | fail {c : Caller} {id : JobID} {b msg : String} {t now : Time} {r : Rec} {r' : Option Rec}
      (hcall : s.calls c = .fail id b msg t) (hT : T id = some r) (hc : r.claimed = true)
      (hr : r' = none ∨ r' = some (r.retry (stamp t))) :
      Move s T (.failRun c now) [.reported c.worker id, .failed id] (Function.update T id r')
  | cancel {c : Caller} {id : JobID} {r : Rec} (hT : T id = some r) (hc : r.claimed = false) :
      Move s T (.cancelRun c) [] (Function.update T id none)
  | reschedule {c : Caller} {id : JobID} {r : Rec} {t now : Time} (hT : T id = some r)
      (hc : r.claimed = false) :
      Move s T (.rescheduleRun c now) [] (Function.update T id (some (r.move (stamp t))))
  | recover {ids : List JobID}
      (hp : ∀ id ∈ ids, ∃ r, T id = some r ∧ r.claimed = true ∧
        ρ.ofInt r.lockedUntil ≤ s.nowNanos) :
      Move s T .recoverStale (ids.map .recovered) (mapOn T Rec.release ids)

structure Ok (s : Sys ρ) (T : Table) : Prop where
  rep : Rep s.db T
  known : ∀ id r, T id = some r → id ∈ s.used
  bucket : ∀ c id b, (s.calls c).target = some (id, b) →
    id ∈ s.used ∧ ∀ r, T id = some r → b = pendingKey r.queue r.priority

theorem init_ok : Ok (Sys.init ρ) fun _ => none where
  rep := empty_rep
  known := fun _ _ h => by cases h
  bucket := fun _ _ _ h => by cases h

/-- a record of the table after a move is one from before, in its queue and priority, or a new one -/
theorem Move.origin {s : Sys ρ} {T T' : Table} {a : Label} {es : List Ev} (m : Move s T a es T')
    {id : JobID} {r' : Rec} (h : T' id = some r') :
    (∃ r, T id = some r ∧ r'.queue = r.queue ∧ r'.priority = r.priority) ∨
      id ∉ s.used ∧ ∃ j, a = .save j ∧ j.id = id := by
  have hupd : ∀ {i : JobID} {x : Option Rec}, Function.update T i x id = some r' →
      (id = i ∧ x = some r') ∨ T id = some r' := by
    intro i x hx
    by_cases e : id = i
    · subst e
      rw [Function.update_self] at hx
      exact Or.inl ⟨rfl, hx⟩
    · rw [Function.update_of_ne e] at hx
      exact Or.inr hx
  cases m with
  | quiet => exact Or.inl ⟨r', h, rfl, rfl⟩
  | save fresh =>
    rcases hupd h with ⟨e, _⟩ | h
    · subst e
      exact Or.inr ⟨fresh, _, rfl, rfl⟩
    · exact Or.inl ⟨r', h, rfl, rfl⟩
  | claim | recover =>
    obtain ⟨r, hr, e | e⟩ := mapOn_some h
    · exact Or.inl ⟨r, hr, by rw [e], by rw [e]⟩
    · exact Or.inl ⟨r, hr, by rw [e]; rfl, by rw [e]; rfl⟩
  | ack | cancel =>
    rcases hupd h with ⟨_, e⟩ | h
    · cases e
    · exact Or.inl ⟨r', h, rfl, rfl⟩
  | fail _ hT _ hr =>
    rcases hupd h with ⟨e, e'⟩ | h
    · subst e
      rcases hr with hr | hr
      · rw [hr] at e'
        cases e'
      · rw [hr] at e'
        exact Or.inl ⟨_, hT, by rw [← Option.some.inj e']; rfl, by rw [← Option.some.inj e']; rfl⟩
    · exact Or.inl ⟨r', h, rfl, rfl⟩
  | reschedule hT =>
    rcases hupd h with ⟨e, e'⟩ | h
    · subst e
      exact Or.inl ⟨_, hT, by rw [← Option.some.inj e']; rfl, by rw [← Option.some.inj e']; rfl⟩
    · exact Or.inl ⟨r', h, rfl, rfl⟩

/-- what a step does to the parts of the state that are not the server -/
structure Frame (s : Sys ρ) (a : Label) (es : List Ev) (t : Sys ρ) : Prop where
  log : t.log = s.log ++ es
  clock : s.clock ≤ t.clock
  used : ∀ id ∈ s.used, id ∈ t.used
  saved : ∀ j, a = .save j → j.id ∈ t.used
  /-- a call that waits for its script was already waiting, or has just looked its bucket up -/
  calls : ∀ c id b, (t.calls c).target = some (id, b) →
    (s.calls c).target = some (id, b) ∨ lookup id s.db = some b ∧ t.db = s.db

theorem target_setCall {s : Sys ρ} {c c' : Caller} {x : Call} {id : JobID} {b : String}
    (h : ((s.setCall c x).calls c').target = some (id, b)) :
    (s.calls c').target = some (id, b) ∨ x.target = some (id, b) := by
  by_cases e : c' = c
  · subst e
    rw [show (s.setCall c' x).calls c' = x from Function.update_self ..] at h
    exact Or.inr h
  · rw [show (s.setCall c x).calls c' = s.calls c' from Function.update_of_ne e ..] at h
    exact Or.inl h

section
variable {lua : Lua} {s t : Sys ρ} {T : Table} {a : Label}

/-- a step that ends a call, or goes on with one that waits for no script -/
theorem Frame.of_call {es : List Ev} {c : Caller} {x : Call} (hx : x.target = none)
    (ha : ∀ j, a ≠ .save j) (hcalls : t.calls = (s.setCall c x).calls) (hlog : t.log = s.log ++ es)
    (hclock : t.clock = s.clock) (hused : t.used = s.used) : Frame s a es t where
  log := hlog
  clock := hclock.ge
  used := fun _ h => hused ▸ h
  saved := fun j e => absurd e (ha j)
  calls := fun c' id b h => by
    rw [hcalls] at h
    rcases target_setCall h with h | h
    · exact Or.inl h
    · rw [hx] at h
      cases h

/-- a step that is no part of a call of more than one step -/
theorem Frame.of_idle {es : List Ev} (ha : ∀ j, a ≠ .save j) (hcalls : t.calls = s.calls)
    (hlog : t.log = s.log ++ es) (hclock : s.clock ≤ t.clock) (hused : t.used = s.used) :
    Frame s a es t where
  log := hlog
  clock := hclock
  used := fun _ h => hused ▸ h
  saved := fun j e => absurd e (ha j)
  calls := fun _ _ _ h => by
    rw [hcalls] at h
    exact Or.inl h

theorem unclaimed {id : JobID} (h : ¬ ∃ r, T id = some r ∧ r.claimed = true) (r : Rec)
    (hr : T id = some r) : r.claimed = false := by
  cases hc : r.claimed with
  | false => rfl
  | true => exact absurd ⟨r, hr, hc⟩ h

theorem unpending {id : JobID} (h : ¬ ∃ r, T id = some r ∧ r.claimed = false) (r : Rec)
    (hr : T id = some r) : r.claimed = true := by
  cases hc : r.claimed with
  | true => rfl
  | false => exact absurd ⟨r, hr, hc⟩ h

/-- the lookup of a call changes the caller's own state only -/
theorem look_move (o : Ok s T) (c : Caller) (id : JobID) (next : String → Call) (es : List Ev)
    (hes : ∀ e ∈ es, e.Quiet) (ha : ∀ j, a ≠ .save j)
    (hnext : ∀ b, (next b).target = some (id, b)) (ht : (s.record es).look c id next = t) :
    ∃ es T', Move s T a es T' ∧ Frame s a es t ∧ Rep t.db T' := by
  subst ht
  refine ⟨es, T, .quiet hes, ?_⟩
  show Frame s a es (match lookup id s.db with
    | none => s.record es
    | some b => (s.record es).setCall c (next b)) ∧ Rep (Sys.db (match lookup id s.db with
    | none => s.record es
    | some b => (s.record es).setCall c (next b))) T
  cases hl : lookup id s.db with
  | none => exact ⟨.of_idle ha rfl rfl le_rfl rfl, o.rep⟩
  | some b =>
    refine ⟨⟨rfl, le_rfl, fun _ h => h, fun j e => absurd e (ha j), fun c' id' b' h => ?_⟩, o.rep⟩
    rcases target_setCall h with h | h
    · exact Or.inl h
    · rw [hnext] at h
      cases h
      exact Or.inr ⟨hl, rfl⟩

theorem save_move (o : Ok s T) {j : Job} (h : step lua s (.save j) = some t) :
    ∃ es T', Move s T (.save j) es T' ∧ Frame s (.save j) es t ∧ Rep t.db T' := by
  obtain ⟨⟨hf, hp⟩, e⟩ := Option.ite_none_right_eq_some.mp h
  rw [← Option.some.inj e]
  have hT : T j.id = none := by
    cases hT : T j.id with
    | none => rfl
    | some r => exact absurd (o.known _ r hT) hf
  refine ⟨[], _, .save hf, ⟨(List.append_nil _).symm, le_rfl, fun _ => List.mem_cons_of_mem _,
    fun j' e => ?_, fun _ _ _ h => Or.inl h⟩, save_rep o.rep hT hp⟩
  cases e
  exact List.mem_cons_self

theorem claim_move (o : Ok s T) {c : Caller} {q : String} {now lu : Time} {n : Int}
    (h : step lua s (.claim c q now n lu) = some t) :
    ∃ es T', Move s T (.claim c q now n lu) es T' ∧ Frame s (.claim c q now n lu) es t ∧
      Rep t.db T' := by
  simp only [step] at h
  split at h
  · obtain ⟨db', ids, e, hrep, hn, hp⟩ := claim_rep o.rep q now n c.worker lu
    rw [e] at h
    rw [← Option.some.inj h]
    exact ⟨_, _, .claim hn fun id hid => (hp id hid).imp fun _ h => ⟨h.1, h.2.1⟩,
      .of_call (x := .fetching ids []) rfl (by simp) rfl rfl rfl rfl, hrep⟩
  · cases h

theorem fetch_move (o : Ok s T) {c : Caller} (h : step lua s (.fetch c) = some t) :
    ∃ es T', Move s T (.fetch c) es T' ∧ Frame s (.fetch c) es t ∧ Rep t.db T' := by
  simp only [step] at h
  split at h
  · rw [← Option.some.inj h]
    exact ⟨[], _, .quiet (by simp), .of_call (c := c) (x := .fetching _ _) rfl (by simp) rfl
      (List.append_nil _).symm rfl rfl, o.rep⟩
  · rw [← Option.some.inj h]
    refine ⟨_, _, .quiet fun e he i => ?_, .of_call (c := c) (x := .idle) rfl (by simp) rfl rfl rfl
      rfl, o.rep⟩
    obtain ⟨j, _, rfl⟩ := List.mem_map.mp he
    exact ⟨rfl, rfl⟩
  · cases h

theorem ack_move (o : Ok s T) {c : Caller} {id : JobID} (h : step lua s (.ack c id) = some t) :
    ∃ es T', Move s T (.ack c id) es T' ∧ Frame s (.ack c id) es t ∧ Rep t.db T' := by
  simp only [step] at h
  split at h
  · rw [← Option.some.inj h]
    by_cases hc : ∃ r, T id = some r ∧ r.claimed = true
    · obtain ⟨r, hT, hc⟩ := hc
      exact ⟨_, _, .ack hT hc, .of_idle (by simp) rfl rfl le_rfl rfl, (ack_rep o.rep hT hc).2⟩
    · refine ⟨_, _, .quiet (Ev.quiet_ack _ _), .of_idle (by simp) rfl rfl le_rfl rfl, ?_⟩
      rw [ack_missing o.rep (unclaimed hc)]
      exact o.rep
  · cases h

theorem failRun_move (o : Ok s T) {c : Caller} {now : Time}
    (h : step lua s (.failRun c now) = some t) :
    ∃ es T', Move s T (.failRun c now) es T' ∧ Frame s (.failRun c now) es t ∧ Rep t.db T' := by
  simp only [step] at h
  split at h
  · rename_i id b msg t' hcall
    rw [← Option.some.inj h]
    by_cases hc : ∃ r, T id = some r ∧ r.claimed = true
    · obtain ⟨r, hT, hc⟩ := hc
      obtain rfl := (o.bucket c id b (by rw [hcall]; rfl)).2 r hT
      obtain ⟨hok, r', hr', hrep⟩ := fail_rep o.rep hT lua hc msg t' now
      refine ⟨_, _, .fail hcall hT hc hr', .of_call (c := c) (x := .idle) rfl (by simp) rfl ?_ rfl
        rfl, hrep⟩
      rw [if_pos hok]
    · have hm := fail_missing o.rep (unclaimed hc) lua b msg t' now
      refine ⟨[.reported c.worker id], _, .quiet fun e he i => ?_, .of_call (c := c) (x := .idle) rfl
        (by simp) rfl ?_ rfl rfl, ?_⟩
      · rw [List.mem_singleton.mp he]
        exact ⟨rfl, rfl⟩
      · rw [hm]
        rfl
      · rw [hm]
        exact o.rep
  · cases h

theorem cancelRun_move (o : Ok s T) {c : Caller} (h : step lua s (.cancelRun c) = some t) :
    ∃ es T', Move s T (.cancelRun c) es T' ∧ Frame s (.cancelRun c) es t ∧ Rep t.db T' := by
  simp only [step] at h
  split at h
  · rename_i id b hcall
    rw [← Option.some.inj h]
    have hframe : ∀ db', Frame s (.cancelRun c) [] { s.setCall c .idle with db := db' } :=
      fun _ => .of_call (c := c) (x := .idle) rfl (by simp) rfl (List.append_nil _).symm rfl rfl
    by_cases hc : ∃ r, T id = some r ∧ r.claimed = false
    · obtain ⟨r, hT, hc⟩ := hc
      obtain rfl := (o.bucket c id b (by rw [hcall]; rfl)).2 r hT
      exact ⟨[], _, .cancel hT hc, hframe _, (cancel_rep o.rep hT hc).2⟩
    · refine ⟨[], _, .quiet (by simp), hframe _, ?_⟩
      rw [(cancel_refused o.rep (unpending hc) b).1]
      exact o.rep
  · cases h

theorem rescheduleRun_move (o : Ok s T) {c : Caller} {now : Time}
    (h : step lua s (.rescheduleRun c now) = some t) : ∃ es T',
      Move s T (.rescheduleRun c now) es T' ∧ Frame s (.rescheduleRun c now) es t ∧ Rep t.db T' := by
  simp only [step] at h
  split at h
  · rename_i id b t' hcall
    rw [← Option.some.inj h]
    have hframe : ∀ db', Frame s (.rescheduleRun c now) [] { s.setCall c .idle with db := db' } :=
      fun _ => .of_call (c := c) (x := .idle) rfl (by simp) rfl (List.append_nil _).symm rfl rfl
    by_cases hc : ∃ r, T id = some r ∧ r.claimed = false
    · obtain ⟨r, hT, hc⟩ := hc
      obtain rfl := (o.bucket c id b (by rw [hcall]; rfl)).2 r hT
      exact ⟨[], _, .reschedule hT hc, hframe _, (reschedule_rep o.rep hT hc t' now).2⟩
    · refine ⟨[], _, .quiet (by simp), hframe _, ?_⟩
      rw [(reschedule_refused o.rep (unpending hc) b t' now).1]
      exact o.rep
  · cases h

/-- **All that a step can do.** -/
theorem step_move (o : Ok s T) (h : step lua s a = some t) :
    ∃ es T', Move s T a es T' ∧ Frame s a es t ∧ Rep t.db T' := by
  cases a with
  | save j => exact save_move o h
  | claim => exact claim_move o h
  | fetch => exact fetch_move o h
  | ack => exact ack_move o h
  | failRun => exact failRun_move o h
  | cancelRun => exact cancelRun_move o h
  | rescheduleRun => exact rescheduleRun_move o h
  | failLookup c id msg t' =>
    simp only [step] at h
    split at h
    · refine look_move o _ _ _ _ (fun e he i => ?_) (by simp) (fun _ => rfl) (Option.some.inj h)
      rw [List.mem_singleton.mp he]
      exact ⟨rfl, rfl⟩
    · cases h
  | cancelLookup c id =>
    simp only [step] at h
    split at h
    · refine look_move o c id (fun b => .cancel id b) [] (by simp) (by simp) (fun _ => rfl) ?_
      rw [Sys.record_nil]
      exact Option.some.inj h
    · cases h
  | rescheduleLookup c id t' =>
    simp only [step] at h
    split at h
    · refine look_move o c id (fun b => .reschedule id b t') [] (by simp) (by simp)
        (fun _ => rfl) ?_
      rw [Sys.record_nil]
      exact Option.some.inj h
    · cases h
  | recoverStale =>
    obtain ⟨db', ids, e, hrep, hp⟩ := recoverStale_rep o.rep lua s.nowNanos
    rw [step, e] at h
    rw [← Option.some.inj h]
    exact ⟨_, _, .recover hp, .of_idle (by simp) rfl rfl le_rfl rfl, hrep⟩
  | tick d =>
    rw [← Option.some.inj h]
    exact ⟨[], _, .quiet (by simp), .of_idle (by simp) rfl (List.append_nil _).symm
      (Nat.le_add_right _ _) rfl, o.rep⟩

theorem Move.ok {es : List Ev} {T' : Table} (m : Move s T a es T') (f : Frame s a es t) (o : Ok s T)
    (hrep : Rep t.db T') : Ok t T' := by
  refine ⟨hrep, fun id r' h => ?_, fun c id b h => ?_⟩
  · rcases m.origin h with ⟨r, hr, _⟩ | ⟨_, j, e, rfl⟩
    · exact f.used id (o.known id r hr)
    · exact f.saved j e
  · have hold : id ∈ s.used ∧ ∀ r, T id = some r → b = pendingKey r.queue r.priority := by
      rcases f.calls c id b h with h | ⟨hl, _⟩
      · exact o.bucket c id b h
      · cases hT : T id with
        | none =>
          rw [lookup_none o.rep hT] at hl
          cases hl
        | some r =>
          rw [lookup_rep o.rep hT] at hl
          refine ⟨o.known id r hT, fun r' e => ?_⟩
          rw [← Option.some.inj e]
          exact (Option.some.inj hl).symm
    refine ⟨f.used id hold.1, fun r' h' => ?_⟩
    rcases m.origin h' with ⟨r, hr, hq, hpr⟩ | ⟨hnew, _⟩
    · rw [hq, hpr]
      exact hold.2 r hr
    · exact absurd hold.1 hnew

end

/-! ## the history -/

/-- a job that is handed out is not pending, and nothing is handed out twice -/
structure Handed (s : Sys ρ) (T : Table) : Prop where
  held : ∀ id, isOpen (Ev.handsOut id) (Ev.givesBack id) s.log = true →
    id ∈ s.used ∧ ∀ r, T id = some r → r.claimed = true
  once : ∀ id, Guarded (Ev.handsOut id) (Ev.givesBack id) (Ev.handsOut id) s.log

theorem isOpen_claims {log : List Ev} {w : String} {lu : Time} {ids : List JobID} (hn : ids.Nodup)
    (id : JobID) :
    isOpen (Ev.handsOut id) (Ev.givesBack id) (log ++ ids.map fun i => Ev.claimed w i lu) =
      (decide (id ∈ ids) || isOpen (Ev.handsOut id) (Ev.givesBack id) log) := by
  induction ids generalizing log with
  | nil => simp
  | cons i ids ih =>
    rw [List.map_cons, List.append_cons, ih (List.nodup_cons.mp hn).2, isOpen_snoc]
    by_cases e : i = id
    · subst e
      simp [Ev.handsOut]
    · have hne : id ≠ i := fun h => e h.symm
      simp [Ev.handsOut, Ev.givesBack, e, hne]

theorem guarded_claims {log : List Ev} {w : String} {lu : Time} {ids : List JobID}
    (hn : ids.Nodup) {id : JobID} (ha : Guarded (Ev.handsOut id) (Ev.givesBack id) (Ev.handsOut id) log)
    (hnew : id ∈ ids → isOpen (Ev.handsOut id) (Ev.givesBack id) log = false) :
    Guarded (Ev.handsOut id) (Ev.givesBack id) (Ev.handsOut id)
      (log ++ ids.map fun i => Ev.claimed w i lu) := by
  induction ids generalizing log with
  | nil => simpa using ha
  | cons i ids ih =>
    obtain ⟨hi, hn⟩ := List.nodup_cons.mp hn
    rw [List.map_cons, List.append_cons]
    have hsnoc := ha.snoc (e := Ev.claimed w i lu) fun h => hnew (by
      rw [beq_iff_eq.mp h]
      exact List.mem_cons_self)
    refine ih hn hsnoc fun hid => ?_
    have hne : i ≠ id := fun e => hi (e ▸ hid)
    rw [isOpen_snoc, hnew (List.mem_cons_of_mem _ hid)]
    simp [Ev.handsOut, hne]

theorem isOpen_recovered {log : List Ev} {ids : List JobID} (id : JobID) :
    isOpen (Ev.handsOut id) (Ev.givesBack id) (log ++ ids.map Ev.recovered) =
      (decide (id ∉ ids) && isOpen (Ev.handsOut id) (Ev.givesBack id) log) := by
  induction ids generalizing log with
  | nil => simp
  | cons i ids ih =>
    rw [List.map_cons, List.append_cons, ih, isOpen_snoc]
    by_cases e : i = id
    · subst e
      simp [Ev.handsOut, Ev.givesBack]
    · have hne : id ≠ i := fun h => e h.symm
      simp [Ev.handsOut, Ev.givesBack, e, hne]

theorem held_update {s t : Sys ρ} {T : Table} {a : Label} {es : List Ev} (f : Frame s a es t)
    {i id : JobID} {x : Option Rec} (h : id ∈ s.used ∧ ∀ r, T id = some r → r.claimed = true)
    (hx : id = i → ∀ r, x = some r → r.claimed = true) :
    id ∈ t.used ∧ ∀ r, Function.update T i x id = some r → r.claimed = true := by
  refine ⟨f.used id h.1, fun r hr => ?_⟩
  by_cases e : id = i
  · subst e
    rw [Function.update_self] at hr
    exact hx rfl r hr
  · rw [Function.update_of_ne e] at hr
    exact h.2 r hr

theorem Move.handed {s t : Sys ρ} {T T' : Table} {a : Label} {es : List Ev} (m : Move s T a es T')
    (f : Frame s a es t) (o : Ok s T) (hd : Handed s T) : Handed t T' := by
  cases m with
  | quiet hes =>
    refine ⟨fun id h => ?_, fun id => ?_⟩
    · rw [f.log, isOpen_append_quiet fun e he => hes e he id] at h
      exact ⟨f.used id (hd.held id h).1, (hd.held id h).2⟩
    · rw [f.log]
      exact (hd.once id).append_quiet fun e he => (hes e he id).1
  | save fresh =>
    have hlog : t.log = s.log := f.log.trans (List.append_nil _)
    refine ⟨fun id h => ?_, fun id => by rw [hlog]; exact hd.once id⟩
    rw [hlog] at h
    exact held_update f (hd.held id h) fun e => absurd (hd.held id h).1 (e ▸ fresh)
  | claim hn hp =>
    refine ⟨fun id h => ?_, fun id => ?_⟩
    · rw [f.log, isOpen_claims hn, Bool.or_eq_true, decide_eq_true_eq] at h
      rcases h with h | h
      · obtain ⟨r, hr, _⟩ := hp id h
        refine ⟨f.used id (o.known id r hr), fun r' hr' => ?_⟩
        rw [mapOn_of_mem hr _ h] at hr'
        rw [← Option.some.inj hr']
        rfl
      · refine ⟨f.used id (hd.held id h).1, fun r' hr' => ?_⟩
        obtain ⟨r, hr, e | e⟩ := mapOn_some hr'
        · rw [e]
          exact (hd.held id h).2 r hr
        · rw [e]
          rfl
    · rw [f.log]
      refine guarded_claims hn (hd.once id) fun hid => ?_
      obtain ⟨r, hr, hc⟩ := hp id hid
      rw [← Bool.not_eq_true]
      intro ho
      rw [(hd.held id ho).2 r hr] at hc
      cases hc
  | ack =>
    refine ⟨fun id h => ?_, fun id => ?_⟩
    · rw [f.log, isOpen_append_quiet fun e he => Ev.quiet_ack _ _ e he id] at h
      exact held_update f (hd.held id h) fun _ _ e => by cases e
    · rw [f.log]
      exact (hd.once id).append_quiet fun e he => (Ev.quiet_ack _ _ e he id).1
  | @fail c i b msg t' now r r' hcall hT hc hr =>
    refine ⟨fun id h => ?_, fun id => ?_⟩
    · rw [f.log, List.append_cons, isOpen_snoc, isOpen_snoc] at h
      by_cases e : i = id
      · subst e
        simp [Ev.handsOut, Ev.givesBack] at h
      · have h' : isOpen (Ev.handsOut id) (Ev.givesBack id) s.log = true := by
          simpa [Ev.handsOut, Ev.givesBack, e] using h
        exact held_update f (hd.held id h') fun e' => absurd e'.symm e
    · rw [f.log]
      refine (hd.once id).append_quiet fun e he => ?_
      rcases List.mem_cons.mp he with rfl | he
      · rfl
      · rw [List.mem_singleton.mp he]
        rfl
  | cancel =>
    have hlog : t.log = s.log := f.log.trans (List.append_nil _)
    refine ⟨fun id h => ?_, fun id => by rw [hlog]; exact hd.once id⟩
    rw [hlog] at h
    exact held_update f (hd.held id h) fun _ _ e => by cases e
  | reschedule hT hc =>
    have hlog : t.log = s.log := f.log.trans (List.append_nil _)
    refine ⟨fun id h => ?_, fun id => by rw [hlog]; exact hd.once id⟩
    rw [hlog] at h
    refine held_update f (hd.held id h) fun e => ?_
    subst e
    rw [(hd.held id h).2 _ hT] at hc
    cases hc
  | recover hp =>
    refine ⟨fun id h => ?_, fun id => ?_⟩
    · rw [f.log, isOpen_recovered, Bool.and_eq_true, decide_eq_true_eq] at h
      refine ⟨f.used id (hd.held id h.2).1, fun r' hr' => ?_⟩
      rw [mapOn_of_not_mem _ _ h.1] at hr'
      exact (hd.held id h.2).2 r' hr'
    · rw [f.log]
      refine (hd.once id).append_quiet fun e he => ?_
      obtain ⟨i, _, rfl⟩ := List.mem_map.mp he
      rfl

/-! ## every reachable state -/

theorem init_handed : Handed (Sys.init ρ) fun _ => none where
  held := fun _ h => by cases h
  once := fun _ => guarded_nil

theorem run_ok {lua : Lua} {l : List Label} {s : Sys ρ} (h : run (step lua) (Sys.init ρ) l = some s) :
    ∃ T, Ok s T ∧ Handed s T := by
  refine run_keep (P := fun s => ∃ T, Ok s T ∧ Handed s T) (fun s a t hs hst => ?_)
    ⟨_, init_ok, init_handed⟩ h
  obtain ⟨T, o, hd⟩ := hs
  obtain ⟨es, T', m, f, hrep⟩ := step_move o hst
  exact ⟨T', m.ok f o hrep, m.handed f o hd⟩

/-- the hash of a job, the pending sets and the claimed set say the same; with the scores of
`Scores.exact`, a score is the stored time itself -/
structure Consistent (db : Db ρ) : Prop where
  state : ∀ id h, db.hash (jobKey id) = some h →
    h "state" = some statePendingArg ∨ h "state" = some stateClaimedArg
  pending : ∀ q p id, (db.zset (pendingKey q p)).score id ≠ none ↔
    ∃ h, db.hash (jobKey id) = some h ∧ h "state" = some statePendingArg ∧
      h "queue" = some q ∧ h "priority" = some (itoa p.toNat)
  pending_score : ∀ q p id x, (db.zset (pendingKey q p)).score id = some x →
    ∃ t, db.hget (jobKey id) "run_at" = some (itoa t) ∧ x = ρ.ofInt t
  claimed : ∀ id, (db.zset claimedKey).score id ≠ none ↔
    ∃ h, db.hash (jobKey id) = some h ∧ h "state" = some stateClaimedArg
  claimed_score : ∀ id x, (db.zset claimedKey).score id = some x →
    ∃ t, db.hget (jobKey id) "locked_until" = some (itoa t) ∧ x = ρ.ofInt t
  one : ∀ k k' id, (db.zset k).score id ≠ none → (db.zset k').score id ≠ none → k = k'

section
variable {db : Db ρ} {T : Table} (R : Rep db T)
include R

/-- a job with a hash has a record, with the fields of the hash -/
theorem Rep.of_hash {id : JobID} {h : String → Option String} (hh : db.hash (jobKey id) = some h) :
    ∃ r, T id = some r ∧ Fields h r := by
  cases hT : T id with
  | none =>
    have hn := R id
    rw [hT] at hn
    rw [hn.1] at hh
    cases hh
  | some r =>
    obtain ⟨⟨h', hh', hf⟩, _⟩ := R.at_some hT
    rw [hh'] at hh
    exact ⟨r, rfl, Option.some.inj hh ▸ hf⟩

/-- a member of any set is a member of the home of its record only -/
theorem Rep.home_of_score {k : String} {id : JobID} (h : (db.zset k).score id ≠ none) :
    ∃ r, T id = some r ∧ k = r.home := by
  have hR := R id
  cases hT : T id with
  | none =>
    rw [hT] at hR
    exact absurd (hR.2 k) h
  | some r =>
    refine ⟨r, rfl, ?_⟩
    rw [(R.at_some hT).2 k] at h
    by_contra hk
    exact h (if_neg hk)

theorem Rep.consistent : Consistent db where
  state := fun id h hh => by
    obtain ⟨r, _, hf⟩ := R.of_hash hh
    rw [hf.state]
    cases r.claimed with
    | true => exact Or.inr rfl
    | false => exact Or.inl rfl
  pending := fun q p id => by
    constructor
    · intro h
      obtain ⟨x, hx⟩ := Option.ne_none_iff_exists'.mp h
      obtain ⟨r, hT, hc, rfl, rfl, _⟩ := pending_of_score R hx
      obtain ⟨⟨m, hm, hf⟩, _⟩ := R.at_some hT
      refine ⟨m, hm, ?_, hf.queue, hf.priority⟩
      rw [hf.state, hc]
      rfl
    · rintro ⟨m, hm, hs, hq, hp⟩
      obtain ⟨r, hT, hf⟩ := R.of_hash hm
      have hc : r.claimed = false := by
        rw [hf.state] at hs
        cases hc : r.claimed with
        | false => rfl
        | true =>
          rw [hc] at hs
          exact absurd (Option.some.inj hs).symm arg_ne
      have e1 : r.queue = q := Option.some.inj (hf.queue.symm.trans hq)
      have e2 : r.priority = p := itoa_byte_inj (Option.some.inj (hf.priority.symm.trans hp))
      rw [(R.at_some hT).2, if_pos (by rw [Rec.home, hc, e1, e2]; rfl)]
      simp
  pending_score := fun q p id x hx => by
    obtain ⟨r, hT, _, _, _, rfl⟩ := pending_of_score R hx
    obtain ⟨⟨m, hm, hf⟩, _⟩ := R.at_some hT
    refine ⟨r.runAt, ?_, rfl⟩
    rw [Db.hget, hm]
    exact hf.runAt
  claimed := fun id => by
    constructor
    · intro h
      obtain ⟨x, hx⟩ := Option.ne_none_iff_exists'.mp h
      obtain ⟨r, hT, hc, _⟩ := claimed_of_score R hx
      obtain ⟨⟨m, hm, hf⟩, _⟩ := R.at_some hT
      refine ⟨m, hm, ?_⟩
      rw [hf.state, hc]
      rfl
    · rintro ⟨m, hm, hs⟩
      obtain ⟨r, hT, hf⟩ := R.of_hash hm
      have hc : r.claimed = true := by
        rw [hf.state] at hs
        cases hc : r.claimed with
        | true => rfl
        | false =>
          rw [hc] at hs
          exact absurd (Option.some.inj hs) arg_ne
      rw [(R.at_some hT).2, if_pos (by rw [Rec.home, hc]; rfl)]
      simp
  claimed_score := fun id x hx => by
    obtain ⟨r, hT, _, rfl⟩ := claimed_of_score R hx
    obtain ⟨⟨m, hm, hf⟩, _⟩ := R.at_some hT
    refine ⟨r.lockedUntil, ?_, rfl⟩
    rw [Db.hget, hm]
    exact hf.lockedUntil
  one := fun k k' id h h' => by
    obtain ⟨r, hT, e⟩ := R.home_of_score h
    obtain ⟨r', hT', e'⟩ := R.home_of_score h'
    rw [hT] at hT'
    rw [e, e', Option.some.inj hT']

end

/-- **Consistency of the Redis store** in every reachable state of any interleaving: the hashes and the
sorted sets agree, and between two claim scripts that hand out one ID there is a successful `Fail` or
`RecoverStale` on it. -/
theorem run_consistent (ρ : Scores) (lua : Lua) (l : List Label) (s : Sys ρ)
    (h : run (step lua) (Sys.init ρ) l = some s) :
    Consistent s.db ∧ ∀ id w w' lu lu' l₁ l₂ l₃,
      s.log = l₁ ++ Ev.claimed w id lu :: (l₂ ++ Ev.claimed w' id lu' :: l₃) →
        Ev.failed id ∈ l₂ ∨ Ev.recovered id ∈ l₂ := by
  obtain ⟨T, o, hd⟩ := run_ok h
  refine ⟨o.rep.consistent, fun id w w' lu lu' l₁ l₂ l₃ hlog => ?_⟩
  have hopen : ∀ w lu, Ev.handsOut id (Ev.claimed w id lu) = true := fun _ _ => beq_self_eq_true id
  obtain ⟨e, he, hc⟩ := (hlog ▸ hd.once id).close_between (hopen w lu) (hopen w' lu')
  cases e with
  | failed i =>
    rw [beq_iff_eq.mp (show (i == id) = true from hc)] at he
    exact Or.inl he
  | recovered i =>
    rw [beq_iff_eq.mp (show (i == id) = true from hc)] at he
    exact Or.inr he
  | claimed | returned | called | reported => cases hc

/-- two callers claim one job, the second after the first has failed it while a third was cancelling -/
def retryRun : List Label :=
  let a : Caller := ⟨"A", 0⟩
  let b : Caller := ⟨"B", 0⟩
  [.save { id := "j", queue := "q", priority := priorityHigh, runAt := 5, maxAttempts := 5 },
    .claim a "q" 10 1 100, .fetch a, .fetch a, .cancelLookup b "j", .failLookup a "j" "boom" 7,
    .cancelRun b, .failRun a 11, .claim b "q" 12 1 200]

theorem run_consistent_retry : ∃ s : Sys .exact, run (step lua51) (Sys.init .exact) retryRun = some s ∧
    Consistent s.db ∧ Ev.failed "j" ∈ s.log := by
  have hrun : ((run (step lua51) (Sys.init .exact) retryRun).map Sys.log) =
      some [.claimed "A" "j" 100, .returned "A" "j", .called "A" "j", .reported "A" "j",
        .failed "j", .claimed "B" "j" 200] := by decide +kernel
  obtain ⟨s, hs, hlog⟩ := Option.map_eq_some_iff.mp hrun
  refine ⟨s, hs, (run_consistent .exact lua51 retryRun s hs).1, ?_⟩
  rw [hlog]
  decide

end GS.Redis
