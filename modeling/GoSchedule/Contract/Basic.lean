import GoSchedule.Lib.MapOn
import GoSchedule.MemStore.Map

/-!
# What a shared store of jobs is for

The calls of the interface `Store` on jobs, over a map from ID to job: no columns, no sets, no scripts.
`UpdatedAt`, which no call reads, is left out.

* `Scale`                how a store compares instants;
* `Step C m o r m'`      a call on the map.  A claim takes the first due jobs of a queue; a recovery
  takes every claim back whose lock has run out;
* `Change`, `step_change`   all that a call can do to the record of one ID;
* `Exclusive`            between two claims of a job there is an event that frees it;
* `runs_exclusive`       **every history is exclusive**;
* `runs_stored`          a saved job is stored until it is acknowledged, cancelled, or has failed as
  often as it may;
* `Delivers`, `runs_delivers`   **until then a recovery after its lock and a claim that is large enough
  hand it out**, whatever became of the worker that had it.
-/

namespace GS.Contract
open Mem MapOn Sim

inductive Op where
  | save (j : Job)
  | claimDue (queue : String) (now : Time) (n : Int) (workerID : String) (lockUntil : Time)
  | ack (id : JobID)
  | fail (id : JobID) (errMsg : String) (nextAttemptAt : Time)
  | cancel (id : JobID)
  | reschedule (id : JobID) (newTime : Time)
  | recoverStale (now : Time)
  | queueSize (queue : String)
deriving DecidableEq, Repr

inductive Res where
  | err (e : Option StoreErr)
  | jobs (l : List Job)
  | count (n : Nat)
deriving DecidableEq, Repr

/-- what is kept of a saved job; a record that is there keeps its creation time -/
def kept (old : Option Job) (j : Job) : Job :=
  { j with
    maxAttempts := if j.maxAttempts = 0 then 3 else j.maxAttempts
    delivery := 0
    catchup := false
    createdAt := (old.map Job.createdAt).getD j.createdAt
    updatedAt := zeroTime }

/-- the time of the last write is not part of what a store is for -/
def plain (j : Job) : Job := { j with updatedAt := zeroTime }

def locked (workerID : String) (lockUntil : Time) (j : Job) : Job :=
  { j with state := stateClaimed, lockedBy := workerID, lockedUntil := lockUntil }

def released (j : Job) : Job :=
  { j with state := statePending, lockedBy := "", lockedUntil := zeroTime }

/-- `rank` is the place of an instant in the order of the store, and `late` says when a lock has run out -/
structure Scale where
  rank : Time → Int
  late : Time → Time → Prop

section
variable (C : Scale)

/-- higher priority first, then the earlier `RunAt` -/
def Scale.LE (a b : Job) : Prop :=
  b.priority < a.priority ∨ a.priority = b.priority ∧ C.rank a.runAt ≤ C.rank b.runAt

def Due (m : JobMap) (q : String) (now : Time) (j : Job) : Prop :=
  m j.id = some j ∧ j.state = statePending ∧ j.queue = q ∧ C.rank j.runAt ≤ C.rank now

/-- `L` are the first `n` of the due jobs, each once, by priority and then by `RunAt` -/
structure Takes (m : JobMap) (q : String) (now : Time) (n : Int) (L : List Job) : Prop where
  nodup : (L.map Job.id).Nodup
  due : ∀ j ∈ L, Due C m q now j
  sorted : L.Pairwise C.LE
  first : ∀ j ∈ L, ∀ k, Due C m q now k → k ∉ L → C.LE j k
  le : (L.length : Int) ≤ n
  full : (L.length : Int) < n → ∀ k, Due C m q now k → k ∈ L

end

/-- `n` is the number of IDs that meet `P` -/
def Counts (P : JobID → Prop) (n : Nat) : Prop :=
  ∃ ids : List JobID, ids.Nodup ∧ (∀ i, i ∈ ids ↔ P i) ∧ n = ids.length

section
variable (C : Scale)

/-- the claim of the record has run out -/
def Expired (m : JobMap) (now : Time) (id : JobID) : Prop :=
  ∃ j, m id = some j ∧ j.state = stateClaimed ∧ j.lockedUntil ≠ zeroTime ∧ C.late j.lockedUntil now

inductive Step (m : JobMap) : Op → Res → JobMap → Prop
  | save (j : Job) : Step m (.save j) (.err none) (Function.update m j.id (some (kept (m j.id) j)))
  | claimDue {q : String} {now : Time} {n : Int} {w : String} {lu : Time} {L : List Job}
      (h : Takes C m q now n L) : Step m (.claimDue q now n w lu) (.jobs (L.map (locked w lu)))
        (mapOn m (locked w lu) (L.map Job.id))
  | ack (id : JobID) : Step m (.ack id) (.err (m.ack id).1) (m.ack id).2
  | fail (id : JobID) (msg : String) (t : Time) :
      Step m (.fail id msg t) (.err (m.fail id msg t).1) (m.fail id msg t).2
  | cancel (id : JobID) : Step m (.cancel id) (.err (m.cancel id).1) (m.cancel id).2
  | reschedule (id : JobID) (t : Time) :
      Step m (.reschedule id t) (.err (m.reschedule id t).1) (m.reschedule id t).2
  | recoverStale {now : Time} {ids : List JobID} (nodup : ids.Nodup)
      (h : ∀ i, i ∈ ids ↔ Expired C m now i) :
      Step m (.recoverStale now) (.count ids.length) (mapOn m released ids)
  | queueSize {q : String} {n : Nat}
      (h : Counts (fun i => ∃ j, m i = some j ∧ j.state = statePending ∧ j.queue = q) n) :
      Step m (.queueSize q) (.count n) m

end

def empty : JobMap := fun _ => none

/-! ## one record -/

/-- all that a call with its result can do to the record of `id` -/
inductive Change (C : Scale) (id : JobID) (m : JobMap) (e : Op × Res) (m' : JobMap) : Prop
  | same (record : m' id = m id)
  | saved (j : Job) (event : e = (.save j, .err none)) (hid : j.id = id)
      (record : m' id = some (kept (m id) j))
  | claimed (q : String) (now : Time) (n : Int) (w : String) (lu : Time) (L : List Job) (j : Job)
      (event : e = (.claimDue q now n w lu, .jobs L)) (mem : locked w lu j ∈ L) (old : m id = some j)
      (pending : j.state = statePending) (record : m' id = some (locked w lu j))
  | acked (j : Job) (event : e = (.ack id, .err none)) (old : m id = some j)
      (claimed : j.state = stateClaimed) (record : m' id = none)
  | failed (j : Job) (msg : String) (t : Time) (event : e = (.fail id msg t, .err none))
      (old : m id = some j) (claimed : j.state = stateClaimed) (record : m' id = afterFail j msg t)
  | cancelled (j : Job) (event : e = (.cancel id, .err none)) (old : m id = some j)
      (pending : j.state = statePending) (record : m' id = none)
  | rescheduled (j : Job) (t : Time) (event : e = (.reschedule id t, .err none)) (old : m id = some j)
      (pending : j.state = statePending) (record : m' id = some { j with runAt := t })
  | recovered (now : Time) (r : Res) (j : Job) (event : e = (.recoverStale now, r)) (old : m id = some j)
      (claimed : j.state = stateClaimed) (lock : j.lockedUntil ≠ zeroTime)
      (expired : C.late j.lockedUntil now) (record : m' id = some (released j))

section
variable {C : Scale} {m m' : JobMap} {o : Op} {r : Res}

/-- a call on one record: refused, on another one, or done -/
theorem onState_cases (m : JobMap) (i : JobID) (st : State) (wrong : StoreErr) (act : Job → Option Job)
    (id : JobID) : (m.onState i st wrong act).2 id = m id ∨
      ∃ j, i = id ∧ m id = some j ∧ j.state = st ∧ (m.onState i st wrong act).1 = none ∧
        (m.onState i st wrong act).2 id = act j := by
  cases hj : m i with
  | none =>
    rw [onState_missing hj]
    exact Or.inl rfl
  | some j =>
    by_cases hs : j.state = st
    · rw [onState_ok hj hs]
      by_cases e : id = i
      · subst e
        exact Or.inr ⟨j, rfl, hj, hs, rfl, Function.update_self ..⟩
      · exact Or.inl (Function.update_of_ne e ..)
    · rw [onState_wrong hj hs]
      exact Or.inl rfl

/-- **All that a call can do to one record.** -/
theorem step_change (h : Step C m o r m') (id : JobID) : Change C id m (o, r) m' := by
  cases h with
  | save j =>
    by_cases e : id = j.id
    · subst e
      exact .saved j rfl rfl (Function.update_self ..)
    · exact .same (Function.update_of_ne e ..)
  | @claimDue q now n w lu L h =>
    by_cases hid : id ∈ L.map Job.id
    · obtain ⟨j, hj, rfl⟩ := List.mem_map.mp hid
      obtain ⟨hold, hp, _⟩ := h.due j hj
      refine .claimed q now n w lu _ j rfl (List.mem_map_of_mem hj) hold hp ?_
      exact mapOn_of_mem hold _ hid
    · exact .same (mapOn_of_not_mem _ _ hid)
  | ack i =>
    rcases onState_cases m i stateClaimed .jobNotFound (fun _ => none) id with h | ⟨j, rfl, hj, hs, h1, h2⟩
    · exact .same h
    · exact .acked j (by rw [show (m.ack i).1 = none from h1]) hj hs h2
  | fail i msg t =>
    rcases onState_cases m i stateClaimed .jobNotFound (fun j => afterFail j msg t) id with
      h | ⟨j, rfl, hj, hs, h1, h2⟩
    · exact .same h
    · exact .failed j msg t (by rw [show (m.fail i msg t).1 = none from h1]) hj hs h2
  | cancel i =>
    rcases onState_cases m i statePending .jobNotPending (fun _ => none) id with
      h | ⟨j, rfl, hj, hs, h1, h2⟩
    · exact .same h
    · exact .cancelled j (by rw [show (m.cancel i).1 = none from h1]) hj hs h2
  | reschedule i t =>
    rcases onState_cases m i statePending .jobNotPending (fun j => some { j with runAt := t }) id with
      h | ⟨j, rfl, hj, hs, h1, h2⟩
    · exact .same h
    · exact .rescheduled j t (by rw [show (m.reschedule i t).1 = none from h1]) hj hs h2
  | @recoverStale now ids hn h =>
    by_cases hid : id ∈ ids
    · obtain ⟨j, hold, hs, hl, he⟩ := (h id).mp hid
      refine .recovered now _ j rfl hold hs hl he ?_
      exact mapOn_of_mem hold _ hid
    · exact .same (mapOn_of_not_mem _ _ hid)
  | queueSize h => exact .same rfl

end

/-! ## a job is handed out to one worker at a time -/

/-- the call returned `j` from a claim -/
def Hands (e : Op × Res) (j : Job) : Prop :=
  ∃ q now n w lu L, e = (.claimDue q now n w lu, .jobs L) ∧ j ∈ L

/-- a call after which a job that was handed out as `j` may be handed out again -/
def Frees (C : Scale) (j : Job) : Op × Res → Prop
  | (.fail id _ _, .err none) => id = j.id
  | (.recoverStale now, _) => j.lockedUntil ≠ zeroTime ∧ C.late j.lockedUntil now
  | (.save k, _) => k.id = j.id
  | _ => False

def Exclusive (C : Scale) (h : List (Op × Res)) : Prop :=
  ∀ h₁ e₁ h₂ e₂ h₃ j₁ j₂, h = h₁ ++ e₁ :: (h₂ ++ e₂ :: h₃) → Hands e₁ j₁ → Hands e₂ j₂ →
    j₂.id = j₁.id → ∃ e ∈ h₂, Frees C j₁ e

section
variable {C : Scale} {m m' : JobMap} {o : Op} {r : Res} {j : Job}

/-- what is handed out was pending, and is stored as it is handed out -/
theorem hands_record (h : Step C m o r m') (hj : Hands (o, r) j) :
    (∃ k, m j.id = some k ∧ k.state = statePending ∧ k.runAt = j.runAt) ∧ m' j.id = some j ∧
      j.state = stateClaimed := by
  obtain ⟨q, now, n, w, lu, L, e, hj⟩ := hj
  obtain ⟨rfl, rfl⟩ := Prod.mk.inj e
  generalize hr : Res.jobs L = r at h
  cases h with
  | @claimDue _ _ _ _ _ L' h =>
    rw [Res.jobs.inj hr] at hj
    obtain ⟨k, hk, rfl⟩ := List.mem_map.mp hj
    obtain ⟨hold, hp, _⟩ := h.due k hk
    refine ⟨⟨k, hold, hp, rfl⟩, ?_, rfl⟩
    have hid : k.id ∈ L'.map Job.id := List.mem_map_of_mem hk
    show mapOn m (locked w lu) (L'.map Job.id) k.id = _
    exact mapOn_of_mem hold _ hid

/-- until a call frees it, a job that was handed out is stored as it was handed out, or gone -/
theorem held_step (hc : j.state = stateClaimed) (h : Step C m o r m') (hf : ¬ Frees C j (o, r))
    (hj : m j.id = some j ∨ m j.id = none) : m' j.id = some j ∨ m' j.id = none := by
  have hold : ∀ {k}, m j.id = some k → k = j := by
    intro k hk
    rcases hj with e | e
    · exact Option.some.inj (hk.symm.trans e)
    · cases hk.symm.trans e
  have hpend : ∀ {k}, m j.id = some k → k.state ≠ statePending := by
    intro k hk e
    rw [hold hk, hc] at e
    exact absurd e (by decide)
  cases step_change h j.id with
  | same record =>
    rw [record]
    exact hj
  | saved k event hid =>
    rw [event] at hf
    exact absurd hid hf
  | claimed _ _ _ _ _ _ k _ _ old pending => exact absurd pending (hpend old)
  | acked _ _ _ _ record => exact Or.inr record
  | failed k msg t event =>
    rw [event] at hf
    exact absurd rfl hf
  | cancelled _ _ _ _ record => exact Or.inr record
  | rescheduled k _ _ old pending => exact absurd pending (hpend old)
  | recovered now _ k event old _ lock expired =>
    rw [event] at hf
    rw [hold old] at lock expired
    exact absurd ⟨lock, expired⟩ hf

/-- **One worker at a time.** -/
theorem runs_exclusive {h : List (Op × Res)} (hr : Runs (Step C) empty h m) : Exclusive C h := by
  intro h₁ e₁ h₂ e₂ h₃ j₁ j₂ e hj₁ hj₂ hid
  subst e
  obtain ⟨m₁, _, hr⟩ := hr.split
  obtain ⟨m₂, hs₁, hr⟩ := hr.of_cons
  obtain ⟨m₃, hr₂, hr⟩ := hr.split
  obtain ⟨m₄, hs₂, _⟩ := hr.of_cons
  obtain ⟨_, hrec, hc⟩ := hands_record hs₁ hj₁
  by_contra hno
  have hheld : (∃ e ∈ h₂, Frees C j₁ e) ∨ (m₃ j₁.id = some j₁ ∨ m₃ j₁.id = none) := by
    refine hr₂.keep (P := fun h m => (∃ e ∈ h, Frees C j₁ e) ∨ (m j₁.id = some j₁ ∨ m j₁.id = none))
      (fun h t o r u ih hs => ?_) (Or.inr (Or.inl hrec))
    rcases ih with ⟨e, he, hf⟩ | ih
    · exact Or.inl ⟨e, List.mem_append_left _ he, hf⟩
    · by_cases hf : Frees C j₁ (o, r)
      · exact Or.inl ⟨_, List.mem_append_right _ (List.mem_singleton.mpr rfl), hf⟩
      · exact Or.inr (held_step hc hs hf ih)
  obtain ⟨k, hk, hp, _⟩ := (hands_record hs₂ hj₂).1
  rw [hid] at hk
  rcases hheld.resolve_left hno with e | e
  · rw [Option.some.inj (hk.symm.trans e), hc] at hp
    exact absurd hp (by decide)
  · cases hk.symm.trans e

end

/-! ## a saved job is handed out until it is done -/

/-- the fields that only a save writes -/
def content (j : Job) : Job :=
  { j with
    runAt := zeroTime, attempt := 0, state := 0, lockedBy := "", lockedUntil := zeroTime
    lastError := "", updatedAt := zeroTime }

theorem content_fields {j k : Job} (h : content k = content j) :
    k.id = j.id ∧ k.name = j.name ∧ k.queue = j.queue ∧ k.payload = j.payload := by
  have h1 := congrArg Job.id h
  have h2 := congrArg Job.name h
  have h3 := congrArg Job.queue h
  have h4 := congrArg Job.payload h
  exact ⟨h1, h2, h3, h4⟩

/-- acknowledged, cancelled, or saved anew -/
def Ends (id : JobID) : Op × Res → Prop
  | (.ack i, .err none) => i = id
  | (.cancel i, .err none) => i = id
  | (.save j, _) => j.id = id
  | _ => False

/-- a failure of `id` that the store has counted -/
def fails (id : JobID) : Op × Res → Bool
  | (.fail i _ _, .err none) => i = id
  | _ => false

/-- calls that leave a job unfinished, whose locks have run out at `now`, and that ask for it at `due`
at the latest -/
structure Unfinished (C : Scale) (id : JobID) (limit : Int64) (now due : Time)
    (h : List (Op × Res)) : Prop where
  open' : ∀ e ∈ h, ¬ Ends id e
  fails : 0 < limit → (h.countP (fails id) : Int) < limit.toInt
  locks : ∀ q t n w lu r, (Op.claimDue q t n w lu, r) ∈ h → lu ≠ zeroTime ∧ C.late lu now
  failed : ∀ msg t r, (Op.fail id msg t, r) ∈ h → C.rank t ≤ C.rank due
  moved : ∀ t r, (Op.reschedule id t, r) ∈ h → C.rank t ≤ C.rank due

/-- the record of an unfinished job -/
structure Stored (C : Scale) (c : Job) (now due : Time) (n : Nat) (k : Job) : Prop where
  content : content k = content c
  due : C.rank k.runAt ≤ C.rank due
  attempt : 0 < k.maxAttempts → k.attempt.toInt ≤ n
  live : k.state = statePending ∨
    k.state = stateClaimed ∧ k.lockedUntil ≠ zeroTime ∧ C.late k.lockedUntil now

section
variable {C : Scale} {m m' : JobMap} {c : Job} {id : JobID} {now due : Time}

theorem Unfinished.init {limit : Int64} {h : List (Op × Res)} {e : Op × Res}
    (U : Unfinished C id limit now due (h ++ [e])) : Unfinished C id limit now due h where
  open' := fun e he => U.open' e (List.mem_append_left _ he)
  fails := fun hl => by
    have hlt := U.fails hl
    rw [List.countP_append] at hlt
    omega
  locks := fun q t n w lu r he => U.locks q t n w lu r (List.mem_append_left _ he)
  failed := fun msg t r he => U.failed msg t r (List.mem_append_left _ he)
  moved := fun t r he => U.moved t r (List.mem_append_left _ he)

theorem Stored.maxAttempts {n : Nat} {k : Job} (S : Stored C c now due n k) :
    k.maxAttempts = c.maxAttempts := by
  have h := congrArg Job.maxAttempts S.content
  exact h

theorem Stored.mono {n n' : Nat} {k : Job} (S : Stored C c now due n k) (h : n ≤ n') :
    Stored C c now due n' k where
  content := S.content
  due := S.due
  attempt := fun hm => (S.attempt hm).trans (Int.ofNat_le.mpr h)
  live := S.live

/-- a failure leaves a record while there are attempts -/
theorem Stored.failed {n : Nat} {k : Job} (S : Stored C c now due n k) {msg : String} {t : Time}
    (ht : C.rank t ≤ C.rank due) (hn : 0 < c.maxAttempts → ((n + 1 : Nat) : Int) < c.maxAttempts.toInt) :
    ∃ k', afterFail k msg t = some k' ∧ Stored C c now due (n + 1) k' := by
  have hlt : 0 < k.maxAttempts → (k.attempt + 1).toInt ≤ n + 1 ∧
      (k.attempt + 1).toInt < k.maxAttempts.toInt := by
    intro hm
    have h1 := S.attempt hm
    rw [S.maxAttempts] at hm ⊢
    have h2 := hn hm
    push_cast at h2
    rw [toInt_add_one (show k.attempt.toInt < c.maxAttempts.toInt by omega)]
    omega
  have hx : ¬ Exhausted k := by
    intro ⟨hm, hle⟩
    have h := (hlt hm).2
    rw [Int64.le_iff_toInt_le] at hle
    omega
  refine ⟨_, if_neg hx, S.content, ht, fun hm => ?_, Or.inl rfl⟩
  push_cast
  exact (hlt hm).1

theorem stored_step {h : List (Op × Res)} {o : Op} {r : Res} {k : Job}
    (U : Unfinished C id c.maxAttempts now due (h ++ [(o, r)]))
    (S : Stored C c now due (h.countP (fails id)) k) (hk : m id = some k) (hs : Step C m o r m') :
    ∃ k', m' id = some k' ∧ Stored C c now due ((h ++ [(o, r)]).countP (fails id)) k' := by
  have hlast : ∀ {e}, (o, r) = e → e ∈ h ++ [(o, r)] := by
    rintro _ rfl
    exact List.mem_append_right _ (List.mem_singleton.mpr rfl)
  have hopen := U.open' _ (hlast rfl)
  have hle : h.countP (fails id) ≤ (h ++ [(o, r)]).countP (fails id) := by
    rw [List.countP_append]
    exact Nat.le_add_right _ _
  have hold : ∀ {j}, m id = some j → j = k := fun hj => Option.some.inj (hj.symm.trans hk)
  cases step_change hs id with
  | same record => exact ⟨k, record.trans hk, S.mono hle⟩
  | saved j event hid =>
    rw [event] at hopen
    exact absurd hid hopen
  | acked j event =>
    rw [event] at hopen
    exact absurd rfl hopen
  | cancelled j event =>
    rw [event] at hopen
    exact absurd rfl hopen
  | claimed q t n w lu L j event mem old pending record =>
    obtain rfl := hold old
    have hlock := U.locks q t n w lu _ (hlast event)
    exact ⟨_, record, S.content, S.due, (S.mono hle).attempt, Or.inr ⟨rfl, hlock⟩⟩
  | failed j msg t event old claimed record =>
    obtain rfl := hold old
    have hsnoc : (h ++ [(o, r)]).countP (fails id) = h.countP (fails id) + 1 := by
      rw [List.countP_append, event]
      simp [fails]
    rw [hsnoc, record]
    refine S.failed (U.failed msg t _ (hlast event)) fun hm => ?_
    rw [← hsnoc]
    exact U.fails hm
  | rescheduled j t event old pending record =>
    obtain rfl := hold old
    exact ⟨_, record, S.content, U.moved t _ (hlast event), (S.mono hle).attempt, Or.inl pending⟩
  | recovered t r' j event old claimed lock expired record =>
    obtain rfl := hold old
    exact ⟨_, record, S.content, S.due, (S.mono hle).attempt, Or.inl rfl⟩

/-- **An unfinished job is stored.** -/
theorem runs_stored {j : Job} {h : List (Op × Res)} (hj : j.state = statePending) (h0 : j.attempt = 0)
    (hdue : C.rank j.runAt ≤ C.rank due) (hs : Step C m (.save j) (.err none) m') {m'' : JobMap}
    (hr : Runs (Step C) m' h m'')
    (U : Unfinished C j.id (kept none j).maxAttempts now due h) :
    ∃ k, m'' j.id = some k ∧ Stored C (kept (m j.id) j) now due (h.countP (fails j.id)) k := by
  have hrec : m' j.id = some (kept (m j.id) j) := by
    cases hs with
    | save => exact Function.update_self ..
  refine hr.keep (P := fun h m'' => Unfinished C j.id (kept none j).maxAttempts now due h →
    ∃ k, m'' j.id = some k ∧ Stored C (kept (m j.id) j) now due (h.countP (fails j.id)) k)
    (fun h t o r u ih hs U => ?_) (fun _ => ?_) U
  · obtain ⟨k, hk, S⟩ := ih U.init
    exact stored_step U S hk hs
  · refine ⟨_, hrec, rfl, hdue, fun _ => ?_, Or.inl hj⟩
    show j.attempt.toInt ≤ _
    rw [h0]
    exact Int.le_refl 0

/-! ## recovery -/

/-- a claim that is at least as large as the queue takes every due job -/
theorem takes_all {q : String} {t : Time} {n : Int} {size : Nat} {L : List Job}
    (hc : Counts (fun i => ∃ j, m i = some j ∧ j.state = statePending ∧ j.queue = q) size)
    (hn : (size : Int) ≤ n) (T : Takes C m q t n L) {k : Job} (hk : Due C m q t k) : k ∈ L := by
  by_cases hlt : (L.length : Int) < n
  · exact T.full hlt k hk
  · -- the claim is full, and so are the IDs that were counted
    obtain ⟨ids, hnd, hids, rfl⟩ := hc
    have hsub : L.map Job.id ⊆ ids := by
      intro i hi
      obtain ⟨j, hj, rfl⟩ := List.mem_map.mp hi
      obtain ⟨h1, h2, h3, _⟩ := T.due j hj
      exact (hids j.id).mpr ⟨j, h1, h2, h3⟩
    have hperm : (L.map Job.id).Perm ids := by
      refine (List.subperm_of_subset T.nodup hsub).perm_of_length_le ?_
      rw [List.length_map]
      omega
    obtain ⟨h1, h2, h3, _⟩ := hk
    have hmem := hperm.mem_iff.mpr ((hids k.id).mpr ⟨k, h1, h2, h3⟩)
    obtain ⟨j, hj, e⟩ := List.mem_map.mp hmem
    have hj' := (T.due j hj).1
    rw [e, h1] at hj'
    rwa [Option.some.inj hj']

/-- a recovery makes an unfinished job pending -/
theorem recover_pending {n : Nat} {k : Job} (S : Stored C c now due n k) (hk : m id = some k)
    {r : Res} (hs : Step C m (.recoverStale now) r m') :
    ∃ k', m' id = some k' ∧ k'.state = statePending ∧ C.rank k'.runAt ≤ C.rank due ∧
      content k' = content c := by
  cases hs with
  | @recoverStale _ ids hnd hids =>
    show ∃ k', mapOn m released ids id = some k' ∧ _
    by_cases hid : id ∈ ids
    · rw [mapOn, if_pos hid, hk]
      exact ⟨_, rfl, rfl, S.due, S.content⟩
    · rw [mapOn, if_neg hid, hk]
      refine ⟨k, rfl, ?_, S.due, S.content⟩
      exact S.live.resolve_right fun h => hid ((hids id).mpr ⟨k, hk, h⟩)

end

/-- in a history that saves a job, leaves it unfinished, recovers what has run out, counts the queue and
claims as many jobs as it has, the claim returns the job -/
def Delivers (C : Scale) (h : List (Op × Res)) : Prop :=
  ∀ h₁ j h₂ now r (size : Nat) due n w lu L,
    h = h₁ ++ (.save j, .err none) :: (h₂ ++ [(.recoverStale now, r), (.queueSize j.queue, .count size),
      (.claimDue j.queue due n w lu, .jobs L)]) →
    j.state = statePending → j.attempt = 0 → C.rank j.runAt ≤ C.rank due → (size : Int) ≤ n →
    Unfinished C j.id (kept none j).maxAttempts now due h₂ →
    ∃ k ∈ L, k.id = j.id ∧ k.name = j.name ∧ k.payload = j.payload

/-- **A job that is not finished is delivered again**, whatever became of the workers that had it. -/
theorem runs_delivers {C : Scale} {m : JobMap} {h : List (Op × Res)}
    (hr : Runs (Step C) empty h m) : Delivers C h := by
  intro h₁ j h₂ now r size due n w lu L e hp h0 hdue hn U
  subst e
  obtain ⟨m₁, _, hr⟩ := hr.split
  obtain ⟨m₂, hsave, hr⟩ := hr.of_cons
  obtain ⟨m₃, hr₂, hr⟩ := hr.split
  obtain ⟨m₄, hrecover, hr⟩ := hr.of_cons
  obtain ⟨m₅, hcount, hr⟩ := hr.of_cons
  obtain ⟨m₆, hclaim, _⟩ := hr.of_cons
  obtain ⟨k, hk, S⟩ := runs_stored hp h0 hdue hsave hr₂ U
  obtain ⟨k', hk', hpend, hrun, hcont⟩ := recover_pending S hk hrecover
  generalize hrL : Res.jobs L = rL at hclaim
  generalize hrc : Res.count size = rc at hcount
  cases hcount with
  | queueSize hc =>
    obtain rfl := Res.count.inj hrc
    cases hclaim with
    | @claimDue _ _ _ _ _ L' T =>
      obtain ⟨hid, hname, hqueue, hpay⟩ := content_fields hcont
      have hmem : k' ∈ L' := takes_all hc hn T ⟨hid ▸ hk', hpend, hqueue, hrun⟩
      rw [Res.jobs.inj hrL]
      exact ⟨_, List.mem_map_of_mem hmem, hid, hname, hpay⟩

end GS.Contract
