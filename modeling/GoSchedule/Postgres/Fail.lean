import GoSchedule.Postgres.Tx

/-!
# What a failed attempt counts in the Postgres store

`Fail` reads `attempt` and `max_attempts`, decides in the client whether the attempt was the last one,
and then deletes the row by ID or counts up a row that is claimed.  Neither statement looks at what was
read.

* `Steady`   while a `Fail` is between its SELECT and its write, nobody acknowledges, saves or recovers
  the job, and no other transaction commits a write of it;
* `Counted`  the invariant of steady runs: a row that was read is still as it was, a locked row has the
  version that its transaction will commit (`Raises`, `Moves`);
* `RowStep`, `step_row`   all that a step can do to one row;
* `steady_fails_count`   **in steady runs a `Fail` that returns nil has removed the job or counted one
  attempt, and no row reaches its `max_attempts`**;
* `recovered_between`   what a recovery in between does otherwise.
-/

namespace GS.Postgres.Tx
open Trans RowLock

namespace Session

/-- the job that a `Fail` has read and not written yet -/
def failing : Session → Option JobID
  | failSelected id .. => some id
  | _ => none

end Session

/-- no `Fail` is between its SELECT on the job and its write -/
def Sys.Unread (s : Sys) (id : JobID) : Prop := ∀ i < s.size, (s.session i).failing ≠ some id

instance (s : Sys) (id : JobID) : Decidable (s.Unread id) :=
  inferInstanceAs (Decidable (∀ i < s.size, _))

def Steady (s : Sys) : Label → Prop
  | .save j => s.Unread j.id
  | .ack id => s.Unread id
  | .recoverStale _ => ∀ id ∈ s.known, ∀ r ∈ s.table.row id, Stale s.clock r → s.Unread id
  | .commit i => ∀ id ∈ (s.session i).written, s.Unread id
  | _ => True

instance (s : Sys) : DecidablePred (Steady s)
  | .save j => inferInstanceAs (Decidable (s.Unread j.id))
  | .ack id => inferInstanceAs (Decidable (s.Unread id))
  | .recoverStale _ => inferInstanceAs
      (Decidable (∀ id ∈ s.known, ∀ r ∈ s.table.row id, Stale s.clock r → s.Unread id))
  | .commit i => inferInstanceAs (Decidable (∀ id ∈ (s.session i).written, s.Unread id))
  | .claim .. | .failSelect .. | .failWrite .. | .cancelSelect .. | .cancelDelete _
  | .rescheduleSelect .. | .rescheduleUpdate .. | .rollback _ | .tick _ => isTrue trivial

def Below (r : Job) : Prop := 0 < r.maxAttempts → r.attempt < r.maxAttempts

/-! ## the invariant -/

/-- the row is removed, or was claimed and counts one attempt more -/
def Raises (r : Job) (v : Option Job) : Prop :=
  v = none ∨ r.state = stateClaimed ∧
    ∃ msg t now, v = some (retryRow msg t now r) ∧ Below (retryRow msg t now r)

def Moves (r : Job) (v : Option Job) : Prop := ∃ t now, v = some (moveRow t now r)

structure Counted (s : Sys) : Prop where
  outside : ∀ i, ¬ i < s.size → s.session i = .idle
  known : ∀ id r, s.table.row id = some r → id ∈ s.known
  locks : ∀ id i v, s.table.lock id = some (i, v) →
    ∃ r, s.table.row id = some r ∧ (Raises r v ∨ Moves r v)
  read : ∀ i id a m msg t, s.session i = .failSelected id a m msg t →
    ∃ r, s.table.row id = some r ∧ r.state = stateClaimed ∧ r.attempt = a ∧ r.maxAttempts = m
  written : ∀ i id, s.session i = .failWritten id →
    ∃ r v, s.table.row id = some r ∧ s.table.lock id = some (i, v) ∧ Raises r v

theorem init_counted (size : Nat) (clock : Time) : Counted (Sys.init size clock) where
  outside := fun _ _ => rfl
  known := fun _ _ h => (nomatch h)
  locks := fun _ _ _ h => (nomatch h)
  read := fun _ _ _ _ _ _ h => (nomatch h)
  written := fun _ _ h => (nomatch h)

/-- an attempt that is not the last one stays below the maximum -/
theorem below_retry {r : Job} (msg : String) (t now : Time)
    (h : ¬ (0 < r.maxAttempts ∧ r.maxAttempts.toInt ≤ r.attempt.toInt + 1)) :
    Below (retryRow msg t now r) := by
  intro h0
  have hlt : r.attempt.toInt + 1 < r.maxAttempts.toInt := by
    by_contra hle
    exact h ⟨h0, not_lt.mp hle⟩
  show r.attempt + 1 < r.maxAttempts
  rw [Int64.lt_iff_toInt_lt, toInt_add_one (lt_trans (Int.lt_succ _) hlt)]
  exact hlt

section
variable {s t : Sys} {i : Nat}

theorem Counted.lt_size (hi : Counted s) (h : s.session i ≠ .idle) : i < s.size := by
  by_contra hlt
  exact h (hi.outside i hlt)

theorem Counted.not_failing (hi : Counted s) {id : JobID} (hu : s.Unread id) (k : Nat) :
    (s.session k).failing ≠ some id := by
  by_cases h : k < s.size
  · exact hu k h
  · rw [hi.outside k h]
    exact fun e => (nomatch e)

/-- a row that a `Fail` has read is claimed -/
theorem Counted.claimed_of_failing (hi : Counted s) {id : JobID} {k : Nat}
    (h : (s.session k).failing = some id) :
    ∃ r, s.table.row id = some r ∧ r.state = stateClaimed := by
  unfold Session.failing at h
  split at h
  · rename_i id' a m msg at' hs
    obtain rfl := Option.some.inj h
    obtain ⟨r, hr, hst, _⟩ := hi.read k id' a m msg at' hs
    exact ⟨r, hr, hst⟩
  · cases h

/-- a statement that is a transaction of its own changes rows that are not locked and not read -/
theorem Counted.auto (hi : Counted s) (hsession : t.session = s.session) (hsize : t.size = s.size)
    (hlock : t.table.lock = s.table.lock) (hknown : ∀ id r, t.table.row id = some r → id ∈ t.known)
    (hsame : ∀ id, s.table.lock id ≠ none ∨ (∃ k, (s.session k).failing = some id) →
      t.table.row id = s.table.row id) : Counted t := by
  have hlocked : ∀ id k v, s.table.lock id = some (k, v) → t.table.row id = s.table.row id := by
    intro id k v h
    exact hsame id (Or.inl (by rw [h]; simp))
  refine ⟨?_, hknown, fun id k v h => ?_, fun k id a m msg at' h => ?_, fun k id h => ?_⟩
  · rw [hsession, hsize]
    exact hi.outside
  · rw [hlock] at h
    rw [hlocked id k v h]
    exact hi.locks id k v h
  · rw [hsession] at h
    rw [hsame id (Or.inr ⟨k, by rw [h]; rfl⟩)]
    exact hi.read k id a m msg at' h
  · rw [hsession] at h
    obtain ⟨r, v, hr, hl, hv⟩ := hi.written k id h
    rw [hlock, hlocked id k v hl]
    exact ⟨r, v, hr, hl, hv⟩

/-- the session `i` moves to `x`, with the table that it leaves -/
theorem Counted.move (hi : Counted s) {x : Session} {T : Table JobID Job} (hlt : i < s.size)
    (hknown : ∀ id r, T.row id = some r → id ∈ s.known)
    (hlocks : ∀ id k v, T.lock id = some (k, v) → ∃ r, T.row id = some r ∧ (Raises r v ∨ Moves r v))
    (hread : ∀ k id, (s.session k).failing = some id → T.row id = s.table.row id)
    (hself : ∀ id a m msg t, x = .failSelected id a m msg t →
      ∃ r, T.row id = some r ∧ r.state = stateClaimed ∧ r.attempt = a ∧ r.maxAttempts = m)
    (hkept : ∀ k id v, k ≠ i → s.table.lock id = some (k, v) →
      T.row id = s.table.row id ∧ T.lock id = some (k, v))
    (hwritten : ∀ id, x = .failWritten id →
      ∃ r v, T.row id = some r ∧ T.lock id = some (i, v) ∧ Raises r v) :
    Counted { s.set i x with table := T } := by
  have heq : (s.set i x).session i = x := Function.update_self ..
  have hne : ∀ k, k ≠ i → (s.set i x).session k = s.session k := fun k h =>
    Function.update_of_ne h ..
  refine ⟨fun k hk => ?_, hknown, hlocks, fun k id a m msg at' h => ?_, fun k id h => ?_⟩
  · exact (hne k fun e => hk (e ▸ hlt)).trans (hi.outside k hk)
  · by_cases e : k = i
    · subst e
      exact hself id a m msg at' (heq.symm.trans h)
    · have h' : s.session k = .failSelected id a m msg at' := (hne k e).symm.trans h
      have hrow := hread k id (by rw [h']; rfl)
      show ∃ r, T.row id = some r ∧ _
      rw [hrow]
      exact hi.read k id a m msg at' h'
  · by_cases e : k = i
    · subst e
      exact hwritten id (heq.symm.trans h)
    · obtain ⟨r, v, hr, hl, hv⟩ := hi.written k id ((hne k e).symm.trans h)
      obtain ⟨h1, h2⟩ := hkept k id v e hl
      exact ⟨r, v, h1.trans hr, h2, hv⟩

/-! ## statements that are transactions of their own -/

theorem save_counted {j : Job} (hi : Counted s) (hC : Steady s (.save j))
    (h : step s (.save j) = some t) : Counted t := by
  obtain ⟨hl, e⟩ := Option.ite_none_right_eq_some.mp h
  rw [← Option.some.inj e]
  refine hi.auto rfl rfl rfl (fun id r hr => ?_) fun id hid => ?_
  · by_cases e : id = j.id
    · rw [e]
      exact List.mem_insert_self
    · exact List.mem_insert_of_mem (hi.known id r ((Function.update_of_ne e ..).symm.trans hr))
  · have e : id ≠ j.id := by
      intro e
      subst e
      rcases hid with hid | ⟨k, hk⟩
      · exact hid hl
      · exact hi.not_failing hC k hk
    exact Function.update_of_ne e ..

/-- a statement on many rows -/
theorem mapRows_counted {f : JobID → Job → Job} {log : List Ev} (hi : Counted s)
    (hsame : ∀ id r, s.table.row id = some r →
      s.table.lock id ≠ none ∨ (∃ k, (s.session k).failing = some id) → f id r = r) :
    Counted { s with table := s.table.mapRows f, log := log } := by
  refine hi.auto rfl rfl rfl (fun id r hr => ?_) fun id hid => ?_
  · obtain ⟨r₀, hr₀, _⟩ := Option.map_eq_some_iff.mp hr
    exact hi.known id r₀ hr₀
  · show (s.table.row id).map (f id) = s.table.row id
    cases hr : s.table.row id with
    | none => rfl
    | some r => exact congrArg some (hsame id r hr hid)

/-- a candidate of a claim is pending and not locked -/
theorem candidate_pending {q : String} {now : Time} {id : JobID} (h : id ∈ s.candidates q now) :
    s.table.lock id = none ∧ ∀ r, s.table.row id = some r → r.state = statePending := by
  obtain ⟨hl, hr⟩ := Bool.and_eq_true_iff.mp (List.mem_filter.mp h).2
  refine ⟨of_decide_eq_true hl, fun r hrow => ?_⟩
  rw [hrow] at hr
  exact (of_decide_eq_true (show decide _ = true from hr)).2.1

theorem claim_counted {q w : String} {now lu : Time} {n : Nat} {picked : List JobID} (hi : Counted s)
    (h : step s (.claim q now n w lu picked) = some t) : Counted t := by
  obtain ⟨hsel, e⟩ := Option.ite_none_right_eq_some.mp h
  rw [← Option.some.inj e]
  refine mapRows_counted hi fun id r hr hid => if_neg fun hp => ?_
  obtain ⟨hl, hpend⟩ := candidate_pending (hsel.2.1 id hp)
  rcases hid with hid | ⟨k, hk⟩
  · exact hid hl
  · obtain ⟨r', hr', hst⟩ := hi.claimed_of_failing hk
    rw [hpend r' hr'] at hst
    exact absurd hst (by decide)

theorem recoverStale_counted {now : Time} (hi : Counted s) (hC : Steady s (.recoverStale now))
    (h : step s (.recoverStale now) = some t) : Counted t := by
  obtain ⟨hwait, e⟩ := Option.ite_none_right_eq_some.mp h
  rw [← Option.some.inj e]
  refine mapRows_counted hi fun id r hr hid => if_neg fun hstale => ?_
  have hk := hi.known id r hr
  rcases hid with hid | ⟨k, hfail⟩
  · exact hid (hwait id hk r hr hstale)
  · exact hi.not_failing (hC id hk r hr hstale) k hfail

theorem ack_counted {id : JobID} (hi : Counted s) (hC : Steady s (.ack id))
    (h : step s (.ack id) = some t) : Counted t := by
  obtain ⟨T, hT, rfl⟩ := Option.map_eq_some_iff.mp h
  rcases Table.exec_spec hT with rfl | ⟨r, hr, _, hl, rfl⟩
  · exact hi
  · have hold : ∀ id' r', Function.update s.table.row id none id' = some r' →
        s.table.row id' = some r' := by
      intro id' r' hr'
      by_cases e : id' = id
      · rw [e, Function.update_self] at hr'
        cases hr'
      · rwa [Function.update_of_ne e] at hr'
    refine hi.auto rfl rfl rfl (fun id' r' hr' => hi.known id' r' (hold id' r' hr')) fun id' hid => ?_
    have e : id' ≠ id := by
      intro e
      subst e
      rcases hid with hid | ⟨k, hk⟩
      · exact hid hl
      · exact hi.not_failing hC k hk
    exact Function.update_of_ne e ..

/-! ## the statements of a transaction -/

/-- a session moves on and the table stays as it is -/
theorem Counted.look (hi : Counted s) {x : Session} (hlt : i < s.size)
    (hself : ∀ id a m msg t, x = .failSelected id a m msg t →
      ∃ r, s.table.row id = some r ∧ r.state = stateClaimed ∧ r.attempt = a ∧ r.maxAttempts = m)
    (hw : ∀ id, x ≠ .failWritten id) : Counted (s.set i x) :=
  hi.move (T := s.table) hlt hi.known hi.locks (fun _ _ _ => rfl) hself
    (fun _ _ _ _ h => ⟨rfl, h⟩) fun id e => absurd e (hw id)

theorem select_counted {id : JobID} {st : State} {next : Job → Session} (hi : Counted s)
    (hself : ∀ r id' a m msg t, s.table.row id = some r → r.state = st →
      next r = .failSelected id' a m msg t →
      id' = id ∧ r.state = stateClaimed ∧ r.attempt = a ∧ r.maxAttempts = m)
    (hw : ∀ r id, next r ≠ .failWritten id) (h : select s i id st next = some t) : Counted t := by
  obtain ⟨⟨hlt, _⟩, h⟩ := Option.ite_none_right_eq_some.mp h
  split at h
  · rename_i r hr
    split at h
    · rename_i hst
      rw [← Option.some.inj h]
      refine hi.look hlt (fun id' a m msg at' e => ?_) (hw r)
      obtain ⟨rfl, hrest⟩ := hself r id' a m msg at' hr (beq_iff_eq.mp hst) e
      exact ⟨r, hr, hrest⟩
    · rw [← Option.some.inj h]
      exact hi
  · rw [← Option.some.inj h]
    exact hi

/-- a write that locks the row of `id` with the version `v` -/
theorem Counted.locked (hi : Counted s) {x : Session} {id : JobID} {r : Job} {v : Option Job}
    (hlt : i < s.size) (hr : s.table.row id = some r) (hl : s.table.lock id = none)
    (hv : Raises r v ∨ Moves r v) (hx : x.failing = none)
    (hw : ∀ id', x = .failWritten id' → id' = id ∧ Raises r v) :
    Counted { s.set i x with
      table := { s.table with lock := Function.update s.table.lock id (some (i, v)) } } := by
  refine hi.move hlt hi.known (fun id' k v' h => ?_) (fun _ _ _ => rfl)
    (fun id' a m msg at' e => ?_) (fun k id' v' _ h => ⟨rfl, ?_⟩) fun id' e => ?_
  · by_cases e : id' = id
    · subst e
      change Function.update s.table.lock id' (some (i, v)) id' = _ at h
      rw [Function.update_self] at h
      obtain rfl : v = v' := congrArg Prod.snd (Option.some.inj h)
      exact ⟨r, hr, hv⟩
    · exact hi.locks id' k v' ((Function.update_of_ne e ..).symm.trans h)
  · rw [e] at hx
    cases hx
  · have e : id' ≠ id := by
      intro e
      rw [e, hl] at h
      cases h
    exact (Function.update_of_ne e ..).trans h
  · obtain ⟨rfl, hraise⟩ := hw id' e
    exact ⟨r, v, hr, Function.update_self .., hraise⟩

/-- the write of `Fail` finds the row as it was read -/
theorem failWrite_spec {now : Time} (hi : Counted s) (h : step s (.failWrite i now) = some t) :
    ∃ id r v, s.table.row id = some r ∧ s.table.lock id = none ∧ i < s.size ∧ Raises r v ∧
      t = { s.set i (.failWritten id) with
        table := { s.table with lock := Function.update s.table.lock id (some (i, v)) } } := by
  simp only [step] at h
  split at h
  · rename_i id a m msg at' hsess
    have hlt : i < s.size := hi.lt_size (by rw [hsess]; simp)
    obtain ⟨r₀, hr₀, hst, rfl, rfl⟩ := hi.read i id a m msg at' hsess
    split at h
    · obtain ⟨⟨T, was⟩, hT, rfl⟩ := Option.map_eq_some_iff.mp h
      rcases Table.update_spec hT with ⟨_, _, hno⟩ | ⟨r, hr, _, hl, _, rfl⟩
      · exact absurd (hno r₀ hr₀) (by decide)
      · exact ⟨id, r, none, hr, hl, hlt, Or.inl rfl, rfl⟩
    · rename_i hlast
      obtain ⟨⟨T, was⟩, hT, rfl⟩ := Option.map_eq_some_iff.mp h
      rcases Table.update_spec hT with ⟨_, _, hno⟩ | ⟨r, hr, _, hl, _, rfl⟩
      · have hs : isState stateClaimed r₀ = true := beq_iff_eq.mpr hst
        exact absurd (hno r₀ hr₀) (by rw [hs]; decide)
      · obtain rfl := Option.some.inj (hr₀.symm.trans hr)
        exact ⟨id, r₀, _, hr, hl, hlt, Or.inr ⟨hst, msg, at', now, rfl, below_retry msg at' now hlast⟩,
          rfl⟩
  · cases h

theorem failWrite_counted {now : Time} (hi : Counted s) (h : step s (.failWrite i now) = some t) :
    Counted t := by
  obtain ⟨id, r, v, hr, hl, hlt, hv, rfl⟩ := failWrite_spec hi h
  refine hi.locked hlt hr hl (Or.inl hv) rfl fun id' e => ?_
  cases e
  exact ⟨rfl, hv⟩

/-- the writes of the other transactions remove the row or move it -/
theorem write_counted {id : JobID} {f : Job → Option Job} {next : Option Job → Session}
    (hi : Counted s) (hlt : i < s.size) (hf : ∀ r, Raises r (f r) ∨ Moves r (f r))
    (hx : ∀ o, (next o).failing = none) (hw : ∀ o id, next o ≠ .failWritten id)
    (h : write s i id (fun _ => true) f next = some t) : Counted t := by
  obtain ⟨⟨T, was⟩, hT, rfl⟩ := Option.map_eq_some_iff.mp h
  rcases Table.update_spec hT with ⟨rfl, _, _⟩ | ⟨r, hr, _, hl, _, rfl⟩
  · refine hi.look hlt (fun id' a m msg at' e => ?_) (hw was)
    have hn := hx was
    rw [show next was = _ from e] at hn
    cases hn
  · exact hi.locked hlt hr hl (hf r) (hx was) fun id' e => absurd e (hw was id')

theorem cancelDelete_counted (hi : Counted s) (h : step s (.cancelDelete i) = some t) : Counted t := by
  simp only [step] at h
  split at h
  · rename_i id hsess
    have hlt : i < s.size := hi.lt_size (by rw [hsess]; simp)
    exact write_counted hi hlt (fun _ => Or.inl (Or.inl rfl)) (fun _ => rfl)
      (fun _ _ e => by cases e) h
  · cases h

theorem rescheduleUpdate_counted {now : Time} (hi : Counted s)
    (h : step s (.rescheduleUpdate i now) = some t) : Counted t := by
  simp only [step] at h
  split at h
  · rename_i id t' hsess
    have hlt : i < s.size := hi.lt_size (by rw [hsess]; simp)
    exact write_counted hi hlt (fun _ => Or.inr ⟨t', now, rfl⟩) (fun _ => rfl)
      (fun _ _ e => by cases e) h
  · cases h

/-! ## the end of a transaction -/

/-- the lock of `i` on `id` is released and the row is `o`: the row as it was, or the version -/
theorem Counted.unlock (hi : Counted s) {id : JobID} {v o : Option Job} (hlt : i < s.size)
    (hv : s.table.lock id = some (i, v)) (ho : o = s.table.row id ∨ o = v ∧ s.Unread id) :
    Counted { s.set i .idle with
      table := ⟨Function.update s.table.row id o, Function.update s.table.lock id none⟩ } := by
  obtain ⟨r, hr, _⟩ := hi.locks id i v hv
  refine hi.move hlt (fun id' r' h => ?_) (fun id' k v' h => ?_) (fun k id' hk => ?_)
    (fun _ _ _ _ _ e => (nomatch e)) (fun k id' v' hk h => ?_) fun _ e => (nomatch e)
  · by_cases e : id' = id
    · rw [e]
      exact hi.known id r hr
    · exact hi.known id' r' ((Function.update_of_ne e ..).symm.trans h)
  · have e : id' ≠ id := by
      intro e
      rw [e] at h
      change Function.update s.table.lock id none id = _ at h
      rw [Function.update_self] at h
      cases h
    obtain ⟨r', hr', hv'⟩ := hi.locks id' k v' ((Function.update_of_ne e ..).symm.trans h)
    exact ⟨r', (Function.update_of_ne e ..).trans hr', hv'⟩
  · show Function.update s.table.row id o id' = s.table.row id'
    by_cases e : id' = id
    · subst e
      rcases ho with ho | ⟨_, hu⟩
      · rw [Function.update_self]
        exact ho
      · exact absurd hk (hi.not_failing hu k)
    · exact Function.update_of_ne e ..
  · have e : id' ≠ id := by
      intro e
      rw [e, hv] at h
      exact hk (congrArg Prod.fst (Option.some.inj h)).symm
    exact ⟨Function.update_of_ne e .., (Function.update_of_ne e ..).trans h⟩

theorem Counted.record (hi : Counted s) (log : List Ev) : Counted { s with log := log } :=
  ⟨hi.outside, hi.known, hi.locks, hi.read, hi.written⟩

theorem Counted.idle (hi : Counted s) (hlt : i < s.size) : Counted (s.set i .idle) :=
  hi.look hlt (fun _ _ _ _ _ e => (nomatch e)) fun _ e => (nomatch e)

theorem Counted.commit (hi : Counted s) {id : JobID} (hlt : i < s.size) (hu : s.Unread id) :
    Counted { s.set i .idle with table := s.table.commit i id } := by
  rcases Table.commit_spec s.table i id with ⟨e, _⟩ | ⟨v, hv, e⟩
  · rw [e]
    exact hi.idle hlt
  · rw [e]
    exact hi.unlock hlt hv (Or.inr ⟨rfl, hu⟩)

theorem commit_counted (hi : Counted s) (hC : Steady s (.commit i)) (h : step s (.commit i) = some t) :
    Counted t := by
  have hunread : ∀ id, (s.session i).written = some id → s.Unread id := fun id e => hC id e
  simp only [step] at h
  split at h
  · rename_i id hsess
    rw [← Option.some.inj h]
    exact hi.commit (hi.lt_size (by rw [hsess]; simp)) (hunread id (by rw [hsess]; rfl))
  · rename_i id was hsess
    rw [← Option.some.inj h]
    exact (hi.commit (hi.lt_size (by rw [hsess]; simp)) (hunread id (by rw [hsess]; rfl))).record _
  · rename_i id t' was hsess
    rw [← Option.some.inj h]
    exact (hi.commit (hi.lt_size (by rw [hsess]; simp)) (hunread id (by rw [hsess]; rfl))).record _
  · cases h

theorem rollback_counted (hi : Counted s) (h : step s (.rollback i) = some t) : Counted t := by
  have hidle : ¬ i < s.size → s.set i .idle = s := by
    intro hlt
    unfold Sys.set
    rw [← hi.outside i hlt, Function.update_eq_self]
  simp only [step] at h
  split at h
  · rename_i id hw
    rw [← Option.some.inj h]
    have hlt : i < s.size := hi.lt_size fun e => by
      rw [e] at hw
      cases hw
    rcases Table.rollback_spec s.table i id with e | ⟨v, hv, e⟩
    · rw [e]
      exact hi.idle hlt
    · rw [e]
      have hc := hi.unlock hlt hv (Or.inl rfl)
      rw [Function.update_eq_self] at hc
      exact hc
  · rw [← Option.some.inj h]
    by_cases hlt : i < s.size
    · exact hi.idle hlt
    · rw [hidle hlt]
      exact hi

/-- **One steady step keeps the invariant.** -/
theorem step_counted {a : Label} (hi : Counted s) (hC : Steady s a) (h : step s a = some t) :
    Counted t := by
  cases a with
  | save j => exact save_counted hi hC h
  | claim => exact claim_counted hi h
  | ack => exact ack_counted hi hC h
  | recoverStale => exact recoverStale_counted hi hC h
  | failSelect i id msg at' =>
    refine select_counted hi (fun r id' a m msg' t' _ hst e => ?_) (fun _ _ e => by cases e) h
    cases e
    exact ⟨rfl, hst, rfl, rfl⟩
  | failWrite => exact failWrite_counted hi h
  | cancelSelect =>
    exact select_counted hi (fun _ _ _ _ _ _ _ _ e => by cases e) (fun _ _ e => by cases e) h
  | cancelDelete => exact cancelDelete_counted hi h
  | rescheduleSelect =>
    exact select_counted hi (fun _ _ _ _ _ _ _ _ e => by cases e) (fun _ _ e => by cases e) h
  | rescheduleUpdate => exact rescheduleUpdate_counted hi h
  | commit => exact commit_counted hi hC h
  | rollback => exact rollback_counted hi h
  | tick d =>
    rw [← Option.some.inj h]
    exact hi.auto rfl rfl rfl hi.known fun _ _ => rfl

/-! ## one row -/

/-- what a step does to the row of one job -/
inductive RowStep (s : Sys) (a : Label) (id : JobID) : Option Job → Option Job → Prop
  | same (o : Option Job) : RowStep s a id o o
  | saved {j : Job} (ha : a = .save j) (hid : j.id = id) (o : Option Job) :
      RowStep s a id o (some (upsertRow o j))
  | claimed {q w : String} {now lu : Time} {n : Nat} {picked : List JobID} {r : Job}
      (ha : a = .claim q now n w lu picked) (hid : id ∈ picked) (hs : r.state = statePending) :
      RowStep s a id (some r) (some (claimRow now w lu r))
  | acked {r : Job} (ha : a = .ack id) (hs : r.state = stateClaimed) : RowStep s a id (some r) none
  | recovered {now : Time} {r : Job} (ha : a = .recoverStale now) (hs : Stale s.clock r) :
      RowStep s a id (some r) (some (releaseRow now r))
  | committed {i : Nat} {v : Option Job} (ha : a = .commit i) (hl : s.table.lock id = some (i, v))
      (o : Option Job) : RowStep s a id o v

theorem select_table {id : JobID} {st : State} {next : Job → Session}
    (h : select s i id st next = some t) : t.table = s.table := by
  obtain ⟨_, h⟩ := Option.ite_none_right_eq_some.mp h
  split at h
  · split at h
    · rw [← Option.some.inj h]
      rfl
    · rw [← Option.some.inj h]
  · rw [← Option.some.inj h]

theorem write_row {id : JobID} {p : Job → Bool} {f : Job → Option Job} {next : Option Job → Session}
    (h : write s i id p f next = some t) : t.table.row = s.table.row := by
  obtain ⟨⟨T, was⟩, hT, rfl⟩ := Option.map_eq_some_iff.mp h
  rcases Table.update_spec hT with ⟨rfl, _, _⟩ | ⟨r, _, _, _, _, rfl⟩
  · rfl
  · rfl

theorem RowStep.of_eq {a : Label} {id : JobID} (h : t.table.row id = s.table.row id) :
    RowStep s a id (s.table.row id) (t.table.row id) := by
  rw [h]
  exact .same _

theorem commit_row (s : Sys) (i : Nat) (id' id : JobID) :
    RowStep s (.commit i) id (s.table.row id) ((s.table.commit i id').row id) := by
  rcases Table.commit_spec s.table i id' with ⟨e, _⟩ | ⟨v, hv, e⟩
  · rw [e]
    exact .same _
  · rw [e]
    show RowStep s _ id (s.table.row id) (Function.update s.table.row id' v id)
    by_cases e' : id = id'
    · subst e'
      rw [Function.update_self]
      exact .committed rfl hv _
    · rw [Function.update_of_ne e']
      exact .same _

theorem claim_row {q w : String} {now lu : Time} {n : Nat} {picked : List JobID} {id : JobID}
    (h : step s (.claim q now n w lu picked) = some t) :
    (id ∈ picked → ∃ r, s.table.row id = some r ∧ r.state = statePending ∧
      t.table.row id = some (claimRow now w lu r)) ∧
    (id ∉ picked → t.table.row id = s.table.row id) := by
  obtain ⟨hsel, e⟩ := Option.ite_none_right_eq_some.mp h
  rw [← Option.some.inj e]
  constructor
  · intro hid
    obtain ⟨r, hr⟩ := mem_candidates (hsel.2.1 id hid)
    refine ⟨r, hr, (candidate_pending (hsel.2.1 id hid)).2 r hr, ?_⟩
    show (s.table.row id).map _ = _
    rw [hr]
    exact congrArg some (if_pos hid)
  · intro hid
    show (s.table.row id).map _ = _
    cases s.table.row id with
    | none => rfl
    | some r => exact congrArg some (if_neg hid)

theorem recover_row {now : Time} {id : JobID} (h : step s (.recoverStale now) = some t) :
    (∀ r, s.table.row id = some r → Stale s.clock r →
      t.table.row id = some (releaseRow now r)) ∧
    ((∀ r, s.table.row id = some r → ¬ Stale s.clock r) → t.table.row id = s.table.row id) := by
  obtain ⟨_, e⟩ := Option.ite_none_right_eq_some.mp h
  rw [← Option.some.inj e]
  constructor
  · intro r hr hst
    show (s.table.row id).map _ = _
    rw [hr]
    exact congrArg some (if_pos hst)
  · intro hst
    show (s.table.row id).map _ = _
    cases hr : s.table.row id with
    | none => rfl
    | some r => exact congrArg some (if_neg (hst r hr))

/-- **What a step does to a row.** -/
theorem step_row {a : Label} (h : step s a = some t) (id : JobID) :
    RowStep s a id (s.table.row id) (t.table.row id) := by
  cases a with
  | save j =>
    obtain ⟨_, e⟩ := Option.ite_none_right_eq_some.mp h
    rw [← Option.some.inj e]
    show RowStep s _ id _ (Function.update s.table.row j.id _ id)
    by_cases hid : id = j.id
    · subst hid
      rw [Function.update_self]
      exact .saved rfl rfl _
    · rw [Function.update_of_ne hid]
      exact .same _
  | claim q now n w lu picked =>
    by_cases hid : id ∈ picked
    · obtain ⟨r, hr, hst, hr'⟩ := (claim_row h).1 hid
      rw [hr, hr']
      exact .claimed rfl hid hst
    · exact .of_eq ((claim_row h).2 hid)
  | ack id' =>
    obtain ⟨T, hT, rfl⟩ := Option.map_eq_some_iff.mp h
    rcases Table.exec_spec hT with rfl | ⟨r, hr, hst, _, rfl⟩
    · exact .same _
    · show RowStep s _ id _ (Function.update s.table.row id' none id)
      by_cases hid : id = id'
      · subst hid
        rw [Function.update_self, hr]
        exact .acked rfl (beq_iff_eq.mp hst)
      · rw [Function.update_of_ne hid]
        exact .same _
  | recoverStale now =>
    by_cases hst : ∃ r, s.table.row id = some r ∧ Stale s.clock r
    · obtain ⟨r, hr, hst⟩ := hst
      rw [(recover_row h).1 r hr hst, hr]
      exact .recovered rfl hst
    · exact .of_eq ((recover_row h).2 fun r hr hs => hst ⟨r, hr, hs⟩)
  | failSelect | cancelSelect | rescheduleSelect =>
    exact .of_eq (by rw [select_table h])
  | failWrite i now =>
    simp only [step] at h
    split at h
    · split at h
      · exact .of_eq (by rw [write_row h])
      · exact .of_eq (by rw [write_row h])
    · cases h
  | cancelDelete i =>
    simp only [step] at h
    split at h
    · exact .of_eq (by rw [write_row h])
    · cases h
  | rescheduleUpdate i now =>
    simp only [step] at h
    split at h
    · exact .of_eq (by rw [write_row h])
    · cases h
  | commit i =>
    simp only [step] at h
    split at h
    · rw [← Option.some.inj h]
      exact commit_row s i _ id
    · rw [← Option.some.inj h]
      exact commit_row s i _ id
    · rw [← Option.some.inj h]
      exact commit_row s i _ id
    · cases h
  | rollback i =>
    simp only [step] at h
    split at h
    · rename_i id' _
      rw [← Option.some.inj h]
      refine .of_eq ?_
      show (s.table.rollback i id').row id = _
      rcases Table.rollback_spec s.table i id' with e | ⟨v, _, e⟩
      · rw [e]
      · rw [e]
    · rw [← Option.some.inj h]
      exact .same _
  | tick d =>
    rw [← Option.some.inj h]
    exact .same _

/-- a step keeps a row below its maximum -/
theorem RowStep.below {a : Label} {id : JobID} {o o' : Option Job} (h : RowStep s a id o o')
    (hi : Counted s) (hrow : s.table.row id = o) (hb : ∀ j, a = .save j → j.attempt = 0)
    (ho : ∀ r, o = some r → Below r) : ∀ r, o' = some r → Below r := by
  intro r' hr'
  cases h with
  | same => exact ho r' hr'
  | saved ha hid o =>
    rename_i j
    rw [← Option.some.inj hr']
    have hst : Below (storedJob j) := fun h0 => by
      show j.attempt < _
      rw [hb j ha]
      exact h0
    unfold upsertRow
    split
    · exact hst
    · exact hst
  | claimed =>
    rename_i r _ _ _
    rw [← Option.some.inj hr']
    exact ho r rfl
  | acked => cases hr'
  | recovered =>
    rename_i r _ _
    rw [← Option.some.inj hr']
    exact ho r rfl
  | committed ha hl =>
    obtain ⟨r, hr, hv⟩ := hi.locks id _ _ hl
    rw [hrow] at hr
    rcases hv with (rfl | ⟨_, msg, at', now, rfl, hbelow⟩) | ⟨at', now, rfl⟩
    · cases hr'
    · rw [← Option.some.inj hr']
      exact hbelow
    · rw [← Option.some.inj hr']
      exact ho r hr

/-- the commit of a `Fail` writes the version that it has locked -/
theorem commit_fail (hi : Counted s) {id : JobID} (hsess : s.session i = .failWritten id)
    (h : step s (.commit i) = some t) :
    ∃ r, s.table.row id = some r ∧ Raises r (t.table.row id) := by
  obtain ⟨r, v, hr, hl, hv⟩ := hi.written i id hsess
  simp only [step, hsess] at h
  rw [← Option.some.inj h]
  refine ⟨r, hr, ?_⟩
  rcases Table.commit_spec s.table i id with ⟨_, hno⟩ | ⟨v', hv', e⟩
  · exact absurd hl (hno v)
  · obtain rfl : v = v' := congrArg Prod.snd (Option.some.inj (hl.symm.trans hv'))
    show Raises r ((s.table.commit i id).row id)
    rw [e]
    show Raises r (Function.update s.table.row id v id)
    rw [Function.update_self]
    exact hv

end

theorem run_counted {size : Nat} {clock : Time} {l : List Label} {s : Sys}
    (h : run step (Sys.init size clock) l = some s)
    (hm : Meets step Steady (Sys.init size clock) l) : Counted s :=
  run_keep_of (fun _ _ _ hi hC hst => step_counted hi hC hst) hm (init_counted size clock) h

/-- the jobs of a run are saved with no attempt made -/
def SavedFresh (l : List Label) : Prop := ∀ j, .save j ∈ l → j.attempt = 0

theorem run_below {size : Nat} {clock : Time} {l : List Label} {s : Sys} (hl : SavedFresh l)
    (h : run step (Sys.init size clock) l = some s)
    (hm : Meets step Steady (Sys.init size clock) l) :
    ∀ id r, s.table.row id = some r → Below r := by
  induction l using List.reverseRecOn generalizing s with
  | nil =>
    obtain rfl := Option.some.inj h
    exact fun _ _ hr => (nomatch hr)
  | append_singleton l a ih =>
    obtain ⟨t, ht, hlast⟩ := run_append.mp h
    obtain ⟨u, hstep, hu⟩ := run_cons.mp hlast
    obtain rfl := Option.some.inj hu
    obtain ⟨hm1, _⟩ := hm.append ht
    intro id
    refine (step_row hstep id).below (run_counted ht hm1) rfl (fun j e => hl j ?_)
      (ih (fun j hj => hl j (List.mem_append_left _ hj)) ht hm1 id)
    rw [e]
    exact List.mem_append_right _ (List.mem_singleton.mpr rfl)

/-- **Steady runs count**, in every state and for every pool: no row with a maximum has reached it, and
the commit with which a `Fail` returns nil removes the row or counts one attempt. -/
theorem steady_fails_count (size : Nat) (clock : Time) (l : List Label) (s : Sys) (hl : SavedFresh l)
    (h : run step (Sys.init size clock) l = some s)
    (hm : Meets step Steady (Sys.init size clock) l) :
    (∀ id r, s.table.row id = some r → 0 < r.maxAttempts → r.attempt < r.maxAttempts) ∧
    ∀ i id t, s.session i = .failWritten id → step s (.commit i) = some t →
      ∃ r, s.table.row id = some r ∧
        (t.table.row id = none ∨ ∃ r', t.table.row id = some r' ∧ r'.attempt = r.attempt + 1) := by
  refine ⟨run_below hl h hm, fun i id t hsess ht => ?_⟩
  obtain ⟨r, hr, hv⟩ := commit_fail (run_counted h hm) hsess ht
  refine ⟨r, hr, ?_⟩
  rcases hv with hv | ⟨_, msg, at', now, hv, _⟩
  · exact Or.inl hv
  · exact Or.inr ⟨_, hv, rfl⟩

/-! ## runs -/

/-- a job that may be tried twice -/
def twice : Job := { sampleJob with maxAttempts := 2 }

/-- `A` claims the job and reports a failure, up to the commit -/
def failRun : List Label :=
  [.save twice, .claim "q" 9000 1 "A" 60000 ["j"], .failSelect 0 "j" "err" 70000, .failWrite 0 20000]

theorem steady_fails_count_once : ∃ s r, run step (Sys.init 3 0) failRun = some s ∧
    s.table.row "j" = some r ∧ r.attempt < r.maxAttempts := by
  have hrun : (run step (Sys.init 3 0) failRun).map (fun s => s.table.row "j") =
      some (some (claimRow 9000 "A" 60000 twice)) := by decide +kernel
  obtain ⟨s, hs, hr⟩ := Option.map_eq_some_iff.mp hrun
  refine ⟨s, _, hs, hr, ?_⟩
  have hfresh : SavedFresh failRun := by
    intro j hj
    simp only [failRun, List.mem_cons, Label.save.injEq, reduceCtorEq, List.not_mem_nil, or_false] at hj
    rw [hj]
    rfl
  exact (steady_fails_count 3 0 failRun s hfresh hs (by decide +kernel)).1 "j" _ hr (by decide)

/-- `A` has read the job when its claim runs out and `RecoverStale` takes it back -/
def lateRun : List Label :=
  [.save twice, .claim "q" 9000 1 "A" 60000 ["j"], .failSelect 0 "j" "err" 70000, .tick 100000,
    .recoverStale 100000]

/-- `B` claims the job and fails, and `C` claims it again -/
def retriedRun : List Label :=
  [.claim "q" 110000 1 "B" 160000 ["j"], .failSelect 1 "j" "err" 120000, .failWrite 1 120000, .commit 1,
    .claim "q" 130000 1 "C" 180000 ["j"]]

/-- **A recovery in between.**  `A`'s write finds no claimed row and `Fail` returns nil with nothing
counted; or it finds the claim of `C`, and counts a second attempt on a job that may be tried
twice. -/
theorem recovered_between :
    (run step (Sys.init 3 0) (lateRun ++ [.failWrite 0 100000])).map
        (fun s => (s.session 0, (s.table.row "j").map fun r => (r.attempt, r.maxAttempts))) =
      some (.failWritten "j", some (0, 2)) ∧
    (run step (Sys.init 3 0) (lateRun ++ [.failWrite 0 100000, .commit 0])).map
        (fun s => (s.session 0, (s.table.row "j").map fun r => (r.attempt, r.maxAttempts))) =
      some (.idle, some (0, 2)) ∧
    (run step (Sys.init 3 0) (lateRun ++ retriedRun ++ [.failWrite 0 140000, .commit 0])).map
        (fun s => (s.table.row "j").map fun r => (r.attempt, r.maxAttempts)) =
      some (some (2, 2)) := by
  refine ⟨?_, ?_, ?_⟩ <;> decide +kernel

end GS.Postgres.Tx
