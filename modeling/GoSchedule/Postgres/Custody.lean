import GoSchedule.Lib.Trace
import GoSchedule.Postgres.Fail

/-!
# Who has a claimed job in the Postgres store

Any interleaving of statements and transactions, calm or not: what a lock says about a row, and what
follows from all that a step can do to one (`RowStep`) for a job that a claim has returned.

* `Version`, `Locks`   a locked row is there, and its version is what the transaction of the lock makes
  of it; every step keeps this (`step_locks`);
* `Frees`          what takes a job from the worker that has claimed it: a save, a recovery after its
  lock has run out, or the commit of a `Fail` that retries;
* `custody_kept`   **until then no other claim returns the job, and its row, if it is still there,
  names the worker and the end of its lock**.
-/

namespace GS.Postgres.Tx
open Trans RowLock

/-! ## what a lock says -/

/-- what a transaction that has come to `x` makes of the row `r` of `id` when it commits -/
inductive Version : Session → JobID → Job → Option Job → Prop
  | removed (id : JobID) (r : Job) : Version (.failWritten id) id r none
  | retried {r : Job} (id : JobID) (msg : String) (t now : Time) (hs : r.state = stateClaimed) :
      Version (.failWritten id) id r (some (retryRow msg t now r))
  | cancelled (id : JobID) (was : Option Job) (r : Job) : Version (.cancelDeleted id was) id r none
  | moved (id : JobID) (t now : Time) (was : Option Job) (r : Job) :
      Version (.rescheduleUpdated id t was) id r (some (moveRow t now r))

theorem Version.written {x : Session} {id : JobID} {r : Job} {v : Option Job} (h : Version x id r v) :
    x.written = some id := by
  cases h <;> rfl

structure Locks (s : Sys) : Prop where
  outside : ∀ i, ¬ i < s.size → s.session i = .idle
  nodup : s.known.Nodup
  known : ∀ id r, s.table.row id = some r → id ∈ s.known
  version : ∀ id i v, s.table.lock id = some (i, v) →
    ∃ r, s.table.row id = some r ∧ Version (s.session i) id r v

theorem init_locks (size : Nat) (clock : Time) : Locks (Sys.init size clock) where
  outside := fun _ _ => rfl
  nodup := List.nodup_nil
  known := fun _ _ h => by cases h
  version := fun _ _ _ h => by cases h

section
variable {s t : Sys} {i : Nat}

theorem Locks.lt_size (L : Locks s) (h : s.session i ≠ .idle) : i < s.size := by
  by_contra hlt
  exact h (L.outside i hlt)

/-- a transaction that has not written anything has no lock -/
theorem Locks.free (L : Locks s) (h : (s.session i).written = none) (id : JobID) (v : Option Job) :
    s.table.lock id ≠ some (i, v) := by
  intro hl
  obtain ⟨r, _, hv⟩ := L.version id i v hl
  rw [hv.written] at h
  cases h

/-- one that has written has a lock on that row only -/
theorem Locks.only (L : Locks s) {id id' : JobID} (h : (s.session i).written = some id)
    {v : Option Job} (hl : s.table.lock id' = some (i, v)) : id' = id := by
  obtain ⟨r, _, hv⟩ := L.version id' i v hl
  exact Option.some.inj (hv.written.symm.trans h)

/-- a statement that is a transaction of its own changes rows that are not locked -/
theorem Locks.auto (L : Locks s) (hsession : t.session = s.session) (hsize : t.size = s.size)
    (hlock : t.table.lock = s.table.lock) (hnodup : t.known.Nodup)
    (hknown : ∀ id r, t.table.row id = some r → id ∈ t.known)
    (hsame : ∀ id r, s.table.row id = some r → s.table.lock id ≠ none →
      t.table.row id = s.table.row id) : Locks t := by
  refine ⟨?_, hnodup, hknown, fun id k v h => ?_⟩
  · rw [hsession, hsize]
    exact L.outside
  · rw [hlock] at h
    obtain ⟨r, hr, hv⟩ := L.version id k v h
    refine ⟨r, (hsame id r hr (by rw [h]; simp)).trans hr, ?_⟩
    rw [hsession]
    exact hv

/-- the sessions beyond the pool stay idle -/
theorem Locks.outside_set (L : Locks s) {x : Session} (hx : x = .idle ∨ i < s.size) (k : Nat)
    (hk : ¬ k < s.size) : Function.update s.session i x k = .idle := by
  by_cases e : k = i
  · subst e
    rw [Function.update_self]
    exact hx.resolve_right hk
  · rw [Function.update_of_ne e]
    exact L.outside k hk

/-- a session without a lock moves on -/
theorem Locks.look (L : Locks s) {x : Session} (hx : x = .idle ∨ i < s.size)
    (hfree : ∀ id v, s.table.lock id ≠ some (i, v)) : Locks (s.set i x) := by
  refine ⟨L.outside_set hx, L.nodup, L.known, fun id k v h => ?_⟩
  obtain ⟨r, hr, hv⟩ := L.version id k v h
  have e : k ≠ i := fun e => hfree id v (e ▸ h)
  refine ⟨r, hr, ?_⟩
  show Version (Function.update s.session i x k) id r v
  rwa [Function.update_of_ne e]

/-- it locks the row of `id` -/
theorem Locks.take (L : Locks s) {x : Session} {id : JobID} {r : Job} {v : Option Job}
    (hlt : i < s.size) (hfree : ∀ id v, s.table.lock id ≠ some (i, v)) (hr : s.table.row id = some r)
    (hv : Version x id r v) :
    Locks { s.set i x with
      table := { s.table with lock := Function.update s.table.lock id (some (i, v)) } } := by
  refine ⟨L.outside_set (Or.inr hlt), L.nodup, L.known, fun id' k v' h => ?_⟩
  change Function.update s.table.lock id (some (i, v)) id' = some (k, v') at h
  by_cases e : id' = id
  · subst e
    rw [Function.update_self] at h
    obtain ⟨rfl, rfl⟩ := Prod.mk.inj (Option.some.inj h)
    refine ⟨r, hr, ?_⟩
    show Version (Function.update s.session i x i) id' r v
    rwa [Function.update_self]
  · rw [Function.update_of_ne e] at h
    exact (L.look (Or.inr hlt) hfree).version id' k v' h

/-- it ends, and the row of `id` becomes what it was or the version -/
theorem Locks.drop (L : Locks s) {id : JobID} {v o : Option Job}
    (hw : (s.session i).written = some id) (hv : s.table.lock id = some (i, v)) :
    Locks { s.set i .idle with
      table := ⟨Function.update s.table.row id o, Function.update s.table.lock id none⟩ } := by
  obtain ⟨r, hr, _⟩ := L.version id i v hv
  refine ⟨L.outside_set (Or.inl rfl), L.nodup, fun id' r' h => ?_, fun id' k v' h => ?_⟩
  · by_cases e : id' = id
    · rw [e]
      exact L.known id r hr
    · exact L.known id' r' ((Function.update_of_ne e ..).symm.trans h)
  · change Function.update s.table.lock id none id' = some (k, v') at h
    have e : id' ≠ id := by
      intro e
      rw [e, Function.update_self] at h
      cases h
    rw [Function.update_of_ne e] at h
    obtain ⟨r', hr', hv'⟩ := L.version id' k v' h
    have hk : k ≠ i := by
      intro hk
      subst hk
      exact e (L.only hw h)
    refine ⟨r', (Function.update_of_ne e ..).trans hr', ?_⟩
    show Version (Function.update s.session i .idle k) id' r' v'
    rwa [Function.update_of_ne hk]

theorem Locks.record (L : Locks s) (log : List Ev) : Locks { s with log := log } :=
  ⟨L.outside, L.nodup, L.known, L.version⟩

/-! ## one step -/

theorem select_locks {id : JobID} {st : State} {next : Job → Session} (L : Locks s)
    (h : select s i id st next = some t) : Locks t := by
  obtain ⟨⟨hlt, hidle⟩, h⟩ := Option.ite_none_right_eq_some.mp h
  have hfree := L.free (i := i) (by rw [hidle]; rfl)
  split at h
  · rename_i r _
    split at h
    · rw [← Option.some.inj h]
      exact L.look (Or.inr hlt) hfree
    · rw [← Option.some.inj h]
      exact L
  · rw [← Option.some.inj h]
    exact L

theorem write_locks {id : JobID} {p : Job → Bool} {f : Job → Option Job} {next : Option Job → Session}
    (L : Locks s) (hlt : i < s.size) (hw : (s.session i).written = none)
    (hv : ∀ r, s.table.row id = some r → p r = true → Version (next (some r)) id r (f r))
    (h : write s i id p f next = some t) : Locks t := by
  obtain ⟨⟨T, was⟩, hT, rfl⟩ := Option.map_eq_some_iff.mp h
  rcases Table.update_spec hT with ⟨rfl, rfl, _⟩ | ⟨r, hr, hp, _, rfl, rfl⟩
  · exact L.look (Or.inr hlt) (L.free hw)
  · exact L.take hlt (L.free hw) hr (hv r hr hp)

theorem failWrite_locks {now : Time} (L : Locks s) (h : step s (.failWrite i now) = some t) :
    Locks t := by
  simp only [step] at h
  split at h
  · rename_i id a m msg at' hsess
    have hlt : i < s.size := L.lt_size (by rw [hsess]; simp)
    have hw : (s.session i).written = none := by rw [hsess]; rfl
    split at h
    · exact write_locks L hlt hw (fun r _ _ => .removed id r) h
    · exact write_locks L hlt hw (fun r _ hp => .retried id msg at' now (beq_iff_eq.mp hp)) h
  · cases h

theorem cancelDelete_locks (L : Locks s) (h : step s (.cancelDelete i) = some t) : Locks t := by
  simp only [step] at h
  split at h
  · rename_i id hsess
    have hlt : i < s.size := L.lt_size (by rw [hsess]; simp)
    exact write_locks L hlt (by rw [hsess]; rfl) (fun r _ _ => .cancelled id (some r) r) h
  · cases h

theorem rescheduleUpdate_locks {now : Time} (L : Locks s)
    (h : step s (.rescheduleUpdate i now) = some t) : Locks t := by
  simp only [step] at h
  split at h
  · rename_i id at' hsess
    have hlt : i < s.size := L.lt_size (by rw [hsess]; simp)
    exact write_locks L hlt (by rw [hsess]; rfl) (fun r _ _ => .moved id at' now (some r) r) h
  · cases h

/-- the end of a transaction that has written `id`, with its version or without -/
theorem Locks.ends (L : Locks s) {id : JobID} (hw : (s.session i).written = some id)
    {T : Table JobID Job} (hT : T = s.table ∧ (∀ v, s.table.lock id ≠ some (i, v)) ∨
      ∃ v o, s.table.lock id = some (i, v) ∧
        T = ⟨Function.update s.table.row id o, Function.update s.table.lock id none⟩) :
    Locks { s.set i .idle with table := T } := by
  rcases hT with ⟨rfl, hno⟩ | ⟨v, o, hv, rfl⟩
  · refine L.look (Or.inl rfl) fun id' v h => ?_
    rw [L.only hw h] at h
    exact hno v h
  · exact L.drop hw hv

theorem commit_written (h : step s (.commit i) = some t) : ∃ id log,
    (s.session i).written = some id ∧
      t = { s.set i .idle with table := s.table.commit i id, log := log } := by
  simp only [step] at h
  split at h
  · rename_i id hsess
    exact ⟨id, s.log, by rw [hsess]; rfl, (Option.some.inj h).symm⟩
  · rename_i id was hsess
    exact ⟨id, _, by rw [hsess]; rfl, (Option.some.inj h).symm⟩
  · rename_i id at' was hsess
    exact ⟨id, _, by rw [hsess]; rfl, (Option.some.inj h).symm⟩
  · cases h

theorem commit_locks (L : Locks s) (h : step s (.commit i) = some t) : Locks t := by
  obtain ⟨id, log, hw, rfl⟩ := commit_written h
  refine Locks.record (s := { s.set i .idle with table := s.table.commit i id }) ?_ log
  refine L.ends hw ?_
  rcases Table.commit_spec s.table i id with ⟨e, hno⟩ | ⟨v, hv, e⟩
  · exact Or.inl ⟨e, hno⟩
  · exact Or.inr ⟨v, v, hv, e⟩

theorem rollback_locks (L : Locks s) (h : step s (.rollback i) = some t) :
    Locks t ∧ t.table.row = s.table.row := by
  simp only [step] at h
  split at h
  · rename_i id hw
    rw [← Option.some.inj h]
    rcases Table.rollback_spec s.table i id with e | ⟨v, hv, e⟩
    · refine ⟨L.ends hw (Or.inl ⟨e, fun v hl => ?_⟩), ?_⟩
      · exact Table.rollback_free s.table i id v (e.symm ▸ hl)
      · exact congrArg Table.row e
    · refine ⟨L.ends hw (Or.inr ⟨v, s.table.row id, hv, ?_⟩), ?_⟩
      · rw [e, Function.update_eq_self]
      · show (s.table.rollback i id).row = s.table.row
        rw [e]
  · rename_i hw
    rw [← Option.some.inj h]
    exact ⟨L.look (Or.inl rfl) (L.free hw), rfl⟩

/-- a statement on many rows leaves the locked ones alone -/
theorem mapRows_locks {f : JobID → Job → Job} {log : List Ev} (L : Locks s)
    (hsame : ∀ id r, s.table.row id = some r → s.table.lock id ≠ none → f id r = r) :
    Locks { s with table := s.table.mapRows f, log := log } := by
  refine L.auto rfl rfl rfl L.nodup (fun id r hr => ?_) fun id r hr hl => ?_
  · obtain ⟨r₀, hr₀, _⟩ := Option.map_eq_some_iff.mp hr
    exact L.known id r₀ hr₀
  · show (s.table.row id).map (f id) = s.table.row id
    rw [hr]
    exact congrArg some (hsame id r hr hl)

theorem save_locks {j : Job} (L : Locks s) (h : step s (.save j) = some t) : Locks t := by
  obtain ⟨hl, e⟩ := Option.ite_none_right_eq_some.mp h
  rw [← Option.some.inj e]
  refine L.auto rfl rfl rfl (L.nodup.insert) (fun id r hr => ?_) fun id r _ hid => ?_
  · by_cases e : id = j.id
    · rw [e]
      exact List.mem_insert_self
    · exact List.mem_insert_of_mem (L.known id r ((Function.update_of_ne e ..).symm.trans hr))
  · have e : id ≠ j.id := by
      intro e
      rw [e] at hid
      exact hid hl
    exact Function.update_of_ne e ..

theorem ack_locks {id : JobID} (L : Locks s) (h : step s (.ack id) = some t) : Locks t := by
  obtain ⟨T, hT, rfl⟩ := Option.map_eq_some_iff.mp h
  rcases Table.exec_spec hT with rfl | ⟨r, _, _, hl, rfl⟩
  · exact L
  · refine L.auto rfl rfl rfl L.nodup (fun id' r' hr' => ?_) fun id' r' _ hid => ?_
    · by_cases e : id' = id
      · change Function.update s.table.row id none id' = some r' at hr'
        rw [e, Function.update_self] at hr'
        cases hr'
      · exact L.known id' r' ((Function.update_of_ne e ..).symm.trans hr')
    · have e : id' ≠ id := by
        intro e
        rw [e] at hid
        exact hid hl
      exact Function.update_of_ne e ..

/-- **Every step keeps what the locks say.** -/
theorem step_locks {a : Label} (L : Locks s) (h : step s a = some t) : Locks t := by
  cases a with
  | save j => exact save_locks L h
  | claim q now n w lu picked =>
    obtain ⟨hsel, e⟩ := Option.ite_none_right_eq_some.mp h
    rw [← Option.some.inj e]
    exact mapRows_locks L fun id r _ hl =>
      if_neg fun hp => hl (candidate_pending (hsel.2.1 id hp)).1
  | ack id => exact ack_locks L h
  | recoverStale now =>
    obtain ⟨hwait, e⟩ := Option.ite_none_right_eq_some.mp h
    rw [← Option.some.inj e]
    exact mapRows_locks L fun id r hr hl => if_neg fun hst => hl (hwait id (L.known id r hr) r hr hst)
  | failSelect | cancelSelect | rescheduleSelect => exact select_locks L h
  | failWrite => exact failWrite_locks L h
  | cancelDelete => exact cancelDelete_locks L h
  | rescheduleUpdate => exact rescheduleUpdate_locks L h
  | commit => exact commit_locks L h
  | rollback => exact (rollback_locks L h).1
  | tick d =>
    rw [← Option.some.inj h]
    exact L.auto rfl rfl rfl L.nodup L.known fun _ _ _ _ => rfl

end

theorem run_locks {size : Nat} {clock : Time} {l : List Label} {s : Sys}
    (h : run step (Sys.init size clock) l = some s) : Locks s :=
  run_keep (fun _ _ _ L hst => step_locks L hst) (init_locks size clock) h

/-! ## a claimed job -/

/-- what takes the job `id` from the worker that has it until `lockUntil` -/
def Frees (id : JobID) (lockUntil : Time) (s : Sys) : Label → Prop
  | .save j => j.id = id
  | .recoverStale _ => zeroTime < pgTime lockUntil ∧ pgTime lockUntil < s.clock
  | .commit i => s.session i = .failWritten id ∧ ∃ r, s.table.lock id = some (i, some r)
  | _ => False

/-- the row, if there is one, is claimed by `workerID` until `lockUntil` -/
def HeldBy (workerID : String) (lockUntil : Time) (s : Sys) (id : JobID) : Prop :=
  ∀ r, s.table.row id = some r →
    r.state = stateClaimed ∧ r.lockedBy = workerID ∧ r.lockedUntil = pgTime lockUntil

/-- the label is a claim that returns `id` -/
def Claims (id : JobID) (a : Label) : Prop :=
  ∃ q now n w lu picked, a = .claim q now n w lu picked ∧ id ∈ picked

section
variable {s t : Sys} {a : Label} {id : JobID} {w : String} {lu : Time}

theorem claim_heldBy {q : String} {now : Time} {n : Nat} {picked : List JobID}
    (h : step s (.claim q now n w lu picked) = some t) (hid : id ∈ picked) : HeldBy w lu t id := by
  intro r hr
  obtain ⟨r₀, _, _, hr'⟩ := (claim_row h).1 hid
  rw [hr'] at hr
  obtain rfl := Option.some.inj hr
  exact ⟨rfl, rfl, rfl⟩

/-- **One step**: it frees the job, or the job stays with its worker and is not claimed. -/
theorem held_step (L : Locks s) (hk : HeldBy w lu s id) (h : step s a = some t)
    (hf : ¬ Frees id lu s a) : HeldBy w lu t id ∧ ¬ Claims id a := by
  have hrow := step_row h id
  constructor
  · intro r' hr'
    rw [hr'] at hrow
    unfold HeldBy at hk
    generalize ho : s.table.row id = o at hrow hk
    cases hrow with
    | same => exact hk r' rfl
    | saved ha hid => exact absurd (ha ▸ hid) hf
    | claimed ha hid hs =>
      rw [(hk _ rfl).1] at hs
      exact absurd hs (by decide)
    | recovered ha hs =>
      obtain ⟨_, _, e⟩ := hk _ rfl
      rw [Stale, e] at hs
      exact absurd (ha ▸ hs.2) hf
    | committed ha hl =>
      rename_i i
      subst ha
      obtain ⟨r, hr, hv⟩ := L.version id i _ hl
      rw [ho] at hr
      generalize hx : s.session i = x at hv
      cases hv with
      | retried => exact absurd ⟨hx, _, hl⟩ hf
      | moved => exact hk r hr
  · rintro ⟨q, now, n, w', lu', picked, rfl, hid⟩
    obtain ⟨r, hr, hs, _⟩ := (claim_row h).1 hid
    rw [(hk r hr).1] at hs
    exact absurd hs (by decide)

end

/-- **A claimed job stays with its worker**, in every interleaving: until a step frees it, the row names
the worker and no claim returns the job. -/
theorem custody_kept (size : Nat) (clock : Time) (l₁ l₂ : List Label) (s₁ s₂ t : Sys) (q w : String)
    (now lu : Time) (n : Nat) (picked : List JobID) (id : JobID)
    (h₁ : run step (Sys.init size clock) l₁ = some s₁)
    (hclaim : step s₁ (.claim q now n w lu picked) = some s₂) (hid : id ∈ picked)
    (h₂ : run step s₂ l₂ = some t) :
    (∃ m₁ a m₂ s, l₂ = m₁ ++ a :: m₂ ∧ run step s₂ m₁ = some s ∧ Frees id lu s a) ∨
      HeldBy w lu t id ∧ ∀ a ∈ l₂, ¬ Claims id a := by
  have L₂ : Locks s₂ := step_locks (run_locks h₁) hclaim
  refine And.right (run_induct (P := fun l t => Locks t ∧ ((∃ m₁ a m₂ s, l = m₁ ++ a :: m₂ ∧
    run step s₂ m₁ = some s ∧ Frees id lu s a) ∨ HeldBy w lu t id ∧ ∀ a ∈ l, ¬ Claims id a)) ?_ ?_ h₂)
  · exact ⟨L₂, Or.inr ⟨claim_heldBy hclaim hid, fun a ha => nomatch ha⟩⟩
  · rintro l s a t hl ⟨L, ih⟩ ht
    refine ⟨step_locks L ht, ?_⟩
    rcases ih with ⟨m₁, b, m₂, u, rfl, hu, hb⟩ | ⟨hk, hno⟩
    · exact Or.inl ⟨m₁, b, m₂ ++ [a], u, by simp, hu, hb⟩
    · by_cases hf : Frees id lu s a
      · exact Or.inl ⟨l, a, [], s, rfl, hl, hf⟩
      · obtain ⟨hk', ha⟩ := held_step L hk ht hf
        refine Or.inr ⟨hk', fun b hb => ?_⟩
        rcases List.mem_append.mp hb with hb | hb
        · exact hno b hb
        · rw [List.mem_singleton.mp hb]
          exact ha

/-- `A` reports a failure and is rolled back; its lock is still running -/
theorem custody_kept_rolled : ∃ s₁ s₂ t, run step (Sys.init 3 0) [.save twice] = some s₁ ∧
    step s₁ (.claim "q" 9000 1 "A" 60000 ["j"]) = some s₂ ∧
    run step s₂ [.failSelect 0 "j" "err" 70000, .failWrite 0 20000, .rollback 0] = some t ∧
    ((∃ m₁ a m₂ s, [.failSelect 0 "j" "err" 70000, .failWrite 0 20000, .rollback 0] = m₁ ++ a :: m₂ ∧
      run step s₂ m₁ = some s ∧ Frees "j" 60000 s a) ∨ HeldBy "A" 60000 t "j" ∧
        ∀ a ∈ [.failSelect 0 "j" "err" 70000, .failWrite 0 20000, .rollback 0], ¬ Claims "j" a) := by
  have hrun : (((run step (Sys.init 3 0) [.save twice]).bind fun s =>
      step s (.claim "q" 9000 1 "A" 60000 ["j"])).bind fun s =>
      run step s [.failSelect 0 "j" "err" 70000, .failWrite 0 20000, .rollback 0]).isSome = true := by
    decide +kernel
  obtain ⟨t, ht⟩ := Option.isSome_iff_exists.mp hrun
  obtain ⟨s₂, h₂, ht⟩ := Option.bind_eq_some_iff.mp ht
  obtain ⟨s₁, h₁, h₂⟩ := Option.bind_eq_some_iff.mp h₂
  exact ⟨s₁, s₂, t, h₁, h₂, ht,
    custody_kept 3 0 _ _ s₁ s₂ t _ _ _ _ _ _ _ h₁ h₂ (List.mem_singleton.mpr rfl) ht⟩

end GS.Postgres.Tx
