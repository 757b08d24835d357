import GoSchedule.Contract.Basic
import GoSchedule.Postgres.Custody

/-!
# A job whose worker or connection is lost

A worker can die with a job, and a connection in the middle of a transaction, which the server then
rolls back.  The row of the job is still there.

* `Removes`      what takes a row away or writes it anew: an `Ack` that finds it claimed, the commit of a
  deletion, a `Save`;
* `Lives`, `lives_step`   every other step leaves a row with the same contents, which is pending or has
  a lock that runs out;
* `rollbacks_run`   when every connection is lost no row is locked, and all rows are as they were;
* `unfinished_redelivered`   **whatever a run has done to a saved job, as long as nothing has removed
  it, a recovery after its lock makes it due, and a claim that is large enough returns it**.
-/

namespace GS.Postgres.Tx
open Trans RowLock Contract

def Removes (id : JobID) (s : Sys) : Label → Prop
  | .save j => j.id = id
  | .ack i => i = id ∧ ∃ r, s.table.row id = some r ∧ r.state = stateClaimed
  | .commit i => s.table.lock id = some (i, none)
  | _ => False

/-- a claim of the job has a lock that runs out: one until the zero time is never stale -/
def Leased (id : JobID) : Label → Prop
  | .claim _ _ _ _ lockUntil picked => id ∈ picked → zeroTime < pgTime lockUntil
  | _ => True

/-- the row `r` is the unfinished job `c` -/
structure Lives (c r : Job) : Prop where
  content : content r = content c
  live : r.state = statePending ∨ r.state = stateClaimed ∧ zeroTime < r.lockedUntil

section
variable {s t : Sys} {i : Nat} {a : Label} {id : JobID} {c r : Job}

theorem lives_version {v : Option Job} {x : Session} (hw : Lives c r) (hv : Version x id r v) :
    v = none ∨ ∃ r', v = some r' ∧ Lives c r' := by
  cases hv with
  | removed => exact Or.inl rfl
  | retried => exact Or.inr ⟨_, rfl, hw.content, Or.inl rfl⟩
  | cancelled => exact Or.inl rfl
  | moved => exact Or.inr ⟨_, rfl, hw.content, hw.live⟩

/-- **One step** removes the row or leaves it unfinished. -/
theorem lives_step (L : Locks s) (hr : s.table.row id = some r) (hw : Lives c r)
    (h : step s a = some t) (hrem : ¬ Removes id s a) (hlease : Leased id a) :
    ∃ r', t.table.row id = some r' ∧ Lives c r' := by
  have hrow := step_row h id
  rw [hr] at hrow
  generalize t.table.row id = o at hrow ⊢
  cases hrow with
  | same => exact ⟨r, rfl, hw⟩
  | saved ha hid => exact absurd (ha ▸ hid) hrem
  | claimed ha hid =>
    subst ha
    exact ⟨_, rfl, hw.content, Or.inr ⟨rfl, hlease hid⟩⟩
  | acked ha hs =>
    subst ha
    exact absurd ⟨rfl, r, hr, hs⟩ hrem
  | recovered => exact ⟨_, rfl, hw.content, Or.inl rfl⟩
  | committed ha hl =>
    subst ha
    obtain ⟨r₀, hr₀, hv⟩ := L.version id _ _ hl
    obtain rfl := Option.some.inj (hr.symm.trans hr₀)
    rcases lives_version hw hv with rfl | h'
    · exact absurd hl hrem
    · exact h'

theorem save_lives {j : Job} (hp : j.state = statePending) (h : step s (.save j) = some t) :
    t.table.row j.id = some (upsertRow (s.table.row j.id) j) ∧
      Lives (upsertRow (s.table.row j.id) j) (upsertRow (s.table.row j.id) j) := by
  obtain ⟨_, e⟩ := Option.ite_none_right_eq_some.mp h
  rw [← Option.some.inj e]
  refine ⟨Function.update_self .., rfl, Or.inl ?_⟩
  have hst : (storedJob j).state = statePending := by
    show (if j.state = 0 then statePending else j.state) = statePending
    rw [hp]
    rfl
  unfold upsertRow
  split
  · exact hst
  · exact hst

theorem upsertRow_fields (o : Option Job) (j : Job) : (upsertRow o j).name = j.name ∧
    (upsertRow o j).queue = j.queue ∧ (upsertRow o j).payload = j.payload := by
  cases o <;> exact ⟨rfl, rfl, rfl⟩

/-! ## every connection is lost -/

theorem rollback_run (s : Sys) (i : Nat) : ∃ t, step s (.rollback i) = some t ∧ t.clock = s.clock ∧
    t.size = s.size ∧ t.session = Function.update s.session i .idle := by
  simp only [step]
  split
  · exact ⟨_, rfl, rfl, rfl, rfl⟩
  · exact ⟨_, rfl, rfl, rfl, rfl⟩

theorem rollbacks_run (L : Locks s) (n : Nat) : ∃ t,
    run step s ((List.range n).map .rollback) = some t ∧ Locks t ∧ t.table.row = s.table.row ∧
    t.clock = s.clock ∧
      t.size = s.size ∧ (∀ i < n, t.session i = .idle) ∧ ∀ i, n ≤ i → t.session i = s.session i := by
  induction n with
  | zero => exact ⟨s, rfl, L, rfl, rfl, rfl, fun i hi => absurd hi (Nat.not_lt_zero i), fun _ _ => rfl⟩
  | succ n ih =>
    obtain ⟨t, ht, Lt, hq, hc, hs, hidle, hrest⟩ := ih
    obtain ⟨u, hu, huc, hus, husess⟩ := rollback_run t n
    obtain ⟨Lu, hq'⟩ := rollback_locks Lt hu
    refine ⟨u, ?_, Lu, hq'.trans hq, huc.trans hc, hus.trans hs, fun i hi => ?_, fun i hi => ?_⟩
    · rw [List.range_succ, List.map_append]
      exact run_snoc.mpr ⟨t, ht, hu⟩
    · rw [husess]
      by_cases e : i = n
      · rw [e, Function.update_self]
      · rw [Function.update_of_ne e]
        exact hidle i (by omega)
    · rw [husess, Function.update_of_ne (by omega)]
      exact hrest i (by omega)

/-- and nothing is locked any more -/
theorem lost_unlocked (L : Locks s) : ∃ t, run step s ((List.range s.size).map .rollback) = some t ∧
    Locks t ∧ t.table.row = s.table.row ∧ t.clock = s.clock ∧ ∀ id, t.table.lock id = none := by
  obtain ⟨t, ht, Lt, hq, hc, hs, hidle, _⟩ := rollbacks_run L s.size
  refine ⟨t, ht, Lt, hq, hc, fun id => ?_⟩
  cases hl : t.table.lock id with
  | none => rfl
  | some p =>
    have hsess : t.session p.1 = .idle := by
      by_cases hlt : p.1 < t.size
      · exact hidle p.1 (hs ▸ hlt)
      · exact Lt.outside p.1 hlt
    exact absurd hl (Lt.free (by rw [hsess]; rfl) id p.2)

/-! ## recovery and claim -/

theorem recover_due (hfree : ∀ id, s.table.lock id = none) (now : Time) (hr : s.table.row id = some r)
    (hw : Lives c r) (hlate : r.state = stateClaimed → r.lockedUntil < s.clock) :
    ∃ t r', step s (.recoverStale now) = some t ∧ t.table.row id = some r' ∧ r'.state = statePending ∧
      r'.queue = r.queue ∧ r'.runAt = r.runAt ∧ t.table.lock id = none := by
  have hstep : ∃ t, step s (.recoverStale now) = some t ∧ t.table.lock = s.table.lock :=
    ⟨_, if_pos fun id _ _ _ _ => hfree id, rfl⟩
  obtain ⟨t, ht, hlock⟩ := hstep
  have hl : t.table.lock id = none := by
    rw [hlock]
    exact hfree id
  by_cases hst : Stale s.clock r
  · exact ⟨t, releaseRow now r, ht, (recover_row ht).1 r hr hst, rfl, rfl, rfl, hl⟩
  · refine ⟨t, r, ht, ?_, ?_, rfl, rfl, hl⟩
    · rw [(recover_row ht).2 fun r' hr' => by
        obtain rfl := Option.some.inj (hr.symm.trans hr')
        exact hst]
      exact hr
    · exact hw.live.resolve_right fun ⟨h1, h2⟩ => hst ⟨h1, h2, hlate h1⟩

/-- a claim that is as large as what is due takes all of it -/
theorem claim_takes (L : Locks s) (w : String) (lu : Time) {q : String} {now : Time} {n : Nat}
    (hn : (s.candidates q now).length ≤ n) :
    (∃ picked t, step s (.claim q now n w lu picked) = some t) ∧
      ∀ picked t, step s (.claim q now n w lu picked) = some t →
        ∀ id ∈ s.candidates q now, id ∈ picked := by
  have hnodup : (s.candidates q now).Nodup := L.nodup.filter _
  constructor
  · refine ⟨s.candidates q now, _, if_pos ⟨hnodup, fun _ h => h, ?_, ?_⟩⟩
    · exact (min_eq_right hn).symm
    · exact fun a _ b hb hnot => absurd hb hnot
  · intro picked t h id hid
    obtain ⟨⟨hnd, hsub, hlen, _⟩, _⟩ := Option.ite_none_right_eq_some.mp h
    rw [min_eq_right hn] at hlen
    have hperm := (hnd.subperm hsub).perm_of_length_le hlen.ge
    exact hperm.mem_iff.mpr hid

theorem mem_candidates_of (L : Locks s) {now : Time} (hr : s.table.row id = some r)
    (hp : r.state = statePending) (hdue : r.runAt ≤ pgTime now) (hl : s.table.lock id = none) :
    id ∈ s.candidates r.queue now := by
  refine List.mem_filter.mpr ⟨L.known id r hr, ?_⟩
  rw [hl, hr]
  exact Bool.and_eq_true_iff.mpr ⟨decide_eq_true rfl, decide_eq_true ⟨rfl, hp, hdue⟩⟩

end

/-- **An unfinished job is delivered again**: after any run, and with every connection lost at that
moment. -/
theorem unfinished_redelivered (size : Nat) (clock : Time) (l₁ l₂ : List Label) (s₁ s₂ t : Sys) (j : Job)
    (h₁ : run step (Sys.init size clock) l₁ = some s₁) (hsave : step s₁ (.save j) = some s₂)
    (hp : j.state = statePending) (h₂ : run step s₂ l₂ = some t) (hlease : ∀ a ∈ l₂, Leased j.id a) :
    (∃ m₁ a m₂ s, l₂ = m₁ ++ a :: m₂ ∧ run step s₂ m₁ = some s ∧ Removes j.id s a) ∨
    ∃ r, t.table.row j.id = some r ∧ r.name = j.name ∧ r.payload = j.payload ∧
      ∀ d now due n w lu, (r.state = stateClaimed → r.lockedUntil < t.clock + (d : Nat)) →
        r.runAt ≤ pgTime due →
        ∃ u, run step t ((List.range t.size).map .rollback ++ [.tick d, .recoverStale now]) = some u ∧
          ((u.candidates j.queue due).length ≤ n →
            (∃ picked v, step u (.claim j.queue due n w lu picked) = some v) ∧
            ∀ picked v, step u (.claim j.queue due n w lu picked) = some v → j.id ∈ picked) := by
  obtain ⟨hrow, hlives⟩ := save_lives hp hsave
  obtain ⟨hname, hqueue, hpayload⟩ := upsertRow_fields (s₁.table.row j.id) j
  generalize upsertRow (s₁.table.row j.id) j = c at hrow hlives hname hqueue hpayload
  have L₂ : Locks s₂ := step_locks (run_locks h₁) hsave
  have hkeep : Locks t ∧ ((∀ a ∈ l₂, Leased j.id a) →
      (∃ m₁ a m₂ s, l₂ = m₁ ++ a :: m₂ ∧ run step s₂ m₁ = some s ∧ Removes j.id s a) ∨
        ∃ r, t.table.row j.id = some r ∧ Lives c r) := by
    refine run_induct (P := fun l t => Locks t ∧ ((∀ a ∈ l, Leased j.id a) →
      (∃ m₁ a m₂ s, l = m₁ ++ a :: m₂ ∧ run step s₂ m₁ = some s ∧ Removes j.id s a) ∨
        ∃ r, t.table.row j.id = some r ∧ Lives c r)) ⟨L₂, fun _ => Or.inr ⟨c, hrow, hlives⟩⟩ ?_ h₂
    rintro l s a t hl ⟨L, ih⟩ ht
    refine ⟨step_locks L ht, fun hle => ?_⟩
    rcases ih fun b hb => hle b (List.mem_append_left _ hb) with ⟨m₁, b, m₂, u, rfl, hu, hb⟩ | ⟨r, hr, hw⟩
    · exact Or.inl ⟨m₁, b, m₂ ++ [a], u, by simp, hu, hb⟩
    · by_cases hrem : Removes j.id s a
      · exact Or.inl ⟨l, a, [], s, rfl, hl, hrem⟩
      · exact Or.inr (lives_step L hr hw ht hrem (hle a (List.mem_append_right _ List.mem_cons_self)))
  obtain ⟨L, hkeep⟩ := hkeep
  refine (hkeep hlease).imp_right fun ⟨r, hr, hw⟩ => ?_
  obtain ⟨_, hrn, hrq, hrp⟩ := content_fields hw.content
  refine ⟨r, hr, hrn.trans hname, hrp.trans hpayload, fun d now due n w lu hlate hdue => ?_⟩
  obtain ⟨u₁, hu₁, Lu₁, hq, hclock, hfree⟩ := lost_unlocked L
  have htick : step u₁ (.tick d) = some { u₁ with clock := u₁.clock + (d : Nat) } := rfl
  have hr₁ : u₁.table.row j.id = some r := (congrFun hq j.id).trans hr
  obtain ⟨u, r', hu, hr', hp', hq', hrun, hl'⟩ :=
    recover_due (s := { u₁ with clock := u₁.clock + (d : Nat) }) hfree now hr₁ hw
      (by rw [hclock]; exact hlate)
  have Lu : Locks u := step_locks (step_locks Lu₁ htick) hu
  refine ⟨u, ?_, fun hn => ?_⟩
  · exact run_append.mpr ⟨u₁, hu₁, run_cons.mpr ⟨_, htick, run_cons.mpr ⟨u, hu, rfl⟩⟩⟩
  · obtain ⟨hex, hall⟩ := claim_takes Lu w lu hn
    have hmem := mem_candidates_of Lu hr' hp' (hrun ▸ hdue) hl'
    rw [hq', hrq, hqueue] at hmem
    exact ⟨hex, fun picked v hv => hall picked v hv j.id hmem⟩

/-- `A` has claimed the job, and is lost before the commit of its `Fail` -/
def lostRun : List Label :=
  [.claim "q" 9000 1 "A" 60000 ["j"], .failSelect 0 "j" "err" 70000, .failWrite 0 20000]

theorem unfinished_redelivered_lost : ∃ s₂ t u, step (Sys.init 3 0) (.save twice) = some s₂ ∧
    run step s₂ lostRun = some t ∧
    run step t ((List.range t.size).map .rollback ++ [.tick 100000, .recoverStale 100000]) = some u ∧
    ∀ picked v, step u (.claim "q" 200000 1 "B" 300000 picked) = some v → "j" ∈ picked := by
  have hrun : ((step (Sys.init 3 0) (.save twice)).bind fun s => run step s lostRun).map (fun t =>
      ((t.table.row "j").map fun r => (r.lockedUntil, r.runAt), t.clock,
        (run step t ((List.range t.size).map .rollback ++ [.tick 100000, .recoverStale 100000])).map
          fun u => (u.candidates "q" 200000).length)) = some (some (60000, 5000), 0, some 1) := by
    decide +kernel
  obtain ⟨t, ht, hval⟩ := Option.map_eq_some_iff.mp hrun
  obtain ⟨s₂, h₂, ht⟩ := Option.bind_eq_some_iff.mp ht
  obtain ⟨hrow, hval⟩ := Prod.mk.inj hval
  obtain ⟨hclock, hcount⟩ := Prod.mk.inj hval
  obtain ⟨r, hr, hfields⟩ := Option.map_eq_some_iff.mp hrow
  obtain ⟨hlock, hrunAt⟩ := Prod.mk.inj hfields
  have hlease : ∀ a ∈ lostRun, Leased "j" a := by
    simp only [lostRun, List.forall_mem_cons, List.not_mem_nil, false_implies, implies_true, and_true]
    exact ⟨fun _ => show zeroTime < pgTime 60000 by decide, trivial, trivial⟩
  rcases unfinished_redelivered 3 0 [] lostRun _ s₂ t twice rfl h₂ rfl ht hlease with
    ⟨m₁, a, m₂, s, e, _, hrem⟩ | ⟨r', hr', _, _, hredeliver⟩
  · have ha : a ∈ lostRun := e ▸ List.mem_append_right _ List.mem_cons_self
    simp only [lostRun, List.mem_cons, List.not_mem_nil, or_false] at ha
    rcases ha with rfl | rfl | rfl <;> exact hrem.elim
  · obtain rfl := Option.some.inj (hr.symm.trans hr')
    obtain ⟨u, hu, hclaim⟩ := hredeliver 100000 100000 200000 1 "B" 300000
      (fun _ => by rw [hlock, hclock]; decide) (by rw [hrunAt]; decide)
    rw [hu] at hcount
    exact ⟨s₂, t, u, h₂, ht, hu, (hclaim (Option.some.inj hcount).le).2⟩

end GS.Postgres.Tx
