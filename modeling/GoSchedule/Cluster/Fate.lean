import GoSchedule.Cluster.Basic

/-!
# What becomes of a saved job

Over every run of the schedulers: with workers that are late, lanes that stop and are started again,
and janitors that take a claim back while its worker is still busy.

* `step_record`, `none_kept`, `claimed_kept`   what a call does to one record;
* `Fate`        a saved job is stored with the contents it was saved with, or it was cancelled, or a
  handler has returned nil for it, or it has failed as often as it may;
* `Kept`, `kept_step`   **every move keeps this for every saved job**, and whoever holds a job has a copy
  of what was saved.
-/

namespace GS.Cluster
open Contract Slots Trans
open Mem (JobMap)

/-! ## one record -/

section
variable {C : Scale} {m m' : JobMap} {o : Op} {r : Res} {id : JobID} {k : Job}

/-- a record was there with the same contents, or is what was saved -/
theorem step_record (h : Step C m o r m') (hk : m' id = some k) :
    (∃ k₀, m id = some k₀ ∧ content k = content k₀) ∨
      ∃ j, o = .save j ∧ j.id = id ∧ k = kept (m id) j := by
  cases step_change h id with
  | same record => exact Or.inl ⟨k, record ▸ hk, rfl⟩
  | saved j event hid record =>
    refine Or.inr ⟨j, (Prod.mk.inj event).1, hid, ?_⟩
    exact Option.some.inj (hk.symm.trans record)
  | claimed q t n w lu L j event mem old pending record =>
    obtain rfl := Option.some.inj (hk.symm.trans record)
    exact Or.inl ⟨j, old, rfl⟩
  | acked j event old claimed record => cases hk.symm.trans record
  | failed j msg t event old claimed record =>
    rw [record, Mem.afterFail] at hk
    split at hk
    · cases hk
    · obtain rfl := Option.some.inj hk
      exact Or.inl ⟨j, old, rfl⟩
  | cancelled j event old pending record => cases hk.symm.trans record
  | rescheduled j t event old pending record =>
    obtain rfl := Option.some.inj (hk.symm.trans record)
    exact Or.inl ⟨j, old, rfl⟩
  | recovered t r' j event old claimed lock expired record =>
    obtain rfl := Option.some.inj (hk.symm.trans record)
    exact Or.inl ⟨j, old, rfl⟩

theorem none_kept (h : Step C m o r m') (hn : m id = none) (ho : ∀ j, o = .save j → j.id ≠ id) :
    m' id = none := by
  cases hk : m' id with
  | none => rfl
  | some k =>
    rcases step_record h hk with ⟨k₀, hk₀, _⟩ | ⟨j, hj, hid, _⟩
    · cases hn.symm.trans hk₀
    · exact absurd hid (ho j hj)

/-- the call is not one that ends the claim `k` -/
def Spares (C : Scale) (k : Job) : Op → Prop
  | .save j => j.id ≠ k.id
  | .ack id => id ≠ k.id
  | .fail id _ _ => id ≠ k.id
  | .recoverStale now => ¬ C.late k.lockedUntil now
  | _ => True

theorem claimed_kept (h : Step C m o r m') (hk : m k.id = some k) (hc : k.state = stateClaimed)
    (hs : Spares C k o) : m' k.id = some k := by
  have hpend : ∀ {j}, m k.id = some j → j.state ≠ statePending := by
    intro j hj e
    rw [Option.some.inj (hj.symm.trans hk), hc] at e
    exact absurd e (by decide)
  cases step_change h k.id with
  | same record => exact record.trans hk
  | saved j event hid =>
    rw [(Prod.mk.inj event).1] at hs
    exact absurd hid hs
  | claimed _ _ _ _ _ _ j _ _ old pending => exact absurd pending (hpend old)
  | acked j event =>
    rw [(Prod.mk.inj event).1] at hs
    exact absurd rfl hs
  | failed j msg t event =>
    rw [(Prod.mk.inj event).1] at hs
    exact absurd rfl hs
  | cancelled j _ old pending => exact absurd pending (hpend old)
  | rescheduled j _ _ old pending => exact absurd pending (hpend old)
  | recovered now _ j event old _ _ expired =>
    rw [(Prod.mk.inj event).1] at hs
    rw [Option.some.inj (old.symm.trans hk)] at expired
    exact absurd expired hs

/-- what a claim returns was pending, and is stored as it is returned -/
theorem claim_spec {q w : String} {now lu : Time} {n : Int} {J : List Job}
    (h : Step C m (.claimDue q now n w lu) (.jobs J) m') : (J.map Job.id).Nodup ∧
      ∀ j ∈ J, m' j.id = some j ∧ j.state = stateClaimed ∧ j.lockedUntil = lu ∧
        ∃ k, m j.id = some k ∧ k.state = statePending := by
  have hrec : ∀ j ∈ J, _ := fun j hj => hands_record h ⟨q, now, n, w, lu, J, rfl, hj⟩
  generalize hr : Res.jobs J = r at h
  cases h with
  | @claimDue _ _ _ _ _ L hT =>
    obtain rfl := Res.jobs.inj hr
    refine ⟨?_, fun j hj => ?_⟩
    · rw [List.map_map]
      exact hT.nodup
    · obtain ⟨⟨k, hk, hp, _⟩, hj', hc⟩ := hrec j hj
      obtain ⟨k', _, rfl⟩ := List.mem_map.mp hj
      exact ⟨hj', hc, rfl, k, hk, hp⟩

end

/-! ## in every run -/

/-- `k` has the contents that `j` was saved with -/
def Copy (j k : Job) : Prop := content k = content (kept none j)

theorem Copy.id {j k : Job} (h : Copy j k) : k.id = j.id := (content_fields h).1

namespace Ev

/-- the handler of the job has returned nil -/
def succeeds (id : JobID) : Ev → Bool
  | done j none => j.id == id
  | _ => false

def fails (id : JobID) : Ev → Bool
  | done j (some _) => j.id == id
  | _ => false

end Ev

/-- what has become of a saved job -/
inductive Fate (log : List Ev) (m : JobMap) (j : Job) : Prop
  | stored (r : Job) (record : m j.id = some r) (copy : Copy j r)
      (attempt : 0 < r.maxAttempts → r.attempt.toInt ≤ log.countP (Ev.fails j.id))
  | cancelled (mem : .cancelled j.id ∈ log)
  | succeeded (k : Job) (mem : .done k none ∈ log) (copy : Copy j k)
  | failed (limit : 0 < (kept none j).maxAttempts)
      (le : (kept none j).maxAttempts.toInt ≤ log.countP (Ev.fails j.id))

/-- the new events `es` tell what the call did to `j` -/
structure Tells (j : Job) (o : Op) (r : Res) (es : List Ev) : Prop where
  save : ∀ k, o = .save k → k.id ≠ j.id
  ack : o = .ack j.id → ∃ k, .done k none ∈ es ∧ Copy j k
  fail : ∀ msg t, o = .fail j.id msg t → es.countP (Ev.fails j.id) = 1
  cancel : o = .cancel j.id → r = .err none → .cancelled j.id ∈ es

section
variable {C : Scale} {m m' : JobMap} {o : Op} {r : Res} {j : Job} {log es : List Ev}

theorem fails_append (id : JobID) (log es : List Ev) : (log.countP (Ev.fails id) : Int) ≤
    (log ++ es).countP (Ev.fails id) := by
  rw [List.countP_append]
  exact Int.ofNat_le.mpr (Nat.le_add_right _ _)

/-- a failure counts one attempt, or was the last one -/
theorem fate_failed {k : Job} {msg : String} {t : Time} (copy : Copy j k)
    (attempt : 0 < k.maxAttempts → k.attempt.toInt ≤ log.countP (Ev.fails j.id))
    (hes : es.countP (Ev.fails j.id) = 1) (record : m' j.id = Mem.afterFail k msg t) :
    Fate (log ++ es) m' j := by
  have hcount : ((log ++ es).countP (Ev.fails j.id) : Int) = log.countP (Ev.fails j.id) + 1 := by
    rw [List.countP_append, hes]
    push_cast
    rfl
  have hmax : k.maxAttempts = (kept none j).maxAttempts := by
    have h := congrArg Job.maxAttempts copy
    exact h
  rw [Mem.afterFail] at record
  split at record
  · rename_i hx
    obtain ⟨h0, hle⟩ := hx
    refine .failed (hmax ▸ h0) ?_
    have ha := attempt h0
    rw [← hmax, hcount]
    by_cases hlt : k.attempt.toInt < k.maxAttempts.toInt
    · rw [Int64.le_iff_toInt_le, toInt_add_one hlt] at hle
      omega
    · omega
  · rename_i hx
    refine .stored _ record copy fun h0 => ?_
    show (k.attempt + 1).toInt ≤ _
    have ha := attempt h0
    rw [hcount]
    by_cases hlt : k.attempt.toInt < k.maxAttempts.toInt
    · rw [toInt_add_one hlt]
      omega
    · have hnot : ¬ k.maxAttempts ≤ k.attempt + 1 := fun hle => hx ⟨h0, hle⟩
      rw [Int64.le_iff_toInt_le] at hnot
      omega

/-- **One call**: the job stays, or the events tell why not. -/
theorem fate_step (F : Fate log m j) (h : Step C m o r m') (T : Tells j o r es) :
    Fate (log ++ es) m' j := by
  have hle := fails_append j.id log es
  cases F with
  | cancelled mem => exact .cancelled (List.mem_append_left _ mem)
  | succeeded k mem copy => exact .succeeded k (List.mem_append_left _ mem) copy
  | failed limit le => exact .failed limit (le.trans hle)
  | stored k record copy attempt =>
    have hstay : ∀ k', m' j.id = some k' → content k' = content k → k'.attempt = k.attempt →
        Fate (log ++ es) m' j := by
      intro k' hk' hcontent ha
      refine .stored k' hk' (hcontent.trans copy) fun h0 => ?_
      have hmax : k'.maxAttempts = k.maxAttempts := by
        have h := congrArg Job.maxAttempts hcontent
        exact h
      rw [ha]
      exact (attempt (hmax ▸ h0)).trans hle
    have hold : ∀ {k'}, m j.id = some k' → k' = k := fun hk' => Option.some.inj (hk'.symm.trans record)
    cases step_change h j.id with
    | same record' => exact hstay k (record'.trans record) rfl rfl
    | saved k' event hid => exact absurd hid (T.save k' (Prod.mk.inj event).1)
    | claimed q t n w lu L k' event mem old pending record' =>
      obtain rfl := hold old
      exact hstay _ record' rfl rfl
    | acked k' event =>
      obtain ⟨k'', hmem, hcopy⟩ := T.ack (Prod.mk.inj event).1
      exact .succeeded k'' (List.mem_append_right _ hmem) hcopy
    | failed k' msg t event old claimed record' =>
      obtain rfl := hold old
      exact fate_failed copy attempt (T.fail msg t (Prod.mk.inj event).1) record'
    | cancelled k' event =>
      obtain ⟨h1, h2⟩ := Prod.mk.inj event
      exact .cancelled (List.mem_append_right _ (T.cancel h1 h2))
    | rescheduled k' t event old pending record' =>
      obtain rfl := hold old
      exact hstay _ record' rfl rfl
    | recovered t r' k' event old claimed lock expired record' =>
      obtain rfl := hold old
      exact hstay _ record' rfl rfl

end

section
variable {σ : Type} {C : Scale} {s t : Sys σ} {a : Label} {m m' : JobMap}

structure Kept (s : Sys σ) (m : JobMap) : Prop where
  ids : (s.saved.map Job.id).Nodup
  record : ∀ id k, m id = some k → ∃ j ∈ s.saved, j.id = id ∧ Copy j k
  copy : ∀ k ∈ s.held, ∃ j ∈ s.saved, Copy j k
  fate : ∀ j ∈ s.saved, Fate s.log m j

theorem kept_init (db : σ) (scs : List Scheduler) (clock : Time) :
    Kept (Sys.init db scs clock) Contract.empty where
  ids := List.nodup_nil
  record := fun _ _ h => by cases h
  copy := fun k hk => by
    rw [held_init] at hk
    cases hk
  fate := fun _ h => by cases h

/-- a call that saves nothing, with what it tells -/
theorem Kept.call (K : Kept s m) {o : Op} {r : Res} {es : List Ev} (h : Step C m o r m')
    (hsave : ∀ k, o ≠ .save k) (hcopy : ∀ k ∈ t.held, ∃ j ∈ s.saved, Copy j k)
    (hsaved : t.saved = s.saved) (hlog : t.log = s.log ++ es)
    (hT : ∀ j ∈ s.saved, Tells j o r es) : Kept t m' where
  ids := by
    rw [hsaved]
    exact K.ids
  record := fun id k hk => by
    rw [hsaved]
    rcases step_record h hk with ⟨k₀, hk₀, hcontent⟩ | ⟨j, hj, _⟩
    · obtain ⟨j, hj, hid, hcopy⟩ := K.record id k₀ hk₀
      exact ⟨j, hj, hid, hcontent.trans hcopy⟩
    · exact absurd hj (hsave j)
  copy := by
    rw [hsaved]
    exact hcopy
  fate := fun j hj => by
    rw [hsaved] at hj
    rw [hlog]
    exact fate_step (K.fate j hj) h (hT j hj)

/-- a call that no event is about -/
theorem tells_nothing {j : Job} {o : Op} {r : Res} (hsave : ∀ k, o ≠ .save k) (hack : ∀ i, o ≠ .ack i)
    (hfail : ∀ i msg t, o ≠ .fail i msg t) (hcancel : ∀ i, o = .cancel i → r = .err none → i ≠ j.id) :
    Tells j o r [] where
  save := fun k e => absurd e (hsave k)
  ack := fun e => absurd e (hack _)
  fail := fun msg t e => absurd e (hfail _ msg t)
  cancel := fun e hr => absurd rfl (hcancel _ e hr)

theorem Kept.eq_of_id (K : Kept s m) {j j' : Job} (hj : j ∈ s.saved) (hj' : j' ∈ s.saved)
    (h : j.id = j'.id) : j = j' := List.inj_on_of_nodup_map K.ids hj hj' h

theorem kept_save (K : Kept s m) {j : Job} {r : Res} (attempt : j.attempt = 0)
    (fresh : j.id ∉ s.saved.map Job.id) (h : Step C m (.save j) r m') (held : t.held = s.held)
    (saved : t.saved = s.saved ++ [j]) (log : t.log = s.log) : Kept t m' := by
  have hnone : m j.id = none := by
    cases hk : m j.id with
    | none => rfl
    | some k =>
      obtain ⟨j', hj', hid, _⟩ := K.record _ k hk
      exact absurd (hid ▸ List.mem_map_of_mem hj') fresh
  have hrec : m' j.id = some (kept none j) := by
    cases h with
    | save =>
      rw [hnone]
      exact Function.update_self ..
  have hmem : ∀ {j'}, j' ∈ s.saved → j' ∈ t.saved := fun h => saved ▸ List.mem_append_left _ h
  have hself : j ∈ t.saved := saved ▸ List.mem_append_right _ (List.mem_singleton.mpr rfl)
  refine ⟨?_, fun id k hk => ?_, fun k hk => ?_, fun j' hj' => ?_⟩
  · rw [saved, List.map_append]
    exact List.nodup_append.mpr ⟨K.ids, List.nodup_singleton _, fun a ha b hb e =>
      fresh (List.mem_singleton.mp hb ▸ e ▸ ha)⟩
  · rcases step_record h hk with ⟨k₀, hk₀, hcontent⟩ | ⟨j', hj', hid, hk'⟩
    · obtain ⟨j', hj', hid, hcopy⟩ := K.record id k₀ hk₀
      exact ⟨j', hmem hj', hid, hcontent.trans hcopy⟩
    · obtain rfl := Op.save.inj hj'
      subst hid
      rw [hrec] at hk
      obtain rfl := Option.some.inj hk
      exact ⟨j, hself, rfl, rfl⟩
  · rw [held] at hk
    obtain ⟨j', hj', hcopy⟩ := K.copy k hk
    exact ⟨j', hmem hj', hcopy⟩
  · rw [log]
    rw [saved] at hj'
    rcases List.mem_append.mp hj' with hj' | hj'
    · have hne : j.id ≠ j'.id := fun e => fresh (e ▸ List.mem_map_of_mem hj')
      have hT : Tells j' (.save j) r [] := ⟨fun k e => Op.save.inj e ▸ hne, fun e => (by cases e),
        fun _ _ e => (by cases e), fun e => (by cases e)⟩
      have hstep := fate_step (K.fate j' hj') h hT
      rwa [List.append_nil] at hstep
    · obtain rfl := List.mem_singleton.mp hj'
      refine .stored _ hrec rfl fun _ => ?_
      show j'.attempt.toInt ≤ _
      rw [attempt]
      exact Int.natCast_nonneg _

/-- the report of a worker tells what it did -/
theorem tells_finish (K : Kept s m) {j k : Job} (hk : ∃ j' ∈ s.saved, Copy j' k) (hj : j ∈ s.saved)
    (failure : Option String) (u : Time) (r : Res) :
    Tells j (match failure with
      | none => .ack k.id
      | some err => .fail k.id err u) r [.done k failure] := by
  obtain ⟨j', hj', hcopy⟩ := hk
  cases failure with
  | none =>
    refine ⟨fun _ e => (by cases e), fun e => ?_, fun _ _ e => (by cases e), fun e => by cases e⟩
    have hid : k.id = j.id := Op.ack.inj e
    rw [K.eq_of_id hj hj' (hid.symm.trans hcopy.id)]
    exact ⟨k, List.mem_singleton.mpr rfl, hcopy⟩
  | some err =>
    refine ⟨fun _ e => (by cases e), fun e => (by cases e), fun msg t e => ?_, fun e => by cases e⟩
    obtain ⟨hid, _⟩ := Op.fail.inj e
    simp [Ev.fails, hid]

/-- **One move.** -/
theorem kept_step (K : Kept s m) (h : Does C s a m m' t) : Kept t m' := by
  have hsame : t.held = s.held → ∀ k ∈ t.held, ∃ j ∈ s.saved, Copy j k := fun e k hk => K.copy k (e ▸ hk)
  cases h with
  | tick c label map clock held saved log =>
    subst map
    refine ⟨saved ▸ K.ids, saved ▸ K.record, ?_, ?_⟩
    · rw [held, saved]
      exact K.copy
    · rw [saved, log]
      exact K.fate
  | quiet D map clock held saved log =>
    subst map
    refine ⟨saved ▸ K.ids, saved ▸ K.record, fun k hk => ?_, ?_⟩
    · rw [saved]
      exact K.copy k (held.mem_iff.mpr (List.mem_append_right _ hk))
    · rw [saved, log]
      exact K.fate
  | save j r pending attempt fresh map clock held saved log =>
    exact kept_save K attempt fresh map held saved log
  | cancel id r map clock held saved log =>
    refine K.call map (fun _ e => by cases e) (hsame held) saved log fun j _ => ?_
    refine ⟨fun _ e => (by cases e), fun e => (by cases e), fun _ _ e => (by cases e), fun e hr => ?_⟩
    rw [if_pos hr, Op.cancel.inj e]
    exact List.mem_singleton.mpr rfl
  | reschedule id u r map clock held saved log =>
    refine K.call map (fun _ e => by cases e) (hsame held) saved (log.trans (List.append_nil _).symm)
      fun j _ => tells_nothing (fun _ e => by cases e) (fun _ e => by cases e) (fun _ _ _ e => by cases e)
        fun _ e => by cases e
  | claim i L J label lane map clock held saved log =>
    have hJ := (claim_spec map).2
    refine K.call map (fun _ e => by cases e) (fun k hk => ?_) saved
      (log.trans (List.append_nil _).symm) fun j _ => tells_nothing (fun _ e => by cases e)
        (fun _ e => by cases e) (fun _ _ _ e => by cases e) fun _ e => by cases e
    rcases List.mem_append.mp (held.mem_iff.mp hk) with hk | hk
    · rcases step_record map (hJ k hk).1 with ⟨k₀, hk₀, hcontent⟩ | ⟨j, hj, _⟩
      · obtain ⟨j, hj, _, hcopy⟩ := K.record _ k₀ hk₀
        exact ⟨j, hj, hcontent.trans hcopy⟩
      · cases hj
    · exact K.copy k hk
  | finish j failure u r map clock held saved log =>
    have hj := K.copy j (held.mem_iff.mpr List.mem_cons_self)
    refine K.call map (fun k e => ?_) (fun k hk => K.copy k (held.mem_iff.mpr (List.mem_cons_of_mem _ hk)))
      saved log fun j' hj' => tells_finish K hj hj' failure u r
    cases failure <;> cases e
  | janitor r map clock held saved log =>
    refine K.call map (fun _ e => by cases e) (hsame held) saved (log.trans (List.append_nil _).symm)
      fun j _ => tells_nothing (fun _ e => by cases e) (fun _ e => by cases e) (fun _ _ _ e => by cases e)
        fun _ e => by cases e

end
end GS.Cluster
