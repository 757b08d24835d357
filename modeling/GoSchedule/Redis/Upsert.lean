import GoSchedule.Lib.History
import GoSchedule.Redis.Rows

/-!
# Save on an ID that is stored already

`Save` writes the hash and adds the ID to a pending set, but takes it out of no set.  Here the saves are
of any job, with any state, queue and priority.

* `FiledAs db j`   the ID of `j` is in the sets where a job saved like `j` belongs, and in no other;
* `Tidy db j`      the stored job, if there is one, has the state of `j` where that decides a set, and
  the same queue and priority if it is pending;
* `Filed db C`     every ID is where its record `C` says;
* `save_filedAs_iff`   in such a store, a save leaves the ID where it belongs if and only if it is tidy;
* `tidy_saves_upsert`   **along every sequence of calls whose saves are tidy** no ID is in two pending
  sets, and an ID that was claimed is claimed again only after a save, a failure or a recovery;
* `resaved_twice`   what a save with a new priority does otherwise.
-/

namespace GS.Redis
open Decimal History MapOn Sim

variable {ρ : Scores}

/-! ## records -/

/-- the fields of a job that decide its set -/
structure Card where
  queue : String
  priority : Priority
  state : State
deriving DecidableEq, Repr

/-- the set of the job; a finished job is in none -/
def Card.home (c : Card) : Option String :=
  if c.state = statePending then some (pendingKey c.queue c.priority)
  else if c.state = stateClaimed then some claimedKey
  else none

def cardOf (j : Job) : Card := ⟨j.queue, j.priority, (normalize j).state⟩

theorem home_pending {c : Card} (h : c.state = statePending) :
    c.home = some (pendingKey c.queue c.priority) := if_pos h

theorem home_claimed {c : Card} (h : c.state = stateClaimed) : c.home = some claimedKey := by
  unfold Card.home
  rw [h]
  rfl

theorem claimed_of_home {c : Card} {k : String} (h : c.home = some k) (hs : c.state ≠ statePending) :
    c.state = stateClaimed := by
  unfold Card.home at h
  rw [if_neg hs] at h
  split at h
  · assumption
  · cases h

theorem home_eq_pendingKey {c : Card} {q : String} {p : Priority} :
    c.home = some (pendingKey q p) ↔ c.state = statePending ∧ c.queue = q ∧ c.priority = p := by
  constructor
  · intro h
    by_cases hs : c.state = statePending
    · rw [home_pending hs] at h
      exact ⟨hs, pendingKey_inj (Option.some.inj h)⟩
    · rw [home_claimed (claimed_of_home h hs)] at h
      exact absurd (Option.some.inj h) (claimedKey_ne q p)
  · intro h
    rw [home_pending h.1, h.2.1, h.2.2]

theorem home_eq_claimedKey {c : Card} : c.home = some claimedKey ↔ c.state = stateClaimed := by
  constructor
  · intro h
    refine claimed_of_home h fun hs => ?_
    rw [home_pending hs] at h
    exact claimedKey_ne _ _ (Option.some.inj h).symm
  · exact home_claimed

structure CardFields (id : JobID) (h : String → Option String) (c : Card) : Prop where
  id : h "id" = some id
  queue : h "queue" = some c.queue
  priority : h "priority" = some (itoa c.priority.toNat)
  state : h "state" = some (itoa c.state.toNat)
  runAt : ∃ s, h "run_at" = some s

abbrev Cards := JobID → Option Card

structure FiledAt (db : Db ρ) (id : JobID) (o : Option Card) : Prop where
  hash : ∀ c, o = some c → ∃ h, db.hash (jobKey id) = some h ∧ CardFields id h c
  missing : o = none → db.hash (jobKey id) = none
  sets : ∀ k, (db.zset k).score id ≠ none ↔ o.bind Card.home = some k

def Filed (db : Db ρ) (C : Cards) : Prop := ∀ id, FiledAt db id (C id)

theorem empty_filed : Filed (Db.empty ρ) fun _ => none :=
  fun _ => ⟨fun _ h => (nomatch h), fun _ => rfl, fun _ => by simp [Db.empty, ZSet.score, ZSet.empty]⟩

section
variable {db db' : Db ρ} {C : Cards} {id : JobID}

theorem Filed.write {o : Option Card} (F : Filed db C) (tc : Touches id db db')
    (h : FiledAt db' id o) : Filed db' (Function.update C id o) := by
  intro i
  by_cases e : i = id
  · subst e
    rw [Function.update_self]
    exact h
  · rw [Function.update_of_ne e]
    have hi := F i
    constructor
    · rw [tc.hash i e]
      exact hi.hash
    · rw [tc.hash i e]
      exact hi.missing
    · intro k
      rw [tc.score k i e]
      exact hi.sets k

/-- an ID that is in no set is in one set after it is added to it -/
theorem sets_zadd {d : Db ρ} (h : ∀ k, (d.zset k).score id = none) (key s : String) (k : String) :
    ((d.zadd key s id).zset k).score id ≠ none ↔ some key = some k := by
  rw [score_zadd, h k]
  by_cases e : k = key
  · simp [e]
  · simp [e, Ne.symm e]

end

section
variable {db : Db ρ} {C : Cards} {id : JobID} {c : Card} (F : Filed db C) (hC : C id = some c)
include F hC

theorem Filed.fields : ∃ h, db.hash (jobKey id) = some h ∧ CardFields id h c ∧
    ∀ f, db.hget (jobKey id) f = h f := by
  obtain ⟨h, hh, hf⟩ := (F id).hash c hC
  exact ⟨h, hh, hf, fun f => by rw [Db.hget, hh]; rfl⟩

theorem Filed.sets (k : String) : (db.zset k).score id ≠ none ↔ c.home = some k := by
  have h := (F id).sets k
  rw [hC] at h
  exact h

theorem Filed.state_iff (st : State) :
    db.hget (jobKey id) "state" = some (itoa st.toNat) ↔ c.state = st := by
  obtain ⟨h, _, hf, hget⟩ := F.fields hC
  rw [hget, hf.state]
  constructor
  · intro e
    exact itoa_byte_inj (Option.some.inj e)
  · intro e
    rw [e]

/-- after the ID is taken out of its set it is in none -/
theorem Filed.zrem_home {z : String} (hz : c.home = some z) (k : String) :
    ((db.zrem z id).zset k).score id = none := by
  rw [score_zrem]
  by_cases e : k = z
  · rw [if_pos ⟨e, rfl⟩]
  · rw [if_neg fun h => e h.1]
    by_contra hne
    have h := (F.sets hC k).mp hne
    rw [hz] at h
    exact e (Option.some.inj h).symm

theorem Filed.lookup_eq : lookup id db = some (pendingKey c.queue c.priority) := by
  obtain ⟨h, _, hf, hget⟩ := F.fields hC
  rw [lookup, hget, hget, hf.queue, hf.priority]
  show some (pendingKey c.queue (UInt8.ofInt (atoi (itoa c.priority.toNat)).toInt)) = _
  rw [atoi_byte]

end

theorem Filed.hget_none {db : Db ρ} {C : Cards} {id : JobID} (F : Filed db C) (hC : C id = none)
    (f : String) : db.hget (jobKey id) f = none := by
  rw [Db.hget, (F id).missing hC]
  rfl

theorem Filed.lookup_none {db : Db ρ} {C : Cards} {id : JobID} (F : Filed db C) (hC : C id = none) :
    lookup id db = none := by
  rw [lookup, F.hget_none hC "queue"]
  rfl

/-- `Cancel` and `Reschedule` refuse a job that is not pending -/
theorem Filed.not_pending {db : Db ρ} {C : Cards} {id : JobID} {c : Card} (F : Filed db C)
    (hC : C id = some c) (hs : c.state ≠ statePending) : ¬ db.hash (jobKey id) = none ∧
      db.hget (jobKey id) "state" ≠ some statePendingArg := by
  obtain ⟨h, hh, _, _⟩ := F.fields hC
  exact ⟨by rw [hh]; simp, mt (F.state_iff hC statePending).mp hs⟩

/-- and `Ack` and `Fail` one that is not claimed -/
theorem Filed.not_claimed {db : Db ρ} {C : Cards} {id : JobID} (F : Filed db C)
    (h : ¬ ∃ c, C id = some c ∧ c.state = stateClaimed) :
    db.hget (jobKey id) "state" ≠ some stateClaimedArg := by
  intro e
  cases hC : C id with
  | none =>
    rw [F.hget_none hC] at e
    cases e
  | some c => exact h ⟨c, hC, (F.state_iff hC stateClaimed).mp e⟩

/-! ## Save -/

def FiledAs (db : Db ρ) (j : Job) : Prop :=
  (∀ q p, (db.zset (pendingKey q p)).score j.id ≠ none ↔
    (normalize j).state = statePending ∧ q = j.queue ∧ p = j.priority) ∧
  ((db.zset claimedKey).score j.id ≠ none ↔ (normalize j).state = stateClaimed)

def Tidy (db : Db ρ) (j : Job) : Prop :=
  (db.hget (jobKey j.id) "state" = some stateClaimedArg ↔ (normalize j).state = stateClaimed) ∧
  (db.hget (jobKey j.id) "state" = some statePendingArg → (normalize j).state = statePending ∧
    db.hget (jobKey j.id) "queue" = some j.queue ∧
    db.hget (jobKey j.id) "priority" = some (itoa j.priority.toNat))

instance (db : Db ρ) (j : Job) : Decidable (Tidy db j) := inferInstanceAs (Decidable (_ ∧ _))

/-- the ID is in the sets where it was, and in a pending set if it is saved as pending -/
theorem sets_save (db : Db ρ) (j : Job) (k : String) :
    ((save j db).zset k).score j.id ≠ none ↔
      ((normalize j).state = statePending ∧ k = pendingKey j.queue j.priority) ∨
        (db.zset k).score j.id ≠ none := by
  unfold save
  by_cases hs : (normalize j).state = statePending
  · dsimp only
    rw [if_pos hs, score_zadd]
    by_cases e : k = pendingKey j.queue j.priority
    · rw [if_pos ⟨e, rfl⟩]
      simp [hs, e]
    · rw [if_neg fun h => e h.1]
      simp only [hs, e, and_false, false_or]
      exact Iff.rfl
  · dsimp only
    rw [if_neg hs]
    simp only [hs, false_and, false_or]
    exact Iff.rfl

/-- the same condition on the record of the stored job -/
theorem Filed.tidy_iff {db : Db ρ} {C : Cards} (F : Filed db C) (j : Job) : Tidy db j ↔
    ((∃ c, C j.id = some c ∧ c.state = stateClaimed) ↔ (normalize j).state = stateClaimed) ∧
    ∀ c, C j.id = some c → c.state = statePending →
      (normalize j).state = statePending ∧ c.queue = j.queue ∧ c.priority = j.priority := by
  unfold Tidy
  cases hC : C j.id with
  | none =>
    rw [F.hget_none hC, F.hget_none hC, F.hget_none hC]
    simp
  | some c =>
    obtain ⟨h, _, hf, hget⟩ := F.fields hC
    rw [show stateClaimedArg = itoa stateClaimed.toNat from rfl,
      show statePendingArg = itoa statePending.toNat from rfl, F.state_iff hC, F.state_iff hC, hget,
      hget, hf.queue, hf.priority]
    have hprio : some (itoa (c.priority.toNat : Int)) = some (itoa j.priority.toNat) ↔
        c.priority = j.priority :=
      ⟨fun e => itoa_byte_inj (Option.some.inj e), fun e => by rw [e]⟩
    rw [hprio]
    simp

/-- **A save files the ID where it belongs exactly if it is tidy.** -/
theorem save_filedAs_iff {db : Db ρ} {C : Cards} (F : Filed db C) (j : Job) :
    FiledAs (save j db) j ↔ Tidy db j := by
  rw [F.tidy_iff]
  unfold FiledAs
  simp only [sets_save]
  have hne : ∀ q p, claimedKey ≠ pendingKey q p := claimedKey_ne
  cases hC : C j.id with
  | none =>
    have hsets : ∀ k, ¬ (db.zset k).score j.id ≠ none := by
      intro k h
      have h' := ((F j.id).sets k).mp h
      rw [hC] at h'
      cases h'
    simp only [hsets, or_false, hne, and_false]
    constructor
    · intro h
      refine ⟨⟨fun h' => ?_, fun h' => (h.2.mpr h').elim⟩, fun _ h' => (nomatch h')⟩
      obtain ⟨_, h'', _⟩ := h'
      cases h''
    · intro h
      refine ⟨fun q p => ⟨fun h' => ⟨h'.1, pendingKey_inj h'.2⟩, fun h' => ⟨h'.1, ?_⟩⟩, ?_⟩
      · rw [h'.2.1, h'.2.2]
      · exact ⟨False.elim, fun h' => by obtain ⟨_, h'', _⟩ := h.1.mpr h'; cases h''⟩
  | some c =>
    simp only [F.sets hC, home_eq_pendingKey, home_eq_claimedKey, hne, and_false, false_or,
      Option.some.injEq, exists_eq_left', forall_eq']
    constructor
    · intro h
      refine ⟨h.2, fun hs => ?_⟩
      obtain ⟨h1, h2, h3⟩ := (h.1 c.queue c.priority).mp (Or.inr ⟨hs, rfl, rfl⟩)
      exact ⟨h1, h2, h3⟩
    · intro h
      refine ⟨fun q p => ⟨fun h' => ?_, fun h' => ?_⟩, h.1⟩
      · rcases h' with h' | ⟨hs, rfl, rfl⟩
        · exact ⟨h'.1, pendingKey_inj h'.2⟩
        · exact h.2 hs
      · refine Or.inl ⟨h'.1, ?_⟩
        rw [h'.2.1, h'.2.2]

/-- a tidy save files the ID with its new record -/
theorem save_filed {db : Db ρ} {C : Cards} (F : Filed db C) {j : Job} (ht : Tidy db j) :
    Filed (save j db) (Function.update C j.id (some (cardOf j))) := by
  refine F.write (save_touches db j) ⟨?_, fun h => (nomatch h), fun k => ?_⟩
  · intro c hc
    obtain rfl := Option.some.inj hc
    refine ⟨_, hash_save db j, ?_⟩
    exact ⟨rfl, rfl, rfl, rfl, ⟨_, rfl⟩⟩
  · rw [F.tidy_iff] at ht
    rw [sets_save]
    show _ ↔ (cardOf j).home = some k
    constructor
    · intro h
      rcases h with ⟨hs, rfl⟩ | h
      · exact home_pending hs
      · have hk := ((F j.id).sets k).mp h
        obtain ⟨c, hC, hhome⟩ := Option.bind_eq_some_iff.mp hk
        by_cases hs : c.state = statePending
        · obtain ⟨h1, h2, h3⟩ := ht.2 c hC hs
          rw [home_pending hs, h2, h3] at hhome
          rw [← hhome]
          exact home_pending h1
        · have hcl := claimed_of_home hhome hs
          rw [home_claimed hcl] at hhome
          rw [← hhome]
          exact home_claimed (ht.1.mp ⟨c, hC, hcl⟩)
    · intro h
      by_cases hs : (normalize j).state = statePending
      · rw [home_pending (show (cardOf j).state = statePending from hs)] at h
        exact Or.inl ⟨hs, (Option.some.inj h).symm⟩
      · have hcl : (normalize j).state = stateClaimed := claimed_of_home h hs
        rw [home_claimed (show (cardOf j).state = stateClaimed from hcl)] at h
        obtain ⟨c, hC, hc⟩ := ht.1.mpr hcl
        refine Or.inr ((F.sets hC k).mpr ?_)
        rw [home_claimed hc]
        exact h

/-! ## the scripts on one job -/

/-- the record with another state -/
def Card.into (st : State) (c : Card) : Card := { c with state := st }

section
variable {db : Db ρ} {C : Cards} {id : JobID} {c : Card} (F : Filed db C) (hC : C id = some c)
include F hC

theorem claimOne_filed (hs : c.state = statePending) (now w lu : String) :
    Filed (claimOne (pendingKey c.queue c.priority) claimedKey now w lu (keyPrefix ++ "job:")
      stateClaimedArg db id) (Function.update C id (some (c.into stateClaimed))) := by
  obtain ⟨h, hh, hf, _⟩ := F.fields hC
  refine F.write (claimOne_touches id db _ _ _ _) ⟨?_, fun e => (nomatch e), fun k => ?_⟩
  · intro c' hc
    obtain rfl := Option.some.inj hc
    refine ⟨_, hash_hset_self .., ?_⟩
    rw [show ((db.zrem (pendingKey c.queue c.priority) id).zadd claimedKey lu id).hash
      (keyPrefix ++ "job:" ++ id) = some h from hh]
    exact ⟨hf.id, hf.queue, hf.priority, rfl, hf.runAt⟩
  · show (((db.zrem (pendingKey c.queue c.priority) id).zadd claimedKey lu id).zset k).score id ≠
      none ↔ (c.into stateClaimed).home = some k
    rw [home_claimed (show (c.into stateClaimed).state = stateClaimed from rfl)]
    exact sets_zadd (F.zrem_home hC (home_pending hs)) _ _ k

theorem ack_filed (hs : c.state = stateClaimed) :
    Filed (ack id db).1 (Function.update C id none) := by
  have hst : ¬ db.hget (jobKey id) "state" ≠ some stateClaimedArg :=
    not_not.mpr ((F.state_iff hC stateClaimed).mpr hs)
  have e : ack id db = ((db.zrem claimedKey id).del (jobKey id), "ok") := if_neg hst
  refine F.write (ack_edit id db).touches ⟨fun _ h => (nomatch h), fun _ => ?_, fun k => ?_⟩
  · rw [e]
    exact hash_del_self ..
  · rw [e]
    show ((db.zrem claimedKey id).zset k).score id ≠ none ↔ none = some k
    rw [F.zrem_home hC (home_claimed hs)]
    simp

theorem cancel_filed (hs : c.state = statePending) :
    Filed (cancel (pendingKey c.queue c.priority) id db).1 (Function.update C id none) := by
  obtain ⟨h, hh, _, _⟩ := F.fields hC
  have hst : ¬ db.hget (jobKey id) "state" ≠ some statePendingArg :=
    not_not.mpr ((F.state_iff hC statePending).mpr hs)
  have e : cancel (pendingKey c.queue c.priority) id db =
      ((db.zrem (pendingKey c.queue c.priority) id).del (jobKey id), "ok") := by
    unfold cancel cancelScript
    rw [if_neg (by rw [hh]; simp), if_neg hst]
  refine F.write (cancel_edit id db _).touches ⟨fun _ h => (nomatch h), fun _ => ?_, fun k => ?_⟩
  · rw [e]
    exact hash_del_self ..
  · rw [e]
    show ((db.zrem (pendingKey c.queue c.priority) id).zset k).score id ≠ none ↔ none = some k
    rw [F.zrem_home hC (home_pending hs)]
    simp

theorem reschedule_filed (hs : c.state = statePending) (t now : Time) :
    Filed (reschedule (pendingKey c.queue c.priority) id t now db).1
      (Function.update C id (some c)) := by
  obtain ⟨h, hh, hf, _⟩ := F.fields hC
  have hst : ¬ db.hget (jobKey id) "state" ≠ some statePendingArg :=
    not_not.mpr ((F.state_iff hC statePending).mpr hs)
  have e : reschedule (pendingKey c.queue c.priority) id t now db =
      ((db.hset (jobKey id) [("run_at", formatTime t), ("updated_at", formatTime now)]).zadd
        (pendingKey c.queue c.priority) (formatTime t) id, "ok") := by
    unfold reschedule rescheduleScript
    rw [if_neg (by rw [hh]; simp), if_neg hst]
  refine F.write (reschedule_edit id db _ _ _).touches ⟨?_, fun h => (nomatch h), fun k => ?_⟩
  · intro c' hc
    obtain rfl := Option.some.inj hc
    rw [e]
    refine ⟨_, hash_hset_self .., ?_⟩
    rw [hh]
    exact ⟨hf.id, hf.queue, hf.priority, hf.state, ⟨_, rfl⟩⟩
  · rw [e, score_zadd]
    show (if _ then _ else (db.zset k).score id) ≠ none ↔ c.home = some k
    by_cases hk : k = pendingKey c.queue c.priority
    · rw [if_pos ⟨hk, rfl⟩, hk]
      exact ⟨fun _ => home_pending hs, fun _ => by simp⟩
    · rw [if_neg fun h => hk h.1]
      exact F.sets hC k

theorem fail_filed (hs : c.state = stateClaimed) (lua : Lua) (msg : String) (t now : Time) :
    (fail lua (pendingKey c.queue c.priority) id msg t now db).2 = "ok" ∧
      ∃ o, Filed (fail lua (pendingKey c.queue c.priority) id msg t now db).1
        (Function.update C id o) := by
  obtain ⟨h, hh, hf, _⟩ := F.fields hC
  have hst : ¬ db.hget (jobKey id) "state" ≠ some stateClaimedArg :=
    not_not.mpr ((F.state_iff hC stateClaimed).mpr hs)
  have htouch := (fail_edit id db lua (pendingKey c.queue c.priority) msg t now).touches
  unfold fail failScript at htouch ⊢
  rw [if_neg hst] at htouch ⊢
  dsimp only at htouch ⊢
  split at htouch
  · rename_i hx
    rw [if_pos hx]
    refine ⟨rfl, none, F.write htouch ⟨fun _ h => (nomatch h), fun _ => hash_del_self .., fun k => ?_⟩⟩
    show ((db.zrem claimedKey id).zset k).score id ≠ none ↔ none = some k
    rw [F.zrem_home hC (home_claimed hs)]
    simp
  · rename_i hx
    rw [if_neg hx]
    refine ⟨rfl, some (c.into statePending),
      F.write htouch ⟨?_, fun h => (nomatch h), fun k => ?_⟩⟩
    · intro c' hc
      obtain rfl := Option.some.inj hc
      refine ⟨_, hash_hset_self .., ?_⟩
      rw [show (db.zrem claimedKey id).hash (jobKey id) = some h from hh]
      exact ⟨hf.id, hf.queue, hf.priority, rfl, ⟨_, rfl⟩⟩
    · rw [show (some (c.into statePending)).bind Card.home =
        some (pendingKey c.queue c.priority) from home_pending rfl]
      exact sets_zadd (F.zrem_home hC (home_claimed hs)) _ _ k

theorem recoverOne_filed (hs : c.state = stateClaimed) (lua : Lua) (now : Int) :
    (recoverOne lua claimedKey (keyPrefix ++ "job:") (keyPrefix ++ "pending:") statePendingArg now db
      id).2 = true ∧
    Filed (recoverOne lua claimedKey (keyPrefix ++ "job:") (keyPrefix ++ "pending:") statePendingArg
      now db id).1 (Function.update C id (some (c.into statePending))) := by
  obtain ⟨h, hh, hf, hget⟩ := F.fields hC
  obtain ⟨s, hrun⟩ := hf.runAt
  have e : recoverOne lua claimedKey (keyPrefix ++ "job:") (keyPrefix ++ "pending:")
      statePendingArg now db id =
      (((db.zrem claimedKey id).hset (jobKey id) [("state", statePendingArg), ("locked_by", ""),
        ("locked_until", "0"), ("updated_at", lua.tostring now)]).zadd
        (pendingKey c.queue c.priority) s id, true) := by
    unfold recoverOne
    rw [show keyPrefix ++ "job:" ++ id = jobKey id from rfl]
    simp only [hget, hf.queue, hf.priority, hrun]
    rfl
  refine ⟨by rw [e], F.write (recoverOne_touches id db lua now) ⟨?_, fun h => (nomatch h), fun k => ?_⟩⟩
  · intro c' hc
    obtain rfl := Option.some.inj hc
    rw [e]
    refine ⟨_, hash_hset_self .., ?_⟩
    rw [show (db.zrem claimedKey id).hash (jobKey id) = some h from hh]
    exact ⟨hf.id, hf.queue, hf.priority, rfl, ⟨s, hrun⟩⟩
  · rw [e, show (some (c.into statePending)).bind Card.home =
      some (pendingKey c.queue c.priority) from home_pending rfl]
    exact sets_zadd (F.zrem_home hC (home_claimed hs)) _ _ k

end

/-! ## the scripts with a loop -/

section
variable {db : Db ρ} {C : Cards} (F : Filed db C)
include F

/-- a member of a pending set is a pending job of that queue and priority -/
theorem Filed.of_pending {q : String} {p : Priority} {id : JobID} {s : Int}
    (h : (db.zset (pendingKey q p)).score id = some s) :
    ∃ c, C id = some c ∧ c.state = statePending ∧ c.queue = q ∧ c.priority = p := by
  have hk := ((F id).sets (pendingKey q p)).mp (by rw [h]; simp)
  obtain ⟨c, hC, hhome⟩ := Option.bind_eq_some_iff.mp hk
  exact ⟨c, hC, home_eq_pendingKey.mp hhome⟩

theorem Filed.one_bucket {q q' : String} {p p' : Priority} {id : JobID} {s s' : Int}
    (h : (db.zset (pendingKey q p)).score id = some s)
    (h' : (db.zset (pendingKey q' p')).score id = some s') : q = q' ∧ p = p' := by
  obtain ⟨c, hC, _, hq, hp⟩ := F.of_pending h
  obtain ⟨c', hC', _, hq', hp'⟩ := F.of_pending h'
  obtain rfl := Option.some.inj (hC.symm.trans hC')
  exact ⟨hq.symm.trans hq', hp.symm.trans hp'⟩

theorem claim_filed (q : String) (now : Time) (n : Int) (w : String) (lu : Time) :
    (claim q now n w lu db).2.Nodup ∧
      (∀ id ∈ (claim q now n w lu db).2, ∃ c, C id = some c ∧ c.state = statePending) ∧
      Filed (claim q now n w lu db).1 (mapOn C (Card.into stateClaimed) (claim q now n w lu db).2) := by
  have hone : ∀ p p' id s s', (db.zset (pendingKey q p)).score id = some s →
      (db.zset (pendingKey q p')).score id = some s' → p = p' :=
    fun p p' id s s' h h' => (F.one_bucket h h').2
  refine ⟨nodup_claim hone now n w lu, fun id hid => ?_, ?_⟩
  · obtain ⟨p, s, hs⟩ := score_of_claim hid
    obtain ⟨c, hC, hst, _⟩ := F.of_pending hs
    exact ⟨c, hC, hst⟩
  · refine claim_maps (K := fun z c => c.state = statePending ∧ z = pendingKey c.queue c.priority)
      (fun db C z id c F hC hok => ?_) F (fun p id s hs => ?_) hone n
    · rw [hok.2]
      exact claimOne_filed F hC hok.1 _ w _
    · obtain ⟨c, hC, hst, rfl, rfl⟩ := F.of_pending hs
      exact ⟨c, hC, hst, rfl⟩

theorem recoverStale_filed (lua : Lua) (clock : Int) :
    Filed (recoverStale lua clock db).1 (mapOn C (Card.into statePending)
      ((db.zset claimedKey).rangeByScore (some 1) clock)) := by
  refine (recoverStale_maps (K := fun c => c.state = stateClaimed)
    (fun db C id c F hC hst => recoverOne_filed F hC hst lua clock) F fun id s hs => ?_).2
  have hk := ((F id).sets claimedKey).mp (by rw [hs]; simp)
  obtain ⟨c, hC, hhome⟩ := Option.bind_eq_some_iff.mp hk
  exact ⟨c, hC, home_eq_claimedKey.mp hhome⟩

end

/-! ## calls and their results -/

def Pending (C : Cards) (id : JobID) : Prop := ∃ c, C id = some c ∧ c.state = statePending

/-- the call returned the job from a claim -/
def claims (id : JobID) : Op × Res → Bool
  | (.claimDue .., .jobs l) => id ∈ l.map Job.id
  | _ => false

/-- the call was a save or a successful failure of the job, or a recovery -/
def releases (id : JobID) : Op × Res → Bool
  | (.save j, _) => j.id = id
  | (.fail i _ _ _, .err none) => i = id
  | (.recoverStale _, _) => true
  | _ => false

/-- what a call can do to the records, as far as claims are concerned -/
structure Moves (C : Cards) (e : Op × Res) (C' : Cards) : Prop where
  claimed : ∀ id, claims id e = true → Pending C id ∧ ¬ Pending C' id
  kept : ∀ id, releases id e = false → ¬ Pending C id → ¬ Pending C' id
  once : ∀ l, e.2 = .jobs l → (l.map Job.id).Nodup

section
variable {C : Cards}

/-- a call that is no claim and changes at most the record of `i` -/
theorem Moves.of_update {o : Op} {e : Option StoreErr} {i : JobID} {x : Option Card}
    (hc : ∀ id, claims id (o, .err e) = false)
    (h : releases i (o, .err e) = false → ∀ c, x = some c → c.state = statePending → Pending C i) :
    Moves C (o, .err e) (Function.update C i x) := by
  refine ⟨fun id h' => ?_, fun id hr hp hp' => ?_, fun _ h' => (nomatch h')⟩
  · rw [hc id] at h'
    cases h'
  · obtain ⟨c, hC, hst⟩ := hp'
    by_cases hi : id = i
    · subst hi
      rw [Function.update_self] at hC
      exact hp (h hr c hC hst)
    · rw [Function.update_of_ne hi] at hC
      exact hp ⟨c, hC, hst⟩

theorem Moves.of_same {o : Op} {r : Res} (hc : ∀ id, claims id (o, r) = false)
    (hr : ∀ l, r ≠ .jobs l) : Moves C (o, r) C := by
  refine ⟨fun id h' => ?_, fun _ _ h => h, fun l h => absurd h (hr l)⟩
  rw [hc id] at h'
  cases h'

end

section
variable {db : Db ρ} {C : Cards} (F : Filed db C) (lua : Lua)
include F

theorem ack_moves (id : JobID) : ∃ C', Filed (call lua db (.ack id)).1 C' ∧
    Moves C (.ack id, (call lua db (.ack id)).2) C' := by
  by_cases h : ∃ c, C id = some c ∧ c.state = stateClaimed
  · obtain ⟨c, hC, hs⟩ := h
    exact ⟨_, ack_filed F hC hs, .of_update (fun _ => rfl) fun _ _ h => (nomatch h)⟩
  · have e : ack id db = (db, "missing") := if_pos (F.not_claimed h)
    refine ⟨C, ?_, .of_same (fun _ => rfl) fun _ h => (nomatch h)⟩
    dsimp only [call]
    rw [e]
    exact F

/-- a call that looks up the bucket and runs a script: the job is stored in the state that the script
asks for, or the call errs and changes nothing -/
theorem withBucket_cases {id : JobID} {st : State} {script : String → Db ρ × String}
    {err : String → Option StoreErr}
    (hrefused : ∀ c, C id = some c → c.state ≠ st →
      ∃ reply e, script (pendingKey c.queue c.priority) = (db, reply) ∧ err reply = some e) :
    (∃ c, C id = some c ∧ c.state = st ∧ withBucket id db script err =
      ((script (pendingKey c.queue c.priority)).1,
        .err (err (script (pendingKey c.queue c.priority)).2))) ∨
      ∃ e, withBucket id db script err = (db, .err (some e)) := by
  unfold withBucket
  cases hC : C id with
  | none =>
    rw [F.lookup_none hC]
    exact Or.inr ⟨_, rfl⟩
  | some c =>
    rw [F.lookup_eq hC]
    by_cases hs : c.state = st
    · exact Or.inl ⟨c, rfl, hs, rfl⟩
    · obtain ⟨reply, e, hscript, herr⟩ := hrefused c hC hs
      refine Or.inr ⟨e, ?_⟩
      dsimp only
      rw [hscript, herr]

theorem fail_cases (lua : Lua) (id : JobID) (msg : String) (at' now : Time) :
    (∃ c, C id = some c ∧ c.state = stateClaimed ∧ call lua db (.fail id msg at' now) =
      ((fail lua (pendingKey c.queue c.priority) id msg at' now db).1,
        .err (ackErr (fail lua (pendingKey c.queue c.priority) id msg at' now db).2))) ∨
      ∃ e, call lua db (.fail id msg at' now) = (db, .err (some e)) := by
  refine withBucket_cases F fun c hC hs => ⟨"missing", .jobNotFound, ?_, rfl⟩
  exact if_pos (mt (F.state_iff hC stateClaimed).mp hs)

theorem cancel_cases (lua : Lua) (id : JobID) :
    (∃ c, C id = some c ∧ c.state = statePending ∧ call lua db (.cancel id) =
      ((cancel (pendingKey c.queue c.priority) id db).1,
        .err (cancelErr (cancel (pendingKey c.queue c.priority) id db).2))) ∨
      ∃ e, call lua db (.cancel id) = (db, .err (some e)) := by
  refine withBucket_cases F fun c hC hs => ⟨"not_pending", .jobNotPending, ?_, rfl⟩
  obtain ⟨h1, h2⟩ := F.not_pending hC hs
  exact (if_neg h1).trans (if_pos h2)

theorem reschedule_cases (lua : Lua) (id : JobID) (at' now : Time) :
    (∃ c, C id = some c ∧ c.state = statePending ∧ call lua db (.reschedule id at' now) =
      ((reschedule (pendingKey c.queue c.priority) id at' now db).1,
        .err (cancelErr (reschedule (pendingKey c.queue c.priority) id at' now db).2))) ∨
      ∃ e, call lua db (.reschedule id at' now) = (db, .err (some e)) := by
  refine withBucket_cases F fun c hC hs => ⟨"not_pending", .jobNotPending, ?_, rfl⟩
  obtain ⟨h1, h2⟩ := F.not_pending hC hs
  exact (if_neg h1).trans (if_pos h2)

theorem fail_moves (id : JobID) (msg : String) (at' now : Time) :
    ∃ C', Filed (call lua db (.fail id msg at' now)).1 C' ∧
      Moves C (.fail id msg at' now, (call lua db (.fail id msg at' now)).2) C' := by
  rcases fail_cases F lua id msg at' now with ⟨c, hC, hs, e⟩ | ⟨err, e⟩
  · obtain ⟨hok, o, hF⟩ := fail_filed F hC hs lua msg at' now
    rw [e, hok]
    refine ⟨_, hF, .of_update (fun _ => rfl) fun hr => ?_⟩
    exact absurd hr (by simp [releases, ackErr])
  · rw [e]
    exact ⟨C, F, .of_same (fun _ => rfl) fun _ h => (nomatch h)⟩

theorem cancel_moves (id : JobID) : ∃ C', Filed (call lua db (.cancel id)).1 C' ∧
    Moves C (.cancel id, (call lua db (.cancel id)).2) C' := by
  rcases cancel_cases F lua id with ⟨c, hC, hs, e⟩ | ⟨err, e⟩
  · rw [e]
    exact ⟨_, cancel_filed F hC hs, .of_update (fun _ => rfl) fun _ _ h => (nomatch h)⟩
  · rw [e]
    exact ⟨C, F, .of_same (fun _ => rfl) fun _ h => (nomatch h)⟩

theorem reschedule_moves (id : JobID) (at' now : Time) :
    ∃ C', Filed (call lua db (.reschedule id at' now)).1 C' ∧
      Moves C (.reschedule id at' now, (call lua db (.reschedule id at' now)).2) C' := by
  rcases reschedule_cases F lua id at' now with ⟨c, hC, hs, e⟩ | ⟨err, e⟩
  · rw [e]
    exact ⟨_, reschedule_filed F hC hs at' now,
      .of_update (fun _ => rfl) fun _ _ _ _ => ⟨c, hC, hs⟩⟩
  · rw [e]
    exact ⟨C, F, .of_same (fun _ => rfl) fun _ h => (nomatch h)⟩

/-- the client reads each claimed job under its own ID -/
theorem map_id_claim (q : String) (now : Time) (n : Int) (w : String) (lu : Time) :
    ((claim q now n w lu db).2.map (claim q now n w lu db).1.job).map Job.id =
      (claim q now n w lu db).2 := by
  obtain ⟨_, hpend, hF⟩ := claim_filed F q now n w lu
  rw [List.map_map]
  refine (List.map_congr_left fun id hid => ?_).trans (List.map_id _)
  obtain ⟨c, hC, _⟩ := hpend id hid
  have hC' : mapOn C (Card.into stateClaimed) (claim q now n w lu db).2 id =
      some (c.into stateClaimed) := by
    rw [mapOn, if_pos hid, hC]
    rfl
  obtain ⟨h, hh, hf, _⟩ := hF.fields hC'
  show ((claim q now n w lu db).1.job id).id = id
  rw [Db.job, hh, Option.getD_some]
  show (h "id").getD "" = id
  rw [hf.id]
  rfl

theorem claimDue_moves (q : String) (now : Time) (n : Int) (w : String) (lu : Time) :
    ∃ C', Filed (call lua db (.claimDue q now n w lu)).1 C' ∧
      Moves C (.claimDue q now n w lu, (call lua db (.claimDue q now n w lu)).2) C' := by
  dsimp only [call]
  obtain ⟨hnd, hpend, hF⟩ := claim_filed F q now n w lu
  set ids := (claim q now n w lu db).2
  set db' := (claim q now n w lu db).1
  have hids : (ids.map db'.job).map Job.id = ids := map_id_claim F q now n w lu
  have hnot : ∀ id, ¬ Pending C id ∨ id ∈ ids → ¬ Pending (mapOn C (Card.into stateClaimed) ids) id := by
    intro id h hp
    obtain ⟨c, hC, hst⟩ := hp
    unfold mapOn at hC
    split at hC
    · obtain ⟨x, _, rfl⟩ := Option.map_eq_some_iff.mp hC
      exact absurd hst (by simp [Card.into, stateClaimed, statePending])
    · rename_i hid
      exact (h.resolve_right hid) ⟨c, hC, hst⟩
  refine ⟨_, hF, fun id hc => ?_, fun id _ hp => hnot id (Or.inl hp), fun l hl => ?_⟩
  · have hid : id ∈ ids := by
      have h := of_decide_eq_true hc
      rwa [hids] at h
    exact ⟨hpend id hid, hnot id (Or.inr hid)⟩
  · obtain rfl := Res.jobs.inj hl
    rw [hids]
    exact hnd

/-- **What a call does to the records.** -/
theorem call_moves (o : Op) (ht : ∀ j, o = .save j → Tidy db j) :
    ∃ C', Filed (call lua db o).1 C' ∧ Moves C (o, (call lua db o).2) C' := by
  cases o with
  | save j =>
    refine ⟨_, save_filed F (ht j rfl), .of_update (fun _ => rfl) fun hr => ?_⟩
    exact absurd hr (by simp [releases])
  | claimDue q now n w lu => exact claimDue_moves F lua q now n w lu
  | ack id => exact ack_moves F lua id
  | fail id msg at' now => exact fail_moves F lua id msg at' now
  | cancel id => exact cancel_moves F lua id
  | reschedule id at' now => exact reschedule_moves F lua id at' now
  | recoverStale clock =>
    refine ⟨_, recoverStale_filed F lua clock, fun _ h => (nomatch h), fun _ h => (nomatch h),
      fun _ h => (nomatch h)⟩
  | queueSize q => exact ⟨C, F, .of_same (fun _ => rfl) fun _ h => (nomatch h)⟩

end

/-! ## whole sequences -/

/-- a save has to be tidy -/
def TidySave (db : Db ρ) : Op → Prop
  | .save j => Tidy db j
  | _ => True

instance (db : Db ρ) : DecidablePred (TidySave db)
  | .save j => inferInstanceAs (Decidable (Tidy db j))
  | .claimDue .. | .ack _ | .fail .. | .cancel _ | .reschedule .. | .recoverStale _ | .queueSize _ =>
    isTrue trivial

/-- the records of the store, and what the history says of each ID: one that was claimed last is not
pending -/
def Told (h : List (Op × Res)) (db : Db ρ) : Prop :=
  ∃ C, Filed db C ∧
    (∀ id, Guarded (claims id) (releases id) (claims id) h ∧
      (isOpen (claims id) (releases id) h = true → ¬ Pending C id)) ∧
    ∀ o l, (o, Res.jobs l) ∈ h → (l.map Job.id).Nodup

theorem call_told (lua : Lua) (h : List (Op × Res)) (db : Db ρ) (o : Op) (r : Res) (db' : Db ρ)
    (ht : Told h db) (hc : Calls lua TidySave db o r db') : Told (h ++ [(o, r)]) db' := by
  obtain ⟨C, F, hhist, honce⟩ := ht
  obtain ⟨htidy, hcall⟩ := hc
  obtain rfl : (call lua db o).1 = db' := congrArg Prod.fst hcall
  obtain rfl : (call lua db o).2 = r := congrArg Prod.snd hcall
  obtain ⟨C', hF, m⟩ := call_moves F lua o fun j e => by subst e; exact htidy
  refine ⟨C', hF, fun id => ⟨?_, ?_⟩, fun o' l hm => ?_⟩
  · refine (hhist id).1.snoc fun hcl => ?_
    by_contra hopen
    exact (hhist id).2 (Bool.not_eq_false _ ▸ hopen) (m.claimed id hcl).1
  · intro hopen
    rw [isOpen_snoc] at hopen
    split at hopen
    · rename_i hcl
      exact (m.claimed id hcl).2
    · split at hopen
      · cases hopen
      · rename_i hrel
        exact m.kept id (Bool.not_eq_true _ ▸ hrel) ((hhist id).2 hopen)
  · rcases List.mem_append.mp hm with hm | hm
    · exact honce o' l hm
    · obtain ⟨rfl, hl⟩ := Prod.mk.inj (List.mem_singleton.mp hm)
      exact m.once l hl.symm

theorem told_of_allowed {lua : Lua} {ops : List Op} (h : Allowed lua TidySave (Db.empty ρ) ops) :
    Told (history lua (Db.empty ρ) ops) (runCalls lua (Db.empty ρ) ops) := by
  refine Runs.keep (call_told lua) ⟨_, empty_filed, fun id => ⟨guarded_nil, fun h => ?_⟩, ?_⟩ h.runs
  · cases h
  · intro _ _ hm
    cases hm

/-- **Save is an upsert as long as it is tidy.**  After any sequence of calls whose saves were tidy: the
next save files its ID where it belongs if and only if it is tidy; no ID is in two pending sets, so
`QueueSize` counts it once; one claim returns an ID once; and between two claims that return an ID it
was saved or failed, or there was a recovery. -/
theorem tidy_saves_upsert (ρ : Scores) (lua : Lua) (ops : List Op)
    (h : Allowed lua TidySave (Db.empty ρ) ops) :
    (∀ j, FiledAs (save j (runCalls lua (Db.empty ρ) ops)) j ↔ Tidy (runCalls lua (Db.empty ρ) ops) j) ∧
    (∀ id q p q' p', ((runCalls lua (Db.empty ρ) ops).zset (pendingKey q p)).score id ≠ none →
      ((runCalls lua (Db.empty ρ) ops).zset (pendingKey q' p')).score id ≠ none → q = q' ∧ p = p') ∧
    (∀ o l, (o, Res.jobs l) ∈ history lua (Db.empty ρ) ops → (l.map Job.id).Nodup) ∧
    ∀ id l₁ a l₂ b l₃, history lua (Db.empty ρ) ops = l₁ ++ a :: (l₂ ++ b :: l₃) →
      claims id a = true → claims id b = true → ∃ e ∈ l₂, releases id e = true := by
  obtain ⟨C, F, hhist, honce⟩ := told_of_allowed h
  refine ⟨save_filedAs_iff F, fun id q p q' p' h1 h2 => ?_, honce, fun id l₁ a l₂ b l₃ e ha hb => ?_⟩
  · obtain ⟨s, hs⟩ := Option.ne_none_iff_exists'.mp h1
    obtain ⟨s', hs'⟩ := Option.ne_none_iff_exists'.mp h2
    exact F.one_bucket hs hs'
  · exact (e ▸ (hhist id).1).close_between ha hb

/-- a job saved twice with one priority, claimed, failed and claimed again -/
def tidyCalls : List Op :=
  [.save { id := "j", queue := "q", runAt := 5, maxAttempts := 5 },
    .save { id := "j", queue := "q", name := "new", runAt := 6, maxAttempts := 5 },
    .claimDue "q" 10 1 "A" 2000, .fail "j" "boom" 12 11, .claimDue "q" 20 1 "B" 3000]

theorem tidy_saves_upsert_retry :
    (history lua51 (Db.empty .double) tidyCalls).map (claims "j") = [false, false, true, false, true] ∧
      (∀ o l, (o, Res.jobs l) ∈ history lua51 (Db.empty .double) tidyCalls → (l.map Job.id).Nodup) ∧
      FiledAs (save { id := "j", queue := "p", state := stateClaimed }
        (runCalls lua51 (Db.empty .double) tidyCalls))
      { id := "j", queue := "p", state := stateClaimed } := by
  have h := tidy_saves_upsert .double lua51 tidyCalls (by decide +kernel)
  exact ⟨by decide +kernel, h.2.2.1, (h.1 _).mpr (by decide +kernel)⟩

/-- one job saved again with a higher priority, and two claims -/
def resaved : List Op :=
  [.save { id := "j", queue := "q", runAt := 5, priority := priorityLow },
    .save { id := "j", queue := "q", runAt := 5, priority := priorityHigh },
    .claimDue "q" 10 1 "A" 2000, .claimDue "q" 10 1 "B" 3000]

/-- **A save that changes the priority** leaves the ID in both buckets: `QueueSize` counts it twice,
and two workers are given the job although it was not failed, recovered or saved in between. -/
theorem resaved_twice :
    ¬ FiledAs (runCalls lua51 (Db.empty .double) (resaved.take 2))
        { id := "j", queue := "q", runAt := 5, priority := priorityHigh } ∧
      queueSize "q" (runCalls lua51 (Db.empty .double) (resaved.take 2)) = 2 ∧
      (history lua51 (Db.empty .double) resaved).map (claims "j") = [false, false, true, true] := by
  refine ⟨fun h => ?_, by decide +kernel, by decide +kernel⟩
  have hlow := (h.1 "q" priorityLow).mp (by decide +kernel)
  exact absurd hlow.2.2 (by decide)

end GS.Redis
