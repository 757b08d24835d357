import GoSchedule.Redis.Attempts
import GoSchedule.Redis.Recurring
import GoSchedule.Routes.Backend

/-!
# Queues and names in the Redis store

A step is a whole call.  The scripts write some fields of a hash and no more, and they find a hash under
every ID that they take from a set, so the hash of a job keeps the fields that its save wrote.

* `Kept`       a hash that is there after a call was there before it, with the same ID, queue and name;
* `call_kept`  so it is for every call but a save;
* `backend`    the store.
-/

namespace GS.Redis
open Inherit MapOn Routes

variable {ρ : Scores}

def Op.saves : Op → Option Job
  | .save j => some j
  | _ => none

def RecurringOp.upserts : RecurringOp → Option RecurringSpec
  | .upsert spec => some spec
  | _ => none

def hashTag (h : String → Option String) : JobID × String × String :=
  ((h "id").getD "", (h "queue").getD "", (h "name").getD "")

def jobHashes (db : Db ρ) : Set (String → Option String) := values fun id => db.hash (jobKey id)

/-! ## the calls -/

section
variable (lua : Lua)

/-- a job has a hash exactly if it is filed -/
theorem Filed.hash_iff {db : Db ρ} {C : Cards} (F : Filed db C) (id : JobID) :
    db.hash (jobKey id) ≠ none ↔ C id ≠ none := by
  cases hC : C id with
  | none =>
    rw [(F id).missing hC]
    simp
  | some c =>
    obtain ⟨x, hx, _⟩ := F.fields hC
    rw [hx]
    simp

theorem call_kept {db : Db ρ} {C : Cards} (F : Filed db C) (o : Op) (ho : o.saves = none) :
    Kept db (call lua db o).1 := by
  cases o with
  | save j => cases ho
  | claimDue q now n w lu =>
    exact kept_of_mapOn (fun i => (F.hash_iff i).mpr)
      (fun i => ((claim_filed F q now n w lu).2.2.hash_iff i).mp)
      fun f hf k => hget_claim (not_lock hf) q now n w lu db k
  | ack id => exact (ack_edit id db).kept
  | fail id msg t now => exact withBucket_kept fun b => (fail_edit id db lua b msg t now).kept
  | cancel id => exact withBucket_kept fun b => (cancel_edit id db b).kept
  | reschedule id t now => exact withBucket_kept fun b => (reschedule_edit id db b t now).kept
  | recoverStale clock =>
    exact kept_of_mapOn (fun i => (F.hash_iff i).mpr)
      (fun i => ((recoverStale_filed F lua clock).hash_iff i).mp)
      fun f hf k => hget_recoverStale (not_lock hf) lua clock db k
  | queueSize q => exact kept_refl db

end

/-! ## what the store shows -/

section
variable {db : Db ρ} {N : Set (JobID × String × String)}

theorem kept_inherits {db' : Db ρ} (h : Kept db db') :
    Inherits hashTag N (jobHashes db) (jobHashes db') := by
  refine values_map fun id h' hh' => ?_
  obtain ⟨x, hx, hf⟩ := h id h' hh'
  refine ⟨x, hx, ?_⟩
  unfold hashTag
  rw [hf "id" (by decide), hf "queue" (by decide), hf "name" (by decide)]

theorem save_inherits {j : Job} (hj : tag j ∈ N) :
    Inherits hashTag N (jobHashes db) (jobHashes (save j db)) := by
  refine of_new fun h' hh' => ?_
  obtain ⟨id, hid⟩ := hh'
  by_cases e : id = j.id
  · subst e
    have e := Option.some.inj ((hash_save db j).symm.trans hid)
    rw [← e]
    exact Or.inr hj
  · exact Or.inl ⟨id, ((save_touches db j).hash id e).symm.trans hid⟩

theorem call_inherits {C : Cards} (F : Filed db C) (lua : Lua) (o : Op) :
    Inherits hashTag {c | ∃ j, o.saves = some j ∧ tag j = c} (jobHashes db)
      (jobHashes (call lua db o).1) := by
  cases ho : o.saves with
  | none => exact kept_inherits (call_kept lua F o ho)
  | some j =>
    cases o with
    | save k =>
      obtain rfl := Option.some.inj ho
      exact save_inherits ⟨k, rfl, rfl⟩
    | _ => cases ho

/-- a pending job with a new ID is a tidy save -/
theorem tidy_of_new {C : Cards} (F : Filed db C) {j : Job} (hp : j.state = statePending)
    (hnew : ∀ k ∈ deserializeJob '' jobHashes db, k.id ≠ j.id) : Tidy db j := by
  have hC : C j.id = none := by
    cases hC : C j.id with
    | none => rfl
    | some c =>
      obtain ⟨h, hh, hf, _⟩ := F.fields hC
      refine absurd ?_ (hnew (deserializeJob h) ⟨h, ⟨j.id, hh⟩, rfl⟩)
      show (h "id").getD "" = j.id
      rw [hf.id]
      rfl
  have hs : (normalize j).state ≠ stateClaimed := by
    show (if j.state = 0 then statePending else j.state) ≠ stateClaimed
    rw [hp]
    decide
  refine (F.tidy_iff j).mpr ⟨⟨fun h => ?_, fun h => absurd h hs⟩, fun c hc => ?_⟩
  · obtain ⟨c, hc, _⟩ := h
    rw [hC] at hc
    cases hc
  · rw [hC] at hc
    cases hc

end

/-! ## the schedules -/

def hashSpecTag (h : String → Option String) : String × String :=
  ((h "queue").getD "", (h "name").getD "")

/-- every ID of the set has its hash -/
def Registry.Complete (r : Registry) : Prop :=
  ∀ id ∈ r.all, id ≠ "all" → r.db.hash (recurringKey id) ≠ none

/-- the hashes that `ListRecurring` reads, if it does not fail -/
def specHashes (r : Registry) : Set (String → Option String) :=
  {h | r.Visible ∧ ∃ id ∈ r.all, r.db.hash (recurringKey id) = some h}

theorem setOf_listRecurring (r : Registry) :
    {spec | spec ∈ r.listRecurring} = deserializeRecurring '' specHashes r := by
  ext spec
  constructor
  · intro hm
    by_cases hv : r.Visible
    · rw [Set.mem_ofPred_eq, Registry.listRecurring_of_visible hv, List.mem_filterMap] at hm
      obtain ⟨id, hid, e⟩ := hm
      obtain ⟨h, hh, e⟩ := Option.map_eq_some_iff.mp e
      exact ⟨h, ⟨hv, id, hid, hh⟩, e⟩
    · rw [Set.mem_ofPred_eq, Registry.listRecurring_of_not_visible hv] at hm
      exact absurd hm List.not_mem_nil
  · intro hm
    obtain ⟨h, ⟨hv, id, hid, hh⟩, e⟩ := hm
    rw [Set.mem_ofPred_eq, Registry.listRecurring_of_visible hv, List.mem_filterMap]
    exact ⟨id, hid, by rw [hh, ← e]; rfl⟩

section
variable {r : Registry}

theorem hset_complete (hc : r.Complete) (key : String) (fields : List (String × String)) :
    (r.hset key fields).Complete := by
  unfold Registry.hset
  split
  · exact hc
  · exact fun i hi hne => hash_hset_ne_none _ (hc i hi hne)

theorem sadd_complete (hc : r.Complete) {id : JobID}
    (h : id ≠ "all" → r.db.hash (recurringKey id) ≠ none) : (r.sadd id).Complete := by
  unfold Registry.sadd
  split
  · exact hc
  · intro i hi hne
    rcases List.mem_insert_iff.mp hi with rfl | hi
    · exact h hne
    · exact hc i hi hne

theorem call_complete (ht : r.Typed) (hc : r.Complete) (o : RecurringOp) : (r.call o).Complete := by
  cases o with
  | upsert spec =>
    refine sadd_complete (hset_complete hc _ _) fun hne => ?_
    rw [Registry.hset_of_ne hne]
    show (r.db.hset _ _).hash _ ≠ none
    rw [hash_hset_self]
    simp
  | updateNextRun id next last => exact hset_complete hc _ _
  | delete id =>
    show (r.deleteRecurring id).Complete
    by_cases hnil : id = "all" ∨ r.all = []
    · intro i hi
      rw [Registry.delete_nil hnil] at hi
      exact absurd hi List.not_mem_nil
    · rw [not_or] at hnil
      rw [Registry.delete_eq hnil.1 (ht.resolve_left hnil.2)]
      intro i hi hne
      obtain ⟨hi, hne'⟩ := List.mem_filter.mp hi
      show (r.db.del _).hash _ ≠ none
      rw [hash_del_ne r.db fun e => of_decide_eq_true hne' (recurringKey_inj e)]
      exact hc i hi hne

theorem registry_inherits (ht : r.Typed) (hc : r.Complete) (o : RecurringOp) :
    Inherits hashSpecTag {c | ∃ spec, o.upserts = some spec ∧ specTag spec = c} (specHashes r)
      (specHashes (r.call o)) := by
  cases o with
  | upsert spec =>
    refine of_new fun h hh => ?_
    obtain ⟨hv, id, hid, hh⟩ := hh
    obtain ⟨hvr, hne⟩ := Registry.visible_upsert hv
    have heq := Registry.upsert_eq hne hvr.1
    rw [show r.call (.upsert spec) = r.upsertRecurring spec from rfl, heq] at hid hh
    by_cases e : id = spec.id
    · subst e
      have e := Option.some.inj ((hash_hset_self ..).symm.trans hh)
      rw [← e]
      exact Or.inr ⟨spec, rfl, rfl⟩
    · refine Or.inl ⟨hvr, id, (List.mem_insert_iff.mp hid).resolve_left e, ?_⟩
      exact (hash_hset_ne r.db (fun e' => e (recurringKey_inj e')) _).symm.trans hh
  | updateNextRun i next last =>
    refine of_keeps fun h hh => ?_
    obtain ⟨hv, id, hid, hh⟩ := hh
    by_cases hi : i = "all"
    · -- the set is there, as it has a member, so the HSET is refused
      have hnil : r.all ≠ [] := by
        intro e
        unfold Registry.call Registry.updateRecurringNextRun Registry.hset at hid
        dsimp only at hid
        split at hid
        · exact absurd hid (e ▸ List.not_mem_nil)
        · exact absurd hid (e ▸ List.not_mem_nil)
      have hsame : r.call (.updateNextRun i next last) = r :=
        if_pos ⟨recurringKey_eq_all.mpr hi, hnil⟩
      rw [hsame] at hv hid hh
      exact ⟨h, ⟨hv, id, hid, hh⟩, rfl⟩
    · have heq : r.call (.updateNextRun i next last) = _ := Registry.hset_of_ne hi _
      rw [heq] at hv hid hh
      have hvr : r.Visible := ⟨(Registry.hash_all_hset hi _).symm.trans hv.1, hv.2⟩
      have hne : id ≠ "all" := fun e => hvr.2 (e ▸ hid)
      obtain ⟨x, hx⟩ := Option.ne_none_iff_exists'.mp (hc id hid hne)
      refine ⟨x, ⟨hvr, id, hid, hx⟩, ?_⟩
      by_cases e : id = i
      · subst e
        have e := Option.some.inj ((hash_hset_self ..).symm.trans hh)
        rw [← e, hx]
        rfl
      · have e' := (hash_hset_ne r.db (fun e' => e (recurringKey_inj e')) _).symm.trans hh
        rw [Option.some.inj (hx.symm.trans e')]
  | delete i =>
    refine of_subset fun h hh => ?_
    obtain ⟨hv, id, hid, hh⟩ := hh
    rw [show r.call (.delete i) = r.deleteRecurring i from rfl] at hv hid hh
    by_cases hnil : i = "all" ∨ r.all = []
    · rw [Registry.delete_nil hnil] at hid
      exact absurd hid List.not_mem_nil
    · rw [not_or] at hnil
      have hnone := ht.resolve_left hnil.2
      rw [Registry.delete_eq hnil.1 hnone] at hv hid hh
      have hall : "all" ∉ r.all := fun hm =>
        hv.2 (List.mem_filter.mpr ⟨hm, decide_eq_true fun e => hnil.1 e.symm⟩)
      obtain ⟨hid, hne⟩ := List.mem_filter.mp hid
      refine ⟨⟨hnone, hall⟩, id, hid, ?_⟩
      exact (hash_del_ne r.db fun e => of_decide_eq_true hne (recurringKey_inj e)).symm.trans hh

end

/-! ## the store -/

/-- a call on jobs, or one on schedules -/
abbrev AnyOp := Op ⊕ RecurringOp

def anyCall (lua : Lua) (s : Db ρ × Registry) : AnyOp → Db ρ × Registry
  | .inl o => ((call lua s.1 o).1, s.2)
  | .inr o => (s.1, s.2.call o)

def backend (ρ : Scores) (lua : Lua) : Backend (Db ρ × Registry) AnyOp where
  init := (Db.empty ρ, Registry.empty)
  step := fun s o => some (anyCall lua s o)
  saves := fun o => o.elim Op.saves fun _ => none
  upserts := fun o => o.elim (fun _ => none) RecurringOp.upserts
  jobs := fun s => deserializeJob '' jobHashes s.1
  specs := fun s => s.2.listRecurring
  Inv := fun s => (∃ C, Filed s.1 C) ∧ s.2.Typed ∧ s.2.Complete
  inv_init := ⟨⟨_, empty_filed⟩, Or.inl rfl, fun _ h => (nomatch h)⟩
  jobs_init := Set.eq_empty_of_forall_notMem fun _ h => by
    obtain ⟨_, ⟨_, h⟩, _⟩ := h
    cases h
  specs_init := rfl
  inv_step := fun s o t v hnew h => by
    obtain ⟨⟨C, F⟩, hc⟩ := v
    rw [← Option.some.inj h]
    cases o with
    | inl o =>
      obtain ⟨C', F', _⟩ := call_moves F lua o fun j e => by
        obtain ⟨hp, hnew⟩ := hnew j (by rw [e]; rfl)
        exact tidy_of_new F hp hnew
      exact ⟨⟨C', F'⟩, hc⟩
    | inr o => exact ⟨⟨C, F⟩, Registry.call_typed hc.1 o, call_complete hc.1 hc.2 o⟩
  jobs_step := fun s o t v _ h => by
    obtain ⟨⟨C, F⟩, _⟩ := v
    rw [← Option.some.inj h]
    cases o with
    | inl o => exact (call_inherits F lua o).image fun _ => rfl
    | inr o => exact of_subset subset_rfl
  specs_step := fun s o t v h => by
    rw [← Option.some.inj h]
    cases o with
    | inl o => exact of_subset subset_rfl
    | inr o =>
      rw [setOf_listRecurring, setOf_listRecurring]
      exact (registry_inherits v.2.1 v.2.2 o).image fun _ => rfl

end GS.Redis
