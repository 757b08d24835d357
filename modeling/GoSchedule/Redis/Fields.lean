import GoSchedule.Redis.Rows

/-!
# Fields that the scripts leave alone

A script writes some fields of the hash of a job, or deletes it.

* `hget_claim`, `hget_recoverStale`   a claim and a recovery write the `lockFields` and no other;
* `Kept`   a hash that is there after a script on one job was there before it, with the same ID, queue and
  name: `JobEdit.kept`, and `kept_of_mapOn` for a script over many jobs;
* `FieldKept`   a field that only `Save` writes is as it was, or gone with the hash: `JobEdit.fieldKept`.
-/

namespace GS.Redis

variable {ρ : Scores}

/-! ## claims and recoveries -/

theorem hget_hset {fs : List (String × String)} {f : String} (hf : f ∉ fs.map Prod.fst) (db : Db ρ)
    (key k : String) : (db.hset key fs).hget k f = db.hget k f := by
  unfold Db.hget
  by_cases e : k = key
  · subst e
    rw [hash_hset_self, Option.bind_some, writeFields_of_not_mem hf]
    cases db.hash k with
    | none => rfl
    | some m => rfl
  · rw [hash_hset_ne db e]

/-- the fields that a claim and a recovery write -/
def lockFields : List String := ["state", "locked_by", "locked_until", "updated_at"]

theorem hget_claimOne {f : String} (hf : f ∉ lockFields) (z c now w lu p st : String) (db : Db ρ)
    (id k : String) : (claimOne z c now w lu p st db id).hget k f = db.hget k f :=
  hget_hset (by exact hf) ((db.zrem z id).zadd c lu id) (p ++ id) k

theorem hget_claim {f : String} (hf : f ∉ lockFields) (q : String) (now : Time) (n : Int) (w : String)
    (lu : Time) (db : Db ρ) (k : String) : (claim q now n w lu db).1.hget k f = db.hget k f := by
  unfold claim claimDueScript
  rw [claimBuckets_eq (nodup_priorityBuckets q) (claimedKey_not_mem q)]
  dsimp only
  generalize (picks (formatTime now) (priorityBuckets q) db).take n.toNat = ps
  induction ps generalizing db with
  | nil => rfl
  | cons p ps ih => exact (ih _).trans (hget_claimOne hf ..)

theorem hget_recoverOne {f : String} (hf : f ∉ lockFields) (lua : Lua) (now : Int) (db : Db ρ)
    (id k : String) : (recoverOne lua claimedKey (keyPrefix ++ "job:") (keyPrefix ++ "pending:")
      statePendingArg now db id).1.hget k f = db.hget k f := by
  unfold recoverOne
  dsimp only
  split
  · exact hget_hset (by exact hf) (db.zrem claimedKey id) _ k
  · rfl

theorem hget_recoverStale {f : String} (hf : f ∉ lockFields) (lua : Lua) (clock : Int) (db : Db ρ)
    (k : String) : (recoverStale lua clock db).1.hget k f = db.hget k f := by
  have hfold : ∀ (ids : List String) (s : Db ρ × List String),
      (ids.foldl (recoverStep lua clock) s).1.hget k f = s.1.hget k f := by
    intro ids
    induction ids with
    | nil => intro s; rfl
    | cons i ids ih =>
      intro s
      exact (ih _).trans (hget_recoverOne hf lua clock s.1 i k)
  exact hfold _ (db, [])

/-! ## the fields that no script writes -/

def tagFields : List String := ["id", "queue", "name"]

theorem not_lock {f : String} (hf : f ∈ tagFields) : f ∉ lockFields := by
  have h : ∀ f ∈ tagFields, f ∉ lockFields := by decide
  exact h f hf

def KeptAt (db db' : Db ρ) (id : JobID) : Prop :=
  ∀ h', db'.hash (jobKey id) = some h' → ∃ h, db.hash (jobKey id) = some h ∧ ∀ f ∈ tagFields, h f = h' f

def Kept (db db' : Db ρ) : Prop := ∀ id, KeptAt db db' id

section
variable {db db' : Db ρ} {id : JobID}

theorem kept_refl (db : Db ρ) : Kept db db := fun _ h hh => ⟨h, hh, fun _ _ => rfl⟩

theorem keptAt_of_hash (e : db'.hash (jobKey id) = db.hash (jobKey id)) : KeptAt db db' id :=
  fun h hh => ⟨h, e.symm.trans hh, fun _ _ => rfl⟩

theorem keptAt_of_none (e : db'.hash (jobKey id) = none) : KeptAt db db' id := by
  intro h' hh
  cases e.symm.trans hh

/-- a hash with the same fields as before -/
theorem keptAt_of_hget (hne : db.hash (jobKey id) ≠ none)
    (h : ∀ f ∈ tagFields, db'.hget (jobKey id) f = db.hget (jobKey id) f) : KeptAt db db' id := by
  intro h' hh'
  obtain ⟨x, hx⟩ := Option.ne_none_iff_exists'.mp hne
  refine ⟨x, hx, fun f hf => ?_⟩
  have e := h f hf
  unfold Db.hget at e
  rw [hx, hh'] at e
  exact e.symm

/-- a script over many jobs, each of which the table `T` has -/
theorem kept_of_mapOn {ν : Type} {T : JobID → Option ν} {g : ν → ν} {ids : List JobID}
    (hT : ∀ id, T id ≠ none → db.hash (jobKey id) ≠ none)
    (hT' : ∀ id, db'.hash (jobKey id) ≠ none → MapOn.mapOn T g ids id ≠ none)
    (h : ∀ f ∈ tagFields, ∀ k, db'.hget k f = db.hget k f) : Kept db db' := by
  intro id h' hh'
  have hne : db'.hash (jobKey id) ≠ none := fun e => nomatch e.symm.trans hh'
  obtain ⟨y, hy⟩ := Option.ne_none_iff_exists'.mp (hT' id hne)
  obtain ⟨x, hx, _⟩ := MapOn.mapOn_some hy
  have hold : T id ≠ none := fun e => nomatch e.symm.trans hx
  exact keptAt_of_hget (hT id hold) (fun f hf => h f hf _) h' hh'

/-- a call on one job -/
theorem kept_of_touches {i : JobID} (tc : Touches i db db') (h : KeptAt db db' i) : Kept db db' := by
  intro id
  by_cases e : id = i
  · subst e
    exact h
  · exact keptAt_of_hash (tc.hash id e)

theorem keptAt_hset {d : Db ρ} (hd : d.hash = db.hash) (hne : db.hash (jobKey id) ≠ none)
    {fs : List (String × String)} (hfs : ∀ f ∈ tagFields, f ∉ fs.map Prod.fst) :
    KeptAt db (d.hset (jobKey id) fs) id := by
  refine keptAt_of_hget hne fun f hf => ?_
  rw [hget_hset (hfs f hf) d (jobKey id) (jobKey id)]
  unfold Db.hget
  rw [hd]

theorem JobEdit.kept {B : Set String} (h : JobEdit B id db db') : Kept db db' := by
  refine kept_of_touches h.touches ?_
  cases h with
  | refused => exact kept_refl db id
  | removed z => exact keptAt_of_none (hash_del_self ..)
  | written hd hne hfs =>
    have htags : ∀ f ∈ tagFields, f ∈ savedFields := by decide
    refine keptAt_hset ?_ hne fun f hf => hfs f (htags f hf)
    rcases hd with rfl | rfl
    · rfl
    · rfl

/-- the field of any hash is as it was, or gone with the hash -/
def FieldKept (f : String) (db db' : Db ρ) : Prop := ∀ k v, db'.hget k f = some v → db.hget k f = some v

theorem fieldKept_of_hget {f : String} (h : ∀ k, db'.hget k f = db.hget k f) : FieldKept f db db' :=
  fun k _ hk => (h k).symm.trans hk

theorem fieldKept_del {f : String} (key : String) : FieldKept f db (db.del key) := by
  intro k v h
  unfold Db.hget at h ⊢
  by_cases e : k = key
  · rw [e, hash_del_self] at h
    cases h
  · rw [hash_del_ne db e] at h
    exact h

theorem JobEdit.fieldKept {B : Set String} {f : String} (h : JobEdit B id db db')
    (hf : f ∈ savedFields) : FieldKept f db db' := by
  cases h with
  | refused => exact fun _ _ h => h
  | removed z => exact fieldKept_del (jobKey id)
  | written hd hne hfs =>
    rcases hd with rfl | rfl
    · exact fieldKept_of_hget (hget_hset (hfs f hf) _ (jobKey id))
    · exact fieldKept_of_hget (hget_hset (hfs f hf) (db.zrem claimedKey id) (jobKey id))

theorem withBucket_kept {script : String → Db ρ × String} {err : String → Option StoreErr}
    (h : ∀ bucket, Kept db (script bucket).1) : Kept db (withBucket id db script err).1 := by
  unfold withBucket
  split
  · exact kept_refl db
  · exact h _

end
end GS.Redis
