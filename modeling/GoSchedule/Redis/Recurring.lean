import GoSchedule.Redis.Table

/-!
# Recurring schedules in the Redis store

The hashes of the schedules and the set `recurring:all` of their IDs.  The keys of these hashes and of the
hashes of jobs never meet, so they are a part of the server of their own.  A lease is a key of its own too,
and nothing here reads it.

* `serializeRecurring`, `deserializeRecurring`   the encoding;
* `Registry`   the hashes and the set, with the commands that the calls use.  The hash of a schedule with
  the ID `all` would have the key of the set; a command on a key of the other type is refused;
* `upsertRecurring`, `listRecurring`, `deleteRecurring`, `updateRecurringNextRun`   the calls;
* `Registry.Typed`   that key never has both types;
* `listRecurring_of_visible`, `listRecurring_of_not_visible`   what is listed.
-/

namespace GS.Redis
open Decimal

def recurringKey (id : JobID) : String := keyPrefix ++ "recurring:" ++ id

theorem recurringKey_inj {a b : JobID} (h : recurringKey a = recurringKey b) : a = b :=
  append_left_cancel h

def recurringAllKey : String := keyPrefix ++ "recurring:all"

theorem recurringKey_eq_all {id : JobID} : recurringKey id = recurringAllKey ↔ id = "all" := by
  constructor
  · exact fun h => recurringKey_inj (b := "all") (h.trans (by decide))
  · intro h
    rw [h]
    decide

/-! ## encoding -/

def formatBool (b : Bool) : String := if b then "true" else "false"

/-- `strconv.ParseBool`, with false for what it does not know -/
def parseBool (s : String) : Bool := ["1", "t", "T", "TRUE", "true", "True"].contains s

def serializeRecurring (spec : RecurringSpec) : List (String × String) :=
  [("id", spec.id), ("name", spec.name), ("queue", spec.queue),
    ("payload", bytesToString spec.payload), ("codec_name", spec.codecName),
    ("priority", itoa spec.priority.toNat), ("timeout_ns", itoa spec.timeout.toInt),
    ("max_attempts", itoa spec.maxAttempts.toInt), ("cron", spec.cron),
    ("every_ns", itoa spec.every.toInt), ("catchup", formatBool spec.catchup),
    ("next_run_at", formatTime spec.nextRunAt), ("last_fire_at", formatTime spec.lastFireAt)]

/-- a missing field reads as the empty string -/
def deserializeRecurring (m : String → Option String) : RecurringSpec :=
  let get := fun f => (m f).getD ""
  { id := get "id", name := get "name", queue := get "queue",
    payload := stringToBytes (get "payload"), codecName := get "codec_name",
    priority := UInt8.ofInt (atoi (get "priority")).toInt, timeout := atoi (get "timeout_ns"),
    maxAttempts := atoi (get "max_attempts"), cron := get "cron", every := atoi (get "every_ns"),
    catchup := parseBool (get "catchup"), nextRunAt := parseTime (get "next_run_at"),
    lastFireAt := parseTime (get "last_fire_at") }

/-! ## the server -/

/-- `all` lists the members of the set; a set without members is no key -/
structure Registry where
  db : Db .double
  all : List JobID

namespace Registry

def empty : Registry := ⟨Db.empty .double, []⟩

/-- HSET, which makes a hash if there is none -/
def hset (r : Registry) (key : String) (fields : List (String × String)) : Registry :=
  if key = recurringAllKey ∧ r.all ≠ [] then r else { r with db := r.db.hset key fields }

/-- SADD on `recurring:all` -/
def sadd (r : Registry) (id : JobID) : Registry :=
  if r.db.hash recurringAllKey ≠ none then r else { r with all := r.all.insert id }

/-- DEL, on a key of either type -/
def del (r : Registry) (key : String) : Registry where
  db := r.db.del key
  all := if key = recurringAllKey then [] else r.all

/-- SREM on `recurring:all` -/
def srem (r : Registry) (id : JobID) : Registry :=
  if r.db.hash recurringAllKey ≠ none then r else { r with all := r.all.filter fun i => i ≠ id }

/-- SMEMBERS on `recurring:all`; `none` is an error -/
def smembers (r : Registry) : Option (List JobID) :=
  if r.db.hash recurringAllKey ≠ none then none else some r.all

/-- HGETALL; the outer `none` is an error, the inner one a key that is not there -/
def hgetall (r : Registry) (key : String) : Option (Option (String → Option String)) :=
  if key = recurringAllKey ∧ r.all ≠ [] then none else some (r.db.hash key)

/-! ## the calls -/

/-- one MULTI block; a command that is refused does not keep the other one from running -/
def upsertRecurring (r : Registry) (spec : RecurringSpec) : Registry :=
  (r.hset (recurringKey spec.id) (serializeRecurring spec)).sadd spec.id

/-- SMEMBERS, and then an HGETALL for each ID; an ID without a hash is skipped.  An error of any of them
is an error of the call, and the caller then has no specs -/
def listRecurring (r : Registry) : List RecurringSpec :=
  match r.smembers with
  | none => []
  | some ids =>
    match ids.mapM fun id => r.hgetall (recurringKey id) with
    | none => []
    | some hashes => hashes.filterMap fun h => h.map deserializeRecurring

/-- one MULTI block -/
def deleteRecurring (r : Registry) (id : JobID) : Registry := (r.del (recurringKey id)).srem id

/-- a single HSET -/
def updateRecurringNextRun (r : Registry) (id : JobID) (nextRunAt lastFireAt : Time) : Registry :=
  r.hset (recurringKey id)
    [("next_run_at", formatTime nextRunAt), ("last_fire_at", formatTime lastFireAt)]

end Registry

inductive RecurringOp where
  | upsert (spec : RecurringSpec)
  | updateNextRun (id : JobID) (nextRunAt lastFireAt : Time)
  | delete (id : JobID)
deriving DecidableEq, Repr

def Registry.call (r : Registry) : RecurringOp → Registry
  | .upsert spec => r.upsertRecurring spec
  | .updateNextRun id next last => r.updateRecurringNextRun id next last
  | .delete id => r.deleteRecurring id

/-! ## the key of the set -/

/-- the key of the set is a set, a hash or nothing -/
def Registry.Typed (r : Registry) : Prop := r.all = [] ∨ r.db.hash recurringAllKey = none

theorem hash_hset_ne_none {ρ : Scores} {db : Db ρ} {key k : String} (fs : List (String × String))
    (h : db.hash k ≠ none) : (db.hset key fs).hash k ≠ none := by
  by_cases e : k = key
  · subst e
    rw [hash_hset_self]
    simp
  · rw [hash_hset_ne db e]
    exact h

namespace Registry

section
variable {r : Registry} {id : JobID}

/-- HSET on the hash of a schedule -/
theorem hset_of_ne (hid : id ≠ "all") (fields : List (String × String)) :
    r.hset (recurringKey id) fields = ⟨r.db.hset (recurringKey id) fields, r.all⟩ :=
  if_neg fun h => hid (recurringKey_eq_all.mp h.1)

theorem sadd_of_none (h : r.db.hash recurringAllKey = none) : r.sadd id = ⟨r.db, r.all.insert id⟩ :=
  if_neg (not_not.mpr h)

theorem srem_of_none (h : r.db.hash recurringAllKey = none) :
    r.srem id = ⟨r.db, r.all.filter fun i => i ≠ id⟩ :=
  if_neg (not_not.mpr h)

theorem hash_all_hset (hid : id ≠ "all") (fields : List (String × String)) :
    (r.db.hset (recurringKey id) fields).hash recurringAllKey = r.db.hash recurringAllKey :=
  hash_hset_ne r.db (fun e => hid (recurringKey_eq_all.mp e.symm)) _

theorem hash_all_del (hid : id ≠ "all") :
    (r.db.del (recurringKey id)).hash recurringAllKey = r.db.hash recurringAllKey :=
  hash_del_ne r.db fun e => hid (recurringKey_eq_all.mp e.symm)

theorem delete_db : (r.deleteRecurring id).db = r.db.del (recurringKey id) := by
  unfold deleteRecurring srem
  split
  · rfl
  · rfl

/-- no member is left after the DEL of the set, or if there was none -/
theorem delete_nil (h : id = "all" ∨ r.all = []) : (r.deleteRecurring id).all = [] := by
  have hdel : (r.del (recurringKey id)).all = [] := by
    show (if recurringKey id = recurringAllKey then [] else r.all) = []
    split
    · rfl
    · next hne => exact h.resolve_left (mt recurringKey_eq_all.mpr hne)
  unfold deleteRecurring srem
  split
  · exact hdel
  · show (r.del (recurringKey id)).all.filter _ = []
    rw [hdel]
    rfl

/-- an upsert of a schedule whose ID is not `all`, while the set is no hash -/
theorem upsert_eq {spec : RecurringSpec} (hid : spec.id ≠ "all")
    (h : r.db.hash recurringAllKey = none) : r.upsertRecurring spec =
      ⟨r.db.hset (recurringKey spec.id) (serializeRecurring spec), r.all.insert spec.id⟩ := by
  unfold upsertRecurring
  rw [hset_of_ne hid]
  exact sadd_of_none ((hash_all_hset hid _).trans h)

theorem delete_eq (hid : id ≠ "all") (h : r.db.hash recurringAllKey = none) :
    r.deleteRecurring id = ⟨r.db.del (recurringKey id), r.all.filter fun i => i ≠ id⟩ := by
  have hdel : r.del (recurringKey id) = ⟨r.db.del (recurringKey id), r.all⟩ := by
    unfold del
    rw [if_neg (mt recurringKey_eq_all.mp hid)]
  unfold deleteRecurring
  rw [hdel]
  exact srem_of_none ((hash_all_del hid).trans h)

theorem hset_typed (ht : r.Typed) (key : String) (fields : List (String × String)) :
    (r.hset key fields).Typed := by
  unfold hset
  split
  · exact ht
  · next hfree =>
    rcases ht with ht | ht
    · exact Or.inl ht
    · by_cases hkey : key = recurringAllKey
      · exact Or.inl (not_not.mp fun hne => hfree ⟨hkey, hne⟩)
      · exact Or.inr ((hash_hset_ne r.db (Ne.symm hkey) _).trans ht)

theorem sadd_typed (ht : r.Typed) (id : JobID) : (r.sadd id).Typed := by
  unfold sadd
  split
  · exact ht
  · next h => exact Or.inr (not_not.mp h)

theorem del_typed (ht : r.Typed) (key : String) : (r.del key).Typed := by
  unfold del
  by_cases hkey : key = recurringAllKey
  · exact Or.inl (if_pos hkey)
  · rcases ht with ht | ht
    · exact Or.inl (by rw [if_neg hkey]; exact ht)
    · exact Or.inr ((hash_del_ne r.db (Ne.symm hkey)).trans ht)

theorem srem_typed (ht : r.Typed) (id : JobID) : (r.srem id).Typed := by
  unfold srem
  split
  · exact ht
  · next h => exact Or.inr (not_not.mp h)

theorem call_typed (ht : r.Typed) (o : RecurringOp) : (r.call o).Typed := by
  cases o with
  | upsert spec => exact sadd_typed (hset_typed ht _ _) _
  | updateNextRun id next last => exact hset_typed ht _ _
  | delete id => exact srem_typed (del_typed ht _) _

/-! ## the listing -/

/-- no schedule has the ID `all` -/
def Visible (r : Registry) : Prop := r.db.hash recurringAllKey = none ∧ "all" ∉ r.all

/-- an upsert after which the listing works -/
theorem visible_upsert {spec : RecurringSpec} (hv : (r.upsertRecurring spec).Visible) :
    r.Visible ∧ spec.id ≠ "all" := by
  obtain ⟨hhash, hall⟩ := hv
  have hkey : (r.hset (recurringKey spec.id) (serializeRecurring spec)).db.hash recurringAllKey = none := by
    unfold upsertRecurring sadd at hhash
    split at hhash
    · exact hhash
    · exact hhash
  have hmem : "all" ∉ (r.all.insert spec.id) := by
    unfold upsertRecurring at hall
    rw [sadd_of_none hkey] at hall
    unfold hset at hall
    split at hall
    · exact hall
    · exact hall
  have hid : spec.id ≠ "all" := fun e => hmem (e ▸ List.mem_insert_self)
  rw [hset_of_ne hid] at hkey
  exact ⟨⟨(hash_all_hset hid _).symm.trans hkey, fun h => hmem (List.mem_insert_of_mem h)⟩, hid⟩

theorem listRecurring_of_visible (h : r.Visible) : r.listRecurring =
    r.all.filterMap fun id => (r.db.hash (recurringKey id)).map deserializeRecurring := by
  have hread : ∀ ids : List JobID, "all" ∉ ids → (ids.mapM fun id => r.hgetall (recurringKey id)) =
      some (ids.map fun id => r.db.hash (recurringKey id)) := by
    intro ids
    induction ids with
    | nil => exact fun _ => rfl
    | cons id ids ih =>
      intro hall
      have hne : id ≠ "all" := fun e => hall (e ▸ List.mem_cons_self)
      have hget : r.hgetall (recurringKey id) = some (r.db.hash (recurringKey id)) :=
        if_neg fun hk => hne (recurringKey_eq_all.mp hk.1)
      rw [List.mapM_cons, hget, ih fun hm => hall (List.mem_cons_of_mem _ hm)]
      rfl
  unfold listRecurring smembers
  rw [if_neg (not_not.mpr h.1)]
  dsimp only
  rw [hread r.all h.2]
  exact List.filterMap_map

theorem listRecurring_of_not_visible (h : ¬ r.Visible) : r.listRecurring = [] := by
  unfold listRecurring smembers
  by_cases hhash : r.db.hash recurringAllKey = none
  · have hall : "all" ∈ r.all := not_not.mp fun hn => h ⟨hhash, hn⟩
    have hget : r.hgetall (recurringKey "all") = none :=
      if_pos ⟨recurringKey_eq_all.mpr rfl, List.ne_nil_of_mem hall⟩
    have hread : ∀ ids : List JobID, "all" ∈ ids →
        (ids.mapM fun id => r.hgetall (recurringKey id)) = none := by
      intro ids
      induction ids with
      | nil => exact fun hm => absurd hm List.not_mem_nil
      | cons id ids ih =>
        intro hm
        rw [List.mapM_cons]
        rcases List.mem_cons.mp hm with e | hm
        · rw [← e, hget]
          rfl
        · rw [ih hm]
          cases r.hgetall (recurringKey id) <;> rfl
    rw [if_neg (not_not.mpr hhash)]
    dsimp only
    rw [hread r.all hall]
  · rw [if_pos hhash]

end
end Registry
end GS.Redis
