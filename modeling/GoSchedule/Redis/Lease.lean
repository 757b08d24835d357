import GoSchedule.Lib.Expiry
import GoSchedule.Lib.Sim
import GoSchedule.Redis.Table

/-!
# Leases in the Redis store

A lease is a key with the worker's name that expires.  The client turns the end of the lease into a number
of seconds from now.

* `acquireLeaseScript`       the script: GET, and SET with EX.  `clock` is the server's clock;
* `acquireRecurringLease`    the call; `now` is the caller's clock, which `time.Until` reads;
* `ttlSec`                   the number of seconds that is sent: `ttlSec_toInt`;
* `le_expiry_iff`            when the key lives as long as the lease that was asked for;
* `lease_lasts_iff`          **exactly then it keeps everybody else out until its end**, in every sequence
  of calls, where both clocks show the same.
-/

namespace GS.Redis
open Decimal Sim

def leaseKey (id : JobID) : String := keyPrefix ++ "lease:" ++ id

theorem leaseKey_inj {a b : JobID} (h : leaseKey a = leaseKey b) : a = b := append_left_cancel h

/-- the keys that expire -/
abbrev LeaseDb := Expiring String String Time

def second : Duration := 1000000000

/-- the reply is 1 for a lease that is granted or refreshed -/
def acquireLeaseScript (lease worker : String) (ttl : Int64) (clock : Time) (db : LeaseDb) :
    LeaseDb × Int :=
  let current := db.get clock lease
  if current = none ∨ current = some worker then
    (db.set lease worker (clock + ttl.toInt * 1000000000), 1)
  else (db, 0)

/-- what the client sends for a lease until `leaseUntil`; `/` is the division of 64-bit integers -/
def ttlSec (leaseUntil now : Time) : Int64 :=
  let ttlSec := leaseUntil.sub now / second
  if ttlSec < 1 then 1 else ttlSec

def acquireRecurringLease (specID : JobID) (leaseUntil : Time) (workerID : String) (now clock : Time)
    (db : LeaseDb) : LeaseDb × Bool :=
  if leaseUntil.sub now ≤ 0 then (db, false)
  else
    let r := acquireLeaseScript (leaseKey specID) workerID (ttlSec leaseUntil now) clock db
    (r.1, r.2 = 1)

/-! ## the length of a lease -/

/-- the instant at which the key of a lease expires -/
def expiry (leaseUntil now : Time) : Time := now + (ttlSec leaseUntil now).toInt * 1000000000

theorem sub_toInt {t u : Int} (h : u < t) :
    (Time.sub t u).toInt = min (t - u) 9223372036854775807 := by
  unfold Time.sub
  by_cases hbig : (t - u : Int) > Int64.maxValue.toInt
  · rw [if_pos hbig]
    exact (min_eq_right (le_of_lt hbig)).symm
  · have hmin : ¬ (t - u : Int) < Int64.minValue.toInt := by
      rw [show Int64.minValue.toInt = -9223372036854775808 from rfl]
      omega
    rw [if_neg hbig, if_neg hmin]
    rw [Int64.toInt_ofInt_of_le (not_lt.mp hmin) (Int.lt_add_one_of_le (not_lt.mp hbig))]
    exact (min_eq_left (not_lt.mp hbig)).symm

theorem div_second_toInt {d : Duration} (h : 0 ≤ d.toInt) :
    (d / second).toInt = d.toInt / 1000000000 := by
  have hle : d.toInt ≤ 9223372036854775807 := Int64.toInt_le d
  rw [Int64.toInt_div, show second.toInt = 1000000000 from rfl, Int.tdiv_eq_ediv_of_nonneg h]
  refine Int.bmod_eq_of_le ?_ ?_
  · omega
  · omega

/-- the seconds are rounded down, but there is at least one -/
theorem ttlSec_toInt {t u : Int} (h : u < t) :
    (ttlSec t u).toInt = max 1 (min (t - u) 9223372036854775807 / 1000000000) := by
  have hsub := sub_toInt h
  have hdiv := div_second_toInt (d := Time.sub t u) (by omega)
  rw [hsub] at hdiv
  have h1 : (1 : Int64).toInt = 1 := rfl
  unfold ttlSec
  dsimp only
  split
  · next hlt =>
    rw [Int64.lt_iff_toInt_lt, hdiv] at hlt
    omega
  · next hlt =>
    rw [Int64.lt_iff_toInt_lt, hdiv] at hlt
    rw [hdiv]
    omega

/-- the lengths that the key lives for: less than a second, or a whole number of them -/
def Whole (leaseUntil now : Time) : Prop :=
  leaseUntil - now < 1000000000 ∨
    leaseUntil - now ≤ 9223372036854775807 ∧ (1000000000 : Int) ∣ leaseUntil - now

instance (leaseUntil now : Time) : Decidable (Whole leaseUntil now) :=
  inferInstanceAs (Decidable (_ ∨ _ ∧ _))

theorem le_expiry_iff {t u : Int} (h : u < t) : t ≤ expiry t u ↔ Whole t u := by
  unfold expiry
  rw [ttlSec_toInt h]
  show t ≤ u + max 1 (min (t - u) 9223372036854775807 / 1000000000) * 1000000000 ↔
    t - u < 1000000000 ∨ t - u ≤ 9223372036854775807 ∧ (1000000000 : Int) ∣ t - u
  omega

/-! ## calls -/

structure Acquire where
  specID : JobID
  leaseUntil : Time
  workerID : String
  now : Time
deriving DecidableEq, Repr

/-- a call where both clocks show the same -/
def Acquire.call (a : Acquire) (db : LeaseDb) : LeaseDb × Bool :=
  acquireRecurringLease a.specID a.leaseUntil a.workerID a.now a.now db

def Acquires (db : LeaseDb) (a : Acquire) (b : Bool) (db' : LeaseDb) : Prop := a.call db = (db', b)

theorem acquireLeaseScript_eq (lease worker : String) (ttl : Int64) (clock : Time) (db : LeaseDb) :
    ((acquireLeaseScript lease worker ttl clock db).1,
      decide ((acquireLeaseScript lease worker ttl clock db).2 = 1)) =
      db.acquire clock lease worker (clock + ttl.toInt * 1000000000) := by
  unfold acquireLeaseScript Expiring.acquire
  dsimp only
  split
  · rfl
  · rfl

section
variable {a : Acquire} {db : LeaseDb}

/-- a lease that has ended is not asked for -/
theorem call_past (h : a.leaseUntil.sub a.now ≤ 0) : a.call db = (db, false) := if_pos h

theorem call_eq (h : ¬ a.leaseUntil.sub a.now ≤ 0) :
    a.call db = db.acquire a.now (leaseKey a.specID) a.workerID (expiry a.leaseUntil a.now) :=
  (if_neg h).trans (acquireLeaseScript_eq ..)

theorem not_sub_le {t u : Int} (h : u < t) : ¬ Time.sub t u ≤ 0 := by
  have h0 : (0 : Int64).toInt = 0 := rfl
  rw [Int64.le_iff_toInt_le, sub_toInt h]
  omega

/-- a call on another spec leaves the lease alone -/
theorem entry_call_ne {id : JobID} (h : a.specID ≠ id) :
    (a.call db).1.entry (leaseKey id) = db.entry (leaseKey id) := by
  by_cases hp : a.leaseUntil.sub a.now ≤ 0
  · rw [call_past hp]
  · rw [call_eq hp]
    exact Expiring.entry_acquire_ne fun e => h (leaseKey_inj e).symm

/-- somebody else is refused until the key expires -/
theorem call_refused {w : String} {e : Time} (h : db.entry (leaseKey a.specID) = some (w, e))
    (hw : a.workerID ≠ w) (ht : a.now < e) : a.call db = (db, false) := by
  by_cases hp : a.leaseUntil.sub a.now ≤ 0
  · exact call_past hp
  · rw [call_eq hp]
    exact Expiring.acquire_refused h ht hw _

end

/-- the calls of a history on one spec are by others, and before the end of the lease -/
def Others (id : JobID) (w : String) (leaseUntil : Time) (h : List (Acquire × Bool)) : Prop :=
  ∀ e ∈ h, e.1.specID = id → e.1.workerID ≠ w ∧ e.1.now < leaseUntil

/-- a key that lives until `e` keeps the others out of a whole history -/
theorem others_refused {id : JobID} {w : String} {L e : Time} (hL : L ≤ e) {db db' : LeaseDb}
    {h : List (Acquire × Bool)} (hdb : db.entry (leaseKey id) = some (w, e))
    (hr : Runs Acquires db h db') (ho : Others id w L h) :
    db'.entry (leaseKey id) = some (w, e) ∧ ∀ x ∈ h, x.1.specID = id → x.2 = false := by
  induction hr with
  | nil => exact ⟨hdb, fun x hx => absurd hx List.not_mem_nil⟩
  | @snoc h t u a b hrun hcall ih =>
    obtain ⟨ht, hh⟩ := ih fun x hx => ho x (List.mem_append_left _ hx)
    have hu : (a.call t).1 = u := congrArg Prod.fst hcall
    have hb : (a.call t).2 = b := congrArg Prod.snd hcall
    by_cases hid : a.specID = id
    · obtain ⟨hw, hnow⟩ := ho (a, b) (List.mem_append_right _ List.mem_cons_self) hid
      have hcall' := call_refused (hid ▸ ht) hw (lt_of_lt_of_le hnow hL)
      rw [hcall'] at hu hb
      refine ⟨hu ▸ ht, fun x hx hx' => ?_⟩
      rcases List.mem_append.mp hx with hx | hx
      · exact hh x hx hx'
      · rw [List.mem_singleton.mp hx]
        exact hb.symm
    · refine ⟨?_, fun x hx hx' => ?_⟩
      · rw [← hu, entry_call_ne hid]
        exact ht
      · rcases List.mem_append.mp hx with hx | hx
        · exact hh x hx hx'
        · rw [List.mem_singleton.mp hx] at hx'
          exact absurd hx' hid

/-- **A lease lasts as long as it was granted**, in every sequence of calls in which its worker makes no
further one, exactly if it is for less than a second or for a whole number of seconds. -/
theorem lease_lasts_iff (db : LeaseDb) (a : Acquire) (hL : a.now < a.leaseUntil)
    (hgrant : (a.call db).2 = true) :
    (∀ h db', Runs Acquires (a.call db).1 h db' → Others a.specID a.workerID a.leaseUntil h →
        ∀ e ∈ h, e.1.specID = a.specID → e.2 = false) ↔
      a.leaseUntil - a.now < 1000000000 ∨
        a.leaseUntil - a.now ≤ 9223372036854775807 ∧ (1000000000 : Int) ∣ a.leaseUntil - a.now := by
  rw [call_eq (not_sub_le hL)] at hgrant ⊢
  have hentry := Expiring.entry_acquire hgrant
  refine Iff.trans ?_ (le_expiry_iff hL)
  constructor
  · -- a call at the expiry would be granted
    intro hall
    by_contra hlt
    rw [not_le] at hlt
    have hne : a.workerID ++ "'" ≠ a.workerID := by
      intro e
      have := congrArg String.length e
      rw [String.length_append] at this
      exact absurd this (by simp)
    let b : Acquire := ⟨a.specID, a.leaseUntil, a.workerID ++ "'", expiry a.leaseUntil a.now⟩
    let db₁ := (db.acquire a.now (leaseKey a.specID) a.workerID (expiry a.leaseUntil a.now)).1
    have hothers : Others a.specID a.workerID a.leaseUntil [(b, (b.call db₁).2)] := by
      intro e he _
      rw [List.mem_singleton.mp he]
      exact ⟨hne, hlt⟩
    have hfalse : (b.call db₁).2 = false :=
      hall [(b, (b.call db₁).2)] (b.call db₁).1 (.snoc .nil rfl) hothers _ List.mem_cons_self rfl
    rw [call_eq (not_sub_le hlt), Expiring.acquire_expired hentry (le_refl _)] at hfalse
    cases hfalse
  · intro hle h db' hr ho
    exact (others_refused hle hentry hr ho).2

/-- a lease of one minute -/
theorem lease_lasts_minute :
    let a : Acquire := ⟨"s", 60000000000, "w1", 0⟩
    (a.call Expiring.empty).2 = true ∧
      ∀ h db', Runs Acquires (a.call Expiring.empty).1 h db' → Others "s" "w1" 60000000000 h →
        ∀ e ∈ h, e.1.specID = "s" → e.2 = false := by
  intro a
  have hgrant : (a.call Expiring.empty).2 = true := by decide +kernel
  exact ⟨hgrant, (lease_lasts_iff Expiring.empty a (by decide) hgrant).mpr (Or.inr (by decide))⟩

/-- a lease of one and a half seconds is gone after one -/
theorem lease_cut_short :
    let a : Acquire := ⟨"s", 1500000000, "w1", 0⟩
    let b : Acquire := ⟨"s", 2700000000, "w2", 1200000000⟩
    (a.call Expiring.empty).2 = true ∧ b.now < a.leaseUntil ∧ b.workerID ≠ a.workerID ∧
      (b.call (a.call Expiring.empty).1).2 = true := by
  decide +kernel

end GS.Redis
