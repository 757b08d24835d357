import GoSchedule.Redis.Recurring

/-!
# What the Redis store reads back

The two encodings of the Redis store, as HSET writes them and HGETALL returns them.

* `asHash`   the hash that HSET makes of a list of fields on a new key;
* `parseTime_formatTime`   an instant is read back, but for the epoch, which reads as the zero time;
* `deserializeJob_serializeJob`, `deserializeRecurring_serializeRecurring`   every field of the two
  records;
* `Job.persisted`, `RecurringSpec.persisted`   the record with the fields that are not written blanked;
* `round_trip_iff`   **both records are read back exactly if no instant that is written is the epoch.**
-/

namespace GS

/-- the instants that a store keeps of a job -/
def Job.times (j : Job) : List Time := [j.runAt, j.lockedUntil, j.createdAt, j.updatedAt]

/-- those that the Redis store keeps of a schedule; the lease is a key of its own -/
def RecurringSpec.times (spec : RecurringSpec) : List Time := [spec.nextRunAt, spec.lastFireAt]

def Job.persisted (j : Job) : Job := { j with delivery := 0, catchup := false }

def RecurringSpec.persisted (spec : RecurringSpec) : RecurringSpec :=
  { spec with delivery := 0, leaseUntil := zeroTime, leasedBy := "" }

namespace Redis
open Decimal

def asHash (fields : List (String × String)) : String → Option String := writeFields fields fun _ => none

/-! ## instants -/

theorem parseTime_formatTime {t : Time} (h : InRange t) :
    parseTime (formatTime t) = if t = 0 then zeroTime else t := by
  rcases h with rfl | ⟨h1, h2⟩
  · decide
  · have hn : unixNano t = t := Int64.toInt_ofInt_of_le h1 (Int.lt_add_one_of_le h2)
    have hz : t ≠ zeroTime := by
      intro e
      rw [e] at h1
      exact absurd h1 (by decide)
    have ha : atoi (formatTime t) = Int64.ofInt t := by
      rw [formatTime, if_neg hz]
      exact atoi_itoa _
    have h0 : Int64.ofInt t = 0 ↔ t = 0 := by
      rw [← Int64.toInt_inj, show (Int64.ofInt t).toInt = t from hn]
      rfl
    rw [parseTime, ha, show (Int64.ofInt t).toInt = t from hn]
    by_cases e : t = 0
    · rw [if_pos (h0.mpr e), if_pos e]
    · rw [if_neg (mt h0.mp e), if_neg e]

/-- the epoch is the one instant that is lost -/
theorem parseTime_formatTime_iff {t : Time} (h : InRange t) :
    parseTime (formatTime t) = t ↔ t ≠ 0 := by
  rw [parseTime_formatTime h]
  split
  · next e =>
    rw [e]
    decide
  · next e => exact ⟨fun _ => e, fun _ => rfl⟩

theorem parseBool_formatBool (b : Bool) : parseBool (formatBool b) = b := by
  revert b
  decide

/-! ## records -/

theorem deserializeJob_serializeJob (j : Job) : deserializeJob (asHash (serializeJob j)) =
    { j.persisted with
      runAt := parseTime (formatTime j.runAt), lockedUntil := parseTime (formatTime j.lockedUntil),
      createdAt := parseTime (formatTime j.createdAt),
      updatedAt := parseTime (formatTime j.updatedAt) } := by
  show Job.mk j.id j.name j.queue (UInt8.ofInt (atoi (itoa j.priority.toNat)).toInt)
    (stringToBytes (bytesToString j.payload)) j.codecName _ (atoi (itoa j.attempt.toInt))
    (atoi (itoa j.maxAttempts.toInt)) (UInt8.ofInt (atoi (itoa j.state.toNat)).toInt) _
    (atoi (itoa j.timeout.toInt)) j.lockedBy _ j.lastError j.recurringID _ _ _ = _
  rw [atoi_byte, atoi_byte, atoi_itoa, atoi_itoa, atoi_itoa, stringToBytes_bytesToString]
  rfl

theorem deserializeRecurring_serializeRecurring (spec : RecurringSpec) :
    deserializeRecurring (asHash (serializeRecurring spec)) =
      { spec.persisted with
        nextRunAt := parseTime (formatTime spec.nextRunAt),
        lastFireAt := parseTime (formatTime spec.lastFireAt) } := by
  show RecurringSpec.mk spec.id spec.name spec.queue
    (UInt8.ofInt (atoi (itoa spec.priority.toNat)).toInt)
    (stringToBytes (bytesToString spec.payload)) spec.codecName _ (atoi (itoa spec.timeout.toInt))
    (atoi (itoa spec.maxAttempts.toInt)) spec.cron (atoi (itoa spec.every.toInt))
    (parseBool (formatBool spec.catchup)) _ _ _ _ = _
  rw [atoi_byte, atoi_itoa, atoi_itoa, atoi_itoa, stringToBytes_bytesToString, parseBool_formatBool]
  rfl

theorem job_round_trip {j : Job} (h : ∀ t ∈ j.times, InRange t) :
    (deserializeJob (asHash (serializeJob j))).persisted = j.persisted ↔ ∀ t ∈ j.times, t ≠ 0 := by
  have hr : InRange j.runAt := h _ (by simp [Job.times])
  have hl : InRange j.lockedUntil := h _ (by simp [Job.times])
  have hc : InRange j.createdAt := h _ (by simp [Job.times])
  have hu : InRange j.updatedAt := h _ (by simp [Job.times])
  rw [deserializeJob_serializeJob]
  simp only [Job.persisted, Job.times, Job.mk.injEq, parseTime_formatTime_iff hr,
    parseTime_formatTime_iff hl, parseTime_formatTime_iff hc, parseTime_formatTime_iff hu,
    List.forall_mem_cons, true_and, and_true, List.not_mem_nil, false_implies, implies_true]

theorem spec_round_trip {spec : RecurringSpec} (h : ∀ t ∈ spec.times, InRange t) :
    (deserializeRecurring (asHash (serializeRecurring spec))).persisted = spec.persisted ↔
      ∀ t ∈ spec.times, t ≠ 0 := by
  have hn : InRange spec.nextRunAt := h _ (by simp [RecurringSpec.times])
  have hl : InRange spec.lastFireAt := h _ (by simp [RecurringSpec.times])
  rw [deserializeRecurring_serializeRecurring]
  simp only [RecurringSpec.persisted, RecurringSpec.times, RecurringSpec.mk.injEq,
    parseTime_formatTime_iff hn, parseTime_formatTime_iff hl, List.forall_mem_cons, true_and,
    and_true, List.not_mem_nil, false_implies, implies_true]

/-- **What is read back**: the persisted fields of a job and of a schedule, exactly if no persisted instant
is the epoch. -/
theorem round_trip_iff (j : Job) (spec : RecurringSpec) (hj : ∀ t ∈ j.times, InRange t)
    (hs : ∀ t ∈ spec.times, InRange t) :
    ((deserializeJob (asHash (serializeJob j))).persisted = j.persisted ↔ ∀ t ∈ j.times, t ≠ 0) ∧
      ((deserializeRecurring (asHash (serializeRecurring spec))).persisted = spec.persisted ↔
        ∀ t ∈ spec.times, t ≠ 0) :=
  ⟨job_round_trip hj, spec_round_trip hs⟩

/-- a job that is due at the epoch is not read back, a schedule with a later time is -/
theorem round_trip_epoch :
    let j : Job := { id := "a", queue := "default", runAt := 0 }
    let spec : RecurringSpec := { id := "s", every := 1000000000, nextRunAt := 1767225600000000000 }
    (deserializeJob (asHash (serializeJob j))).persisted ≠ j.persisted ∧
      (deserializeRecurring (asHash (serializeRecurring spec))).persisted = spec.persisted := by
  intro j spec
  have h := round_trip_iff j spec (by decide) (by decide)
  exact ⟨mt h.1.mp (by decide), h.2.mpr (by decide)⟩

/-- the lease is no part of the hash, so a lease that ends at the epoch loses nothing -/
theorem lease_at_epoch :
    let spec : RecurringSpec :=
      { id := "s", every := 1000000000, nextRunAt := 1767225600000000000, leaseUntil := 0 }
    (∀ t ∈ [spec.nextRunAt, spec.lastFireAt, spec.leaseUntil], InRange t) ∧
      ¬ (∀ t ∈ [spec.nextRunAt, spec.lastFireAt, spec.leaseUntil], t ≠ 0) ∧
      (deserializeRecurring (asHash (serializeRecurring spec))).persisted = spec.persisted := by
  refine ⟨?_, ?_, ?_⟩ <;> decide +kernel

end Redis
end GS
