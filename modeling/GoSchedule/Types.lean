import Mathlib

/-!
# Jobs, recurring schedules and the errors of a store

The records of `types.go`, `store.go` and the arithmetic they use.

* `Time`       an instant, in nanoseconds since the Unix epoch (exact, not wrapped);
* `Duration`   `time.Duration`, a 64-bit count of nanoseconds;
* `Job`, `RecurringSpec`   the two records, with the zero values of the source as defaults;
* `StoreErr`   `ErrJobNotFound` and `ErrJobNotPending`; a call that returns `nil` gives `none`;
* `jobLess`    the order of a claim: higher priority first, then the earlier `RunAt`.

`jobLess` is a strict weak order (`jobLess_asymm`, `jobLess_trans`); both `queueHeap.Less` and the
sort of a claimed batch use it.  `ClaimLE` is the preorder that belongs to it.
-/

namespace GS

abbrev Time := Int
abbrev Duration := Int64
abbrev JobID := String
abbrev Priority := UInt8
abbrev State := UInt8

/-- `time.Time{}`: the first of January of the year 1 -/
def zeroTime : Time := -62135596800000000000

def Time.add (t : Time) (d : Duration) : Time := t + d.toInt

/-- `Time.Sub`, which saturates at the ends of the duration range -/
def Time.sub (t u : Time) : Duration :=
  if t - u > Int64.maxValue.toInt then Int64.maxValue
  else if t - u < Int64.minValue.toInt then Int64.minValue
  else Int64.ofInt (t - u)

/-- the zero time, or an instant whose `UnixNano` fits in 64 bits -/
def InRange (t : Time) : Prop :=
  t = zeroTime ∨ Int64.minValue.toInt ≤ t ∧ t ≤ Int64.maxValue.toInt

instance (t : Time) : Decidable (InRange t) := inferInstanceAs (Decidable (_ ∨ _))

def hour : Duration := 3600000000000

def priorityLow : Priority := 0
def priorityNormal : Priority := 1
def priorityHigh : Priority := 2
def priorityCritical : Priority := 3

def statePending : State := 0
def stateClaimed : State := 1
def stateSucceeded : State := 2
def stateFailed : State := 3
def stateCancelled : State := 4

structure Job where
  id : JobID := ""
  name : String := ""
  queue : String := ""
  priority : Priority := 0
  payload : List UInt8 := []
  codecName : String := ""
  runAt : Time := zeroTime
  attempt : Int64 := 0
  maxAttempts : Int64 := 0
  state : State := 0
  delivery : UInt8 := 0
  timeout : Duration := 0
  lockedBy : String := ""
  lockedUntil : Time := zeroTime
  lastError : String := ""
  recurringID : JobID := ""
  createdAt : Time := zeroTime
  updatedAt : Time := zeroTime
  catchup : Bool := false
deriving DecidableEq, Repr, Inhabited

structure RecurringSpec where
  id : JobID := ""
  name : String := ""
  queue : String := ""
  priority : Priority := 0
  payload : List UInt8 := []
  codecName : String := ""
  delivery : UInt8 := 0
  timeout : Duration := 0
  maxAttempts : Int64 := 0
  cron : String := ""
  every : Duration := 0
  catchup : Bool := false
  leaseUntil : Time := zeroTime
  leasedBy : String := ""
  nextRunAt : Time := zeroTime
  lastFireAt : Time := zeroTime
deriving DecidableEq, Repr, Inhabited

inductive StoreErr where
  | jobNotFound
  | jobNotPending
deriving DecidableEq, Repr

def jobLess (a b : Job) : Bool :=
  if a.priority ≠ b.priority then decide (b.priority < a.priority) else decide (a.runAt < b.runAt)

theorem jobLess_iff (a b : Job) : jobLess a b = true ↔
    b.priority < a.priority ∨ a.priority = b.priority ∧ a.runAt < b.runAt := by
  unfold jobLess
  by_cases h : a.priority = b.priority
  · simp [h]
  · simp [h]

theorem jobLess_false_iff (a b : Job) : jobLess a b = false ↔
    a.priority ≤ b.priority ∧ (a.priority = b.priority → b.runAt ≤ a.runAt) := by
  rw [← Bool.not_eq_true, jobLess_iff, not_or, UInt8.not_lt, not_and, not_lt]

theorem jobLess_asymm {a b : Job} (h : jobLess a b = true) : jobLess b a = false := by
  rw [jobLess_false_iff]
  rcases (jobLess_iff a b).mp h with h | ⟨h1, h2⟩
  · exact ⟨UInt8.le_of_lt h, fun e => absurd h (by rw [e]; exact UInt8.lt_irrefl _)⟩
  · exact ⟨by rw [h1]; exact UInt8.le_refl _, fun _ => le_of_lt h2⟩

theorem jobLess_trans {a b c : Job} (h1 : jobLess a b = false) (h2 : jobLess b c = false) :
    jobLess a c = false := by
  rw [jobLess_false_iff] at *
  refine ⟨UInt8.le_trans h1.1 h2.1, fun e => ?_⟩
  have hab : a.priority = b.priority := UInt8.le_antisymm h1.1 (by rw [e]; exact h2.1)
  exact le_trans (h2.2 (hab.symm.trans e)) (h1.2 hab)

/-- `a` may stand before `b` in a claimed batch -/
def ClaimLE (a b : Job) : Prop := jobLess b a = false

instance : DecidableRel ClaimLE := fun a b => inferInstanceAs (Decidable (jobLess b a = false))

instance : Std.Total ClaimLE where
  total := fun a b => by
    cases h : jobLess b a with
    | false => exact Or.inl h
    | true => exact Or.inr (jobLess_asymm h)

instance : IsTrans Job ClaimLE where
  trans := fun _ _ _ h1 h2 => jobLess_trans h2 h1

/-- a counter that is below another one does not wrap -/
theorem toInt_add_one {a m : Int64} (h : a.toInt < m.toInt) : (a + 1).toInt = a.toInt + 1 := by
  have hmax : m.toInt ≤ 9223372036854775807 := Int64.toInt_le m
  have hmin : -9223372036854775808 ≤ a.toInt := Int64.le_toInt a
  rw [Int64.toInt_add, show (1 : Int64).toInt = 1 from rfl]
  exact Int.bmod_eq_of_le (by omega) (by omega)

end GS
