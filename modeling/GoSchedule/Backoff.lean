import GoSchedule.Types

/-!
# The exponential backoff

`ExponentialBackoff.Next` of `backoff.go`, in 64-bit arithmetic that wraps.

* `ExponentialBackoff`   `Base` and `Cap`;
* `double`    the loop, for the number of iterations that are left;  `Exit` says how it was left;
* `next`      `Next`;
* `limit`     the largest delay that `Next` may return: `Cap`, or the largest duration if there is none.

A doubling that wraps makes a nonnegative number negative (`toInt_mul_two_of_wrap`), which is what the
test `d < prev` looks for.  So `double` agrees with the exact product up to the limit
(`settle_double`).
-/

namespace GS

structure ExponentialBackoff where
  base : Duration
  cap : Duration
deriving DecidableEq, Repr

namespace ExponentialBackoff

/-- how the loop of `Next` ends: with the early return of `Cap`, or with a value for what follows it -/
inductive Exit where
  | ret (d : Duration)
  | fall (d : Duration)
deriving DecidableEq, Repr

def double (e : ExponentialBackoff) : Nat → Duration → Exit
  | 0, d => .fall d
  | n + 1, prev =>
    let d := prev * 2
    -- the break, with the largest duration
    if d < prev then .fall Int64.maxValue
    else if 0 < e.cap ∧ e.cap ≤ d then .ret e.cap
    else e.double n d

/-- what follows the loop -/
def settle (e : ExponentialBackoff) : Exit → Duration
  | .ret d => d
  | .fall d =>
    if 0 < e.cap ∧ e.cap < d then e.cap
    else if d < 0 then Int64.maxValue
    else d

/-- the loop counts from 1 to `attempt - 1` -/
def next (e : ExponentialBackoff) (attempt : Int64) : Duration :=
  let attempt := if attempt < 1 then 1 else attempt
  e.settle (e.double (attempt.toInt - 1).toNat e.base)

/-- `DefaultBackoff` -/
def default : ExponentialBackoff := ⟨100000000, 300000000000⟩

/-- the largest delay: `Cap`, or the largest duration if there is no cap -/
def limit (e : ExponentialBackoff) : Int := if 0 < e.cap then e.cap.toInt else Int64.maxValue.toInt

/-! ## one doubling -/

theorem toInt_mul_two {d : Int64} (h0 : 0 ≤ d.toInt) (h : 2 * d.toInt ≤ Int64.maxValue.toInt) :
    (d * 2).toInt = 2 * d.toInt := by
  have hmax : Int64.maxValue.toInt = 9223372036854775807 := rfl
  rw [Int64.toInt_mul, show (2 : Int64).toInt = 2 from rfl, Int.mul_comm]
  exact Int.bmod_eq_of_le (by omega) (by omega)

/-- a nonnegative number whose double does not fit becomes negative -/
theorem toInt_mul_two_of_wrap {d : Int64} (h : Int64.maxValue.toInt < 2 * d.toInt) :
    (d * 2).toInt = 2 * d.toInt - 18446744073709551616 := by
  have hmax : Int64.maxValue.toInt = 9223372036854775807 := rfl
  have hd : d.toInt ≤ 9223372036854775807 := Int64.toInt_le d
  rw [Int64.toInt_mul, show (2 : Int64).toInt = 2 from rfl, Int.mul_comm, Int.bmod_def]
  split
  · omega
  · omega

/-! ## the loop -/

theorem limit_le_max (e : ExponentialBackoff) : e.limit ≤ Int64.maxValue.toInt := by
  unfold limit
  split
  · exact Int64.toInt_le _
  · exact le_refl _

theorem limit_nonneg (e : ExponentialBackoff) : 0 ≤ e.limit := by
  unfold limit
  split
  · next h => exact le_of_lt (Int64.lt_iff_toInt_lt.mp h)
  · decide

/-- after the loop, the value is cut at the limit -/
theorem settle_fall (e : ExponentialBackoff) {d : Duration} (h0 : 0 ≤ d.toInt) :
    (e.settle (.fall d)).toInt = min e.limit d.toInt := by
  have hmax : d.toInt ≤ Int64.maxValue.toInt := Int64.toInt_le d
  have hd : ¬ d.toInt < (0 : Int64).toInt := not_lt.mpr h0
  simp only [settle, limit, Int64.lt_iff_toInt_lt, if_neg hd]
  split
  · next h => rw [if_pos h.1, min_eq_left (le_of_lt h.2)]
  · next h =>
    by_cases hc : (0 : Int64).toInt < e.cap.toInt
    · rw [if_pos hc, min_eq_right (not_lt.mp fun hlt => h ⟨hc, hlt⟩)]
    · rw [if_neg hc, min_eq_right hmax]

theorem le_mul_two_pow {x : Int} (h : 0 ≤ x) (n : Nat) : x ≤ x * 2 ^ n := by
  have h2 : (1 : Int) ≤ 2 ^ n := one_le_pow₀ (by decide)
  exact le_mul_of_one_le_right h h2

/-- the loop and what follows it give the exact product, cut at the limit -/
theorem settle_double (e : ExponentialBackoff) : ∀ (n : Nat) (d : Duration), 0 ≤ d.toInt →
    (e.settle (e.double n d)).toInt = min e.limit (d.toInt * 2 ^ n) := by
  intro n
  induction n with
  | zero =>
    intro d h0
    rw [pow_zero, Int.mul_one]
    exact settle_fall e h0
  | succ n ih =>
    intro d h0
    have hexact : d.toInt * 2 ^ (n + 1) = 2 * d.toInt * 2 ^ n := by rw [pow_succ]; ring
    have hgrow : 2 * d.toInt ≤ 2 * d.toInt * 2 ^ n := le_mul_two_pow (by omega) n
    rw [hexact]
    unfold double
    dsimp only
    by_cases hfit : 2 * d.toInt ≤ Int64.maxValue.toInt
    · have h2 := toInt_mul_two h0 hfit
      have hnolt : ¬ d * 2 < d := by rw [Int64.lt_iff_toInt_lt, h2]; omega
      rw [if_neg hnolt]
      split
      · -- the early return: the product is at the cap or past it
        next hc =>
        have hcap : e.cap.toInt ≤ 2 * d.toInt := h2 ▸ Int64.le_iff_toInt_le.mp hc.2
        have hlim : e.limit = e.cap.toInt := if_pos hc.1
        rw [hlim, min_eq_left (le_trans hcap hgrow)]
        rfl
      · rw [ih (d * 2) (by omega), h2]
    · -- the product does not fit, so it is past every limit
      have h2 := toInt_mul_two_of_wrap (not_le.mp hfit)
      have hd : d.toInt ≤ Int64.maxValue.toInt := Int64.toInt_le d
      have hmax : Int64.maxValue.toInt = 9223372036854775807 := rfl
      have hlt : d * 2 < d := by rw [Int64.lt_iff_toInt_lt, h2]; omega
      have hlim := limit_le_max e
      rw [if_pos hlt, settle_fall e (by decide), min_eq_left hlim, min_eq_left (by omega)]

/-! ## `Next` -/

/-- the number of doublings -/
def doublings (attempt : Int64) : Nat := (max attempt.toInt 1 - 1).toNat

theorem next_toInt (e : ExponentialBackoff) (attempt : Int64) (h : 0 ≤ e.base) :
    (e.next attempt).toInt = min e.limit (e.base.toInt * 2 ^ doublings attempt) := by
  have hclamp : (if attempt < 1 then (1 : Int64) else attempt).toInt = max attempt.toInt 1 := by
    split
    · next h1 => exact (max_eq_right (le_of_lt (Int64.lt_iff_toInt_lt.mp h1))).symm
    · next h1 =>
      rw [Int64.lt_iff_toInt_lt, not_lt] at h1
      exact (max_eq_left h1).symm
  have hn := settle_double e (doublings attempt) e.base (Int64.le_iff_toInt_le.mp h)
  unfold next doublings at *
  dsimp only
  rw [hclamp]
  exact hn

theorem doublings_mono {a b : Int64} (h : a ≤ b) : doublings a ≤ doublings b := by
  have h' := Int64.le_iff_toInt_le.mp h
  unfold doublings
  omega

/-- `Next` is the exact product cut at the limit; so it is never negative, never above the limit, and a
later attempt never waits less -/
theorem next_exact (e : ExponentialBackoff) (attempt : Int64) (h : 0 ≤ e.base) :
    (e.next attempt).toInt =
        min (if 0 < e.cap then e.cap.toInt else 2 ^ 63 - 1)
          (e.base.toInt * 2 ^ (max attempt.toInt 1 - 1).toNat) ∧
      0 ≤ (e.next attempt).toInt ∧
      ∀ attempt' : Int64, attempt ≤ attempt' → e.next attempt ≤ e.next attempt' := by
  have hbase : 0 ≤ e.base.toInt := Int64.le_iff_toInt_le.mp h
  have heq := next_toInt e attempt h
  refine ⟨heq, ?_, ?_⟩
  · rw [heq]
    exact le_min (limit_nonneg e) (le_trans hbase (le_mul_two_pow hbase _))
  · intro attempt' hle
    have hpow : (2 : Int) ^ doublings attempt ≤ 2 ^ doublings attempt' :=
      pow_le_pow_right₀ (by decide) (doublings_mono hle)
    rw [Int64.le_iff_toInt_le, heq, next_toInt e attempt' h]
    exact min_le_min_left _ (Int.mul_le_mul_of_nonneg_left hpow hbase)

/-- the default backoff is at its cap from the thirteenth attempt on -/
theorem next_exact_default :
    (default.next 13).toInt = min 300000000000 (100000000 * 2 ^ 12) ∧
      ∀ attempt : Int64, 13 ≤ attempt → default.next 13 ≤ default.next attempt := by
  have h := next_exact default 13 (by decide)
  exact ⟨h.1, h.2.2⟩

end ExponentialBackoff

end GS
