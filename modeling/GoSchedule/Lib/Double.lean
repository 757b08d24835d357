import GoSchedule.Lib.Decimal

/-!
# Integers as doubles

A language whose only numbers are doubles reads an integer from a string and prints it again.

* `halfEven n d`   the quotient `n / d`, rounded, a half to the even neighbour;
* `roundNat n`     the nearest number with 53 significant bits: `roundNat_mono`, `roundNat_near`, and
  `roundNat_mul`, `roundNat_add` say which numbers are exact and what is rounded to them;
* `round n`        the same for integers: `round_mono`, `round_of_le`, and `round_le_iff`,
  `round_pos` say that rounding keeps a comparison with a number that is exact;
* `print n`        the format `%.14g`: `print_of_lt`, integers of at most fourteen digits are printed as
  they are, longer ones as a mantissa and an exponent;
* `read s`         what a decimal string, with or without an exponent, is as a number: `read_itoa`.
-/

namespace Double
open Decimal

/-! ## rounding -/

def halfEven (n d : Nat) : Nat :=
  if d < 2 * (n % d) ∨ 2 * (n % d) = d ∧ n / d % 2 = 1 then n / d + 1 else n / d

theorem le_halfEven (n d : Nat) : n / d ≤ halfEven n d := by
  unfold halfEven
  split
  · exact Nat.le_succ _
  · exact Nat.le_refl _

theorem halfEven_le (n d : Nat) : halfEven n d ≤ n / d + 1 := by
  unfold halfEven
  split
  · exact Nat.le_refl _
  · exact Nat.le_succ _

theorem halfEven_mono {a b : Nat} (h : a ≤ b) (d : Nat) : halfEven a d ≤ halfEven b d := by
  rcases Nat.lt_or_eq_of_le (Nat.div_le_div_right (c := d) h) with hlt | heq
  · exact (halfEven_le a d).trans (hlt.trans_le (le_halfEven b d))
  · -- the quotients are equal, so the remainders are in the order of the numbers
    have hmod : a % d ≤ b % d := by
      have h1 := Nat.div_add_mod a d
      have h2 := Nat.div_add_mod b d
      rw [heq] at h1
      omega
    unfold halfEven
    rw [heq]
    split
    · next ha =>
      rw [if_pos (by omega)]
    · split
      · exact Nat.le_succ _
      · exact Nat.le_refl _

/-- the rounded quotient is off by half the divisor at most -/
theorem halfEven_near (n : Nat) {d : Nat} (hd : 0 < d) :
    2 * (halfEven n d * d) ≤ 2 * n + d ∧ 2 * n ≤ 2 * (halfEven n d * d) + d := by
  have hn := Nat.div_add_mod n d
  have hlt := Nat.mod_lt n hd
  rw [Nat.mul_comm] at hn
  unfold halfEven
  split
  · rw [Nat.add_mul]
    omega
  · omega

/-- a remainder of less than a half is dropped -/
theorem halfEven_add {q d e : Nat} (h : 2 * e < d) : halfEven (q * d + e) d = q := by
  have hq : (q * d + e) / d = q := by
    rw [Nat.mul_comm, Nat.mul_add_div (by omega), Nat.div_eq_of_lt (by omega), Nat.add_zero]
  have hr : (q * d + e) % d = e := by
    rw [Nat.mul_comm, Nat.mul_add_mod, Nat.mod_eq_of_lt (by omega)]
  rw [halfEven, hq, hr, if_neg (by omega)]

def roundNat (n : Nat) : Nat :=
  if n ≤ 2 ^ 53 then n else halfEven n (2 ^ (n.log2 - 52)) * 2 ^ (n.log2 - 52)

section
variable {n : Nat}

/-- a long number has 53 bits before the last place -/
theorem log2_of_lt (h : 2 ^ 53 < n) : 53 ≤ n.log2 ∧ 2 ^ 52 * 2 ^ (n.log2 - 52) ≤ n ∧
    n < 2 ^ 53 * 2 ^ (n.log2 - 52) := by
  have hn : n ≠ 0 := by
    rintro rfl
    exact absurd h (by decide)
  have hlog : 53 ≤ n.log2 := (Nat.le_log2 hn).mpr (le_of_lt h)
  refine ⟨hlog, ?_, ?_⟩
  · rw [← pow_add, show 52 + (n.log2 - 52) = n.log2 by omega]
    exact Nat.log2_self_le hn
  · rw [← pow_add, show 53 + (n.log2 - 52) = n.log2 + 1 by omega]
    exact Nat.lt_log2_self

/-- the 53 bits of a rounded number -/
theorem roundNat_bits (h : 2 ^ 53 < n) : ∃ q, roundNat n = q * 2 ^ (n.log2 - 52) ∧ 2 ^ 52 ≤ q ∧
    q ≤ 2 ^ 53 := by
  obtain ⟨_, hlo, hhi⟩ := log2_of_lt h
  refine ⟨_, if_neg (not_le.mpr h), ?_, ?_⟩
  · exact ((Nat.le_div_iff_mul_le (Nat.two_pow_pos _)).mpr hlo).trans (le_halfEven _ _)
  · exact (halfEven_le _ _).trans ((Nat.div_lt_iff_lt_mul (Nat.two_pow_pos _)).mpr hhi)

theorem le_roundNat (h : 2 ^ 53 < n) : 2 ^ 53 ≤ roundNat n := by
  obtain ⟨hlog, _, _⟩ := log2_of_lt h
  obtain ⟨q, hr, hq, _⟩ := roundNat_bits h
  calc 2 ^ 53 = 2 ^ 52 * 2 ^ 1 := by rw [← pow_add]
    _ ≤ q * 2 ^ (n.log2 - 52) :=
        Nat.mul_le_mul hq (Nat.pow_le_pow_right (by decide) (by omega))
    _ = roundNat n := hr.symm

theorem roundNat_mono {a b : Nat} (h : a ≤ b) : roundNat a ≤ roundNat b := by
  by_cases hb : b ≤ 2 ^ 53
  · rw [roundNat, roundNat, if_pos (h.trans hb), if_pos hb]
    exact h
  by_cases ha : a ≤ 2 ^ 53
  · rw [roundNat, if_pos ha]
    exact ha.trans (le_roundNat (not_le.mp hb))
  obtain ⟨hla, _, ha'⟩ := log2_of_lt (not_le.mp ha)
  obtain ⟨hlb, hb', _⟩ := log2_of_lt (not_le.mp hb)
  have hlog : a.log2 ≤ b.log2 := by
    rw [Nat.le_log2 (by omega)]
    exact (Nat.log2_self_le (by omega)).trans h
  rcases Nat.lt_or_eq_of_le hlog with hlt | heq
  · -- a power of two lies between them
    obtain ⟨q, hr, _, hq⟩ := roundNat_bits (not_le.mp ha)
    obtain ⟨q', hr', hq', _⟩ := roundNat_bits (not_le.mp hb)
    calc roundNat a = q * 2 ^ (a.log2 - 52) := hr
      _ ≤ 2 ^ 53 * 2 ^ (a.log2 - 52) := Nat.mul_le_mul_right _ hq
      _ = 2 ^ 52 * 2 ^ (a.log2 - 52 + 1) := by
          rw [← pow_add, ← pow_add]
          exact congrArg _ (by omega)
      _ ≤ q' * 2 ^ (b.log2 - 52) :=
          Nat.mul_le_mul hq' (Nat.pow_le_pow_right (by decide) (by omega))
      _ = roundNat b := hr'.symm
  · rw [roundNat, roundNat, if_neg ha, if_neg hb, heq]
    exact Nat.mul_le_mul_right _ (halfEven_mono h _)

/-- 53 bits and zeros are exact -/
theorem roundNat_mul {q : Nat} (k : Nat) (hq : q ≤ 2 ^ 53) : roundNat (q * 2 ^ k) = q * 2 ^ k := by
  by_cases h : q * 2 ^ k ≤ 2 ^ 53
  · exact if_pos h
  obtain ⟨hlog, hlo, _⟩ := log2_of_lt (not_le.mp h)
  -- the last place divides the number
  obtain ⟨c, hc⟩ : 2 ^ ((q * 2 ^ k).log2 - 52) ∣ q * 2 ^ k := by
    rcases Nat.lt_or_eq_of_le hq with hlt | rfl
    · refine (Nat.pow_dvd_pow 2 ?_).trans (Nat.dvd_mul_left _ _)
      by_contra hk
      have h1 : 2 ^ 53 * 2 ^ k ≤ 2 ^ 52 * 2 ^ ((q * 2 ^ k).log2 - 52) := by
        rw [← pow_add, ← pow_add]
        exact Nat.pow_le_pow_right (by decide) (by omega)
      exact absurd (h1.trans hlo) (not_le.mpr (Nat.mul_lt_mul_of_pos_right hlt (Nat.two_pow_pos k)))
    · rw [← pow_add, Nat.log2_two_pow]
      exact Nat.pow_dvd_pow 2 (by omega)
  have hd : 0 < 2 ^ ((q * 2 ^ k).log2 - 52) := Nat.two_pow_pos _
  rw [roundNat, if_neg h]
  set d := 2 ^ ((q * 2 ^ k).log2 - 52)
  have he : halfEven (c * d + 0) d = c := halfEven_add (by omega)
  rw [hc, Nat.mul_comm d c, ← Nat.add_zero (c * d), he]
  rfl

theorem roundNat_roundNat (n : Nat) : roundNat (roundNat n) = roundNat n := by
  by_cases h : n ≤ 2 ^ 53
  · rw [show roundNat n = n from if_pos h]
    exact if_pos h
  · obtain ⟨q, hr, _, hq⟩ := roundNat_bits (not_le.mp h)
    rw [hr]
    exact roundNat_mul _ hq

/-- what is less than half a place above a double is rounded to it -/
theorem roundNat_add {q k e : Nat} (h1 : 2 ^ 52 ≤ q) (h2 : q < 2 ^ 53) (he : 2 * e < 2 ^ k) :
    roundNat (q * 2 ^ k + e) = q * 2 ^ k := by
  have hlo : 2 ^ (52 + k) ≤ q * 2 ^ k + e := by
    rw [pow_add]
    exact (Nat.mul_le_mul_right _ h1).trans (Nat.le_add_right _ _)
  have hhi : q * 2 ^ k + e < 2 ^ (52 + k + 1) := by
    have hmul : (q + 1) * 2 ^ k ≤ 2 ^ 53 * 2 ^ k := Nat.mul_le_mul_right _ h2
    rw [show 52 + k + 1 = 53 + k by omega, pow_add]
    rw [Nat.add_mul] at hmul
    omega
  have hlog : (q * 2 ^ k + e).log2 = 52 + k := by
    refine Nat.le_antisymm ?_ ((Nat.le_log2 (by omega)).mpr hlo)
    exact Nat.lt_succ_iff.mp ((Nat.log2_lt (by omega)).mpr hhi)
  by_cases hk : q * 2 ^ k + e ≤ 2 ^ 53
  · -- the last place is the unit, or the number is the power of two itself
    have h0 : e = 0 := by
      by_contra hne
      have hk1 : 2 ^ 2 ≤ 2 ^ k := by
        refine Nat.pow_le_pow_right (by decide) ?_
        by_contra hk2
        have : k = 0 ∨ k = 1 := by omega
        rcases this with rfl | rfl <;> omega
      have := Nat.mul_le_mul h1 hk1
      omega
    rw [h0, Nat.add_zero]
    exact roundNat_mul k (le_of_lt h2)
  · rw [roundNat, if_neg hk, hlog, Nat.add_sub_cancel_left, halfEven_add he]

/-- below `2^(53 + k)` a number is rounded by `2^k / 2` at most -/
theorem roundNat_near {k : Nat} (h : n < 2 ^ (53 + k)) :
    2 * roundNat n ≤ 2 * n + 2 ^ k ∧ 2 * n ≤ 2 * roundNat n + 2 ^ k := by
  by_cases hn : n ≤ 2 ^ 53
  · rw [show roundNat n = n from if_pos hn]
    exact ⟨Nat.le_add_right _ _, Nat.le_add_right _ _⟩
  · have hlog : n.log2 < 53 + k := (Nat.log2_lt (by omega)).mpr h
    have hle : 2 ^ (n.log2 - 52) ≤ 2 ^ k := Nat.pow_le_pow_right (by decide) (by omega)
    have hnear := halfEven_near n (Nat.two_pow_pos (n.log2 - 52))
    rw [roundNat, if_neg hn]
    omega

end

def round (n : Int) : Int := n.sign * roundNat n.natAbs

theorem round_of_le {n : Int} (h : n.natAbs ≤ 2 ^ 53) : round n = n := by
  rw [round, roundNat, if_pos h]
  exact Int.sign_mul_natAbs n

theorem round_natCast (n : Nat) : round n = roundNat n := by
  rw [round, Int.natAbs_natCast]
  rcases Nat.eq_zero_or_pos n with rfl | h
  · decide
  · rw [Int.sign_eq_one_of_pos (Int.natCast_pos.mpr h), one_mul]

theorem round_neg (n : Int) : round (-n) = -round n := by
  rw [round, round, Int.sign_neg, Int.natAbs_neg, neg_mul]

theorem round_nonneg {n : Int} (h : 0 ≤ n) : 0 ≤ round n := by
  obtain ⟨k, rfl⟩ := Int.eq_ofNat_of_zero_le h
  rw [round_natCast]
  exact Int.natCast_nonneg _

theorem round_mono {a b : Int} (h : a ≤ b) : round a ≤ round b := by
  have hpos : ∀ {a b : Int}, 0 ≤ a → a ≤ b → round a ≤ round b := by
    intro a b ha h
    obtain ⟨x, rfl⟩ := Int.eq_ofNat_of_zero_le ha
    obtain ⟨y, rfl⟩ := Int.eq_ofNat_of_zero_le (ha.trans h)
    rw [round_natCast, round_natCast]
    exact Int.ofNat_le.mpr (roundNat_mono (Int.ofNat_le.mp h))
  rcases le_total 0 a with ha | ha
  · exact hpos ha h
  · rcases le_total 0 b with hb | hb
    · have hna := round_nonneg (neg_nonneg.mpr ha)
      rw [round_neg] at hna
      exact (neg_nonneg.mp hna).trans (round_nonneg hb)
    · have hneg := hpos (neg_nonneg.mpr hb) (neg_le_neg h)
      rw [round_neg, round_neg] at hneg
      exact neg_le_neg_iff.mp hneg

theorem round_le_iff (n : Int) {a : Int} (ha : a.natAbs < 2 ^ 53) : round n ≤ a ↔ n ≤ a := by
  constructor
  · intro h
    by_contra hn
    have hlt := round_mono (show a + 1 ≤ n by omega)
    rw [round_of_le (show (a + 1).natAbs ≤ 2 ^ 53 by omega)] at hlt
    omega
  · intro h
    exact (round_mono h).trans (round_of_le (le_of_lt ha)).le

theorem round_pos (n : Int) : 0 < round n ↔ 0 < n := by
  have h := round_le_iff n (a := 0) (by decide)
  omega

/-! ## strings -/

/-- mantissa and exponent, with fourteen significant digits and no zeros at the end -/
def printSci (n : Nat) : String :=
  let x := (Nat.toDigits 10 n).length - 1
  let m := halfEven n (10 ^ (x - 13))
  let ds := ((Nat.toDigits 10 m).reverse.dropWhile (· = '0')).reverse
  let x := if m = 10 ^ 14 then x + 1 else x
  String.ofList (ds.take 1) ++ (if ds.length ≤ 1 then "" else "." ++ String.ofList (ds.drop 1)) ++
    "e+" ++ itoa x

def print (n : Int) : String :=
  if n.natAbs < 100000000000000 then itoa n
  else if n < 0 then "-" ++ printSci n.natAbs
  else printSci n.natAbs

theorem print_of_lt {n : Int} (h : n.natAbs < 100000000000000) : print n = itoa n := if_pos h

/-- an integer that `printSci` has printed -/
def parseSci (cs : List Char) : Option Nat :=
  let man := cs.takeWhile (· ≠ 'e')
  let int := man.takeWhile (· ≠ '.')
  let frac := man.drop (int.length + 1)
  match cs.drop man.length with
  | 'e' :: '+' :: ex =>
    (digits (int ++ frac)).bind fun m => (digits ex).bind fun x =>
      if frac.length ≤ x then some (m * 10 ^ (x - frac.length)) else none
  | _ => none

def readSci (s : String) : Option Int :=
  match s.toList with
  | '-' :: cs => (parseSci cs).map fun n => -(n : Int)
  | cs => (parseSci cs).map fun n => (n : Int)

def read (s : String) : Option Int := ((parse s).or (readSci s)).map round

theorem read_itoa (n : Int) : read (itoa n) = some (round n) := by
  rw [read, parse_itoa]
  rfl

example : print 100000000000000 = "1e+14" ∧ read "1e+14" = some 100000000000000 ∧
    print (-123456789012345678) = "-1.2345678901235e+17" ∧
    read "9007199254740993" = some 9007199254740992 := by decide +kernel

end Double
