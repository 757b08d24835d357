import GoSchedule.Lib.Double

/-!
# The numbers that the Redis server compares

The scores of a sorted set and the numbers of the scripts are doubles, which hold integers up to `2^53`
exactly; the nanoseconds of the present day are 256 apart.

* `Scores`          what a server keeps of an integer that it is sent as a score.  It keeps the order, but
  two integers may get one score;
* `Scores.exact`    a server with exact scores;  `Scores.double`   the server itself;
* `nanos`           the time of `recoverStaleScript`, which is computed from the seconds and microseconds
  that TIME returns: `nanos_mono_double`, a later clock never gives an earlier time.
-/

namespace GS.Redis
open Double (roundNat roundNat_mono roundNat_mul roundNat_add roundNat_near roundNat_bits roundNat_roundNat)

/-- `tonumber(t[1]) * 1000000000 + tonumber(t[2]) * 1000`, with the rounding `f` after each operation; the
second product is exact -/
def nanos (f : Int → Int) (clock : Int) : Int :=
  f (f (clock / 1000000000 * 1000000000) + clock % 1000000000 / 1000 * 1000)

structure Scores where
  ofInt : Int → Int
  mono : ∀ {a b : Int}, a ≤ b → ofInt a ≤ ofInt b
  small : ∀ {n : Int}, n.natAbs ≤ 9007199254740992 → ofInt n = n
  nanos_mono : ∀ {c c' : Int}, 0 ≤ c → c ≤ c' → c' ≤ 9223372036854775807 → nanos ofInt c ≤ nanos ofInt c'

namespace Scores

def exact : Scores where
  ofInt := id
  mono := id
  small := fun _ => rfl
  nanos_mono := fun _ h _ => by
    unfold nanos
    simp only [id_eq]
    omega

/-- only a positive integer has a positive score -/
theorem one_le_iff (ρ : Scores) (n : Int) : 1 ≤ ρ.ofInt n ↔ 1 ≤ n := by
  have h0 : ρ.ofInt 0 = 0 := ρ.small (by decide)
  have h1 : ρ.ofInt 1 = 1 := ρ.small (by decide)
  constructor
  · intro h
    by_contra hn
    have hle := ρ.mono (show n ≤ 0 by omega)
    omega
  · intro h
    have hle := ρ.mono h
    omega

end Scores

/-! ## the clock in doubles -/

/-- multiples of 512, such as whole seconds, are exact for a long time -/
theorem roundNat_of_dvd {a : Nat} (ha : 512 ∣ a) (h : a ≤ 2 ^ 62) : roundNat a = a := by
  obtain ⟨q, rfl⟩ := ha
  have hq : q ≤ 2 ^ 53 := by linarith
  rw [Nat.mul_comm]
  exact roundNat_mul 9 hq

/-- the last microsecond of a second is not after the next second -/
theorem next_second {a u : Nat} (ha : 512 ∣ a) (h : a + 1000000000 < 2 ^ 63) (hu : u ≤ 999999000) :
    roundNat (roundNat a + u) ≤ roundNat (a + 1000000000) := by
  set m := a + 1000000000 with hm
  by_cases h62 : m ≤ 2 ^ 62
  · rw [roundNat_of_dvd ha (by omega)]
    exact roundNat_mono (by omega)
  · -- both seconds may be rounded, by 512 at most, but the result is a multiple of 1024 again
    have hlog : m.log2 = 62 := by
      refine Nat.le_antisymm ?_ ((Nat.le_log2 (by omega)).mpr (by omega))
      exact Nat.lt_succ_iff.mp ((Nat.log2_lt (by omega)).mpr h)
    obtain ⟨q, hr, h1, h2⟩ := roundNat_bits (show 2 ^ 53 < m by omega)
    rw [hlog] at hr
    have hm' := (roundNat_near (n := m) (k := 10) h).2
    have ha' := (roundNat_near (n := a) (k := 10) (lt_of_le_of_lt (Nat.le_add_right _ _) h)).1
    have hle : roundNat a + u ≤ q * 2 ^ 10 + 24 := by omega
    rw [hr]
    refine (roundNat_mono hle).trans (le_of_eq ?_)
    rcases Nat.lt_or_eq_of_le h2 with h2 | h2
    · exact roundNat_add h1 h2 (by decide)
    · have e : q * 2 ^ 10 = 2 ^ 52 * 2 ^ 11 := by omega
      rw [e]
      exact roundNat_add (le_refl _) (by decide) (by decide)

theorem nanos_natCast (c : Nat) : nanos Double.round c =
    roundNat (roundNat (c / 1000000000 * 1000000000) + c % 1000000000 / 1000 * 1000) := by
  rw [← Double.round_natCast]
  push_cast
  rw [← Double.round_natCast]
  push_cast
  rfl

theorem nanos_mono_double {c c' : Int} (h0 : 0 ≤ c) (h : c ≤ c') (hmax : c' ≤ 9223372036854775807) :
    nanos Double.round c ≤ nanos Double.round c' := by
  have hmicros : ∀ n : Nat, n % 1000000000 / 1000 * 1000 ≤ 999999000 := fun n => by omega
  obtain ⟨a, rfl⟩ := Int.eq_ofNat_of_zero_le h0
  obtain ⟨b, rfl⟩ := Int.eq_ofNat_of_zero_le (h0.trans h)
  rw [nanos_natCast, nanos_natCast]
  refine Int.ofNat_le.mpr ?_
  rcases Nat.lt_or_eq_of_le (show a / 1000000000 ≤ b / 1000000000 by omega) with hlt | heq
  · have hdvd : 512 ∣ a / 1000000000 * 1000000000 := Dvd.dvd.mul_left (by decide) _
    have hnext : a / 1000000000 * 1000000000 + 1000000000 ≤ b / 1000000000 * 1000000000 := by
      rw [← Nat.succ_mul]
      exact Nat.mul_le_mul_right _ hlt
    have hlast : a / 1000000000 * 1000000000 + 1000000000 < 2 ^ 63 :=
      lt_of_le_of_lt (hnext.trans (Nat.div_mul_le_self _ _)) (by omega)
    calc roundNat (roundNat (a / 1000000000 * 1000000000) + a % 1000000000 / 1000 * 1000)
        ≤ roundNat (a / 1000000000 * 1000000000 + 1000000000) := next_second hdvd hlast (hmicros a)
      _ = roundNat (roundNat (a / 1000000000 * 1000000000 + 1000000000)) := (roundNat_roundNat _).symm
      _ ≤ roundNat (roundNat (b / 1000000000 * 1000000000) + b % 1000000000 / 1000 * 1000) :=
        roundNat_mono ((roundNat_mono hnext).trans (Nat.le_add_right _ _))
  · rw [heq]
    exact roundNat_mono (by omega)

def Scores.double : Scores where
  ofInt := Double.round
  mono := Double.round_mono
  small := Double.round_of_le
  nanos_mono := nanos_mono_double

/-- an instant of the present day, 100 ns after a whole second -/
example : Scores.double.ofInt 1767225600000000100 = 1767225600000000000 := by decide +kernel

end GS.Redis
