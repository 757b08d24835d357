import GoSchedule.Types

/-!
# The schedules of the cron library

`recurring.go` uses `cron.ParseStandard` and `Schedule.Next` of `robfig/cron`.  The library is not
part of the repository; what is assumed of it are the fields of `SpecSchedule`.

* `SpecSchedule`   a schedule of cron fields: `next t` is the first matching instant after `t`, or
  the zero time if none matches up to `horizon t`, the end of the five years that are searched, and
  what matches are whole seconds;
* `Schedule`       such a schedule, or the constant delay of `@every`.
-/

namespace GS

structure SpecSchedule where
  isMatch : Time → Prop
  horizon : Time → Time
  next : Time → Time
  isMatch_second : ∀ u, isMatch u → u % 1000000000 = 0
  horizon_mono : Monotone horizon
  next_first : ∀ t, (∃ u, isMatch u ∧ t < u ∧ u ≤ horizon t) →
    IsLeast {u | isMatch u ∧ t < u} (next t)
  next_zero : ∀ t, (¬ ∃ u, isMatch u ∧ t < u ∧ u ≤ horizon t) → next t = zeroTime

def second : Duration := 1000000000

inductive Schedule where
  | spec (s : SpecSchedule)
  | constantDelay (delay : Duration) (h : second ≤ delay)

/-- a constant delay counts from the last full second -/
def Schedule.next : Schedule → Time → Time
  | .spec s, t => s.next t
  | .constantDelay delay _, t => t.add (delay - Int64.ofInt (t % 1000000000))

theorem Time.lt_add {t : Time} {d : Duration} (h : 0 < d) : t < t.add d := by
  have h1 : (0 : Int64).toInt < d.toInt := Int64.lt_iff_toInt_lt.mp h
  exact Int.lt_add_of_pos_right t h1

theorem lt_constantDelay_next (delay : Duration) (h : second ≤ delay) (t : Time) :
    t < (Schedule.constantDelay delay h).next t := by
  have hm0 : 0 ≤ t % 1000000000 := Int.emod_nonneg t (by decide)
  have hm1 : t % 1000000000 < 1000000000 := Int.emod_lt_of_pos t (by decide)
  have e : (Int64.ofInt (t % 1000000000)).toInt = t % 1000000000 :=
    Int64.toInt_ofInt_of_le (le_trans (by decide) hm0) (lt_trans hm1 (by decide))
  have hlt : Int64.ofInt (t % 1000000000) < second :=
    Int64.lt_iff_toInt_lt.mpr (by rw [e]; exact hm1)
  have hle : (0 : Int64) ≤ Int64.ofInt (t % 1000000000) :=
    Int64.le_iff_toInt_le.mpr (by rw [e]; exact hm0)
  refine Time.lt_add ?_
  unfold second at h hlt
  grind

namespace SpecSchedule
variable (S : SpecSchedule)

/-- some instant in the five years after `t` matches -/
def Ahead (t : Time) : Prop := ∃ u, S.isMatch u ∧ t < u ∧ u ≤ S.horizon t

variable {S}

theorem lt_next {t : Time} (h : S.Ahead t) : t < S.next t := (S.next_first t h).1.2

theorem next_second (S : SpecSchedule) (t : Time) : S.next t % 1000000000 = 0 := by
  by_cases h : S.Ahead t
  · exact S.isMatch_second _ (S.next_first t h).1.1
  · rw [S.next_zero t h]
    decide

/-- no step of the schedule jumps over an instant that has no match ahead, except back to the
zero time -/
theorem next_le_of_not_ahead {t x : Time} (hz : zeroTime ≤ t) (h : ¬ S.Ahead t) (hx : x ≤ t) :
    S.next x ≤ t := by
  by_cases hx' : S.Ahead x
  · obtain ⟨u, hu, hxu, hle⟩ := hx'
    have hleast := S.next_first x ⟨u, hu, hxu, hle⟩
    by_contra hlt
    refine h ⟨S.next x, hleast.1.1, not_le.mp hlt, ?_⟩
    exact le_trans (hleast.2 ⟨hu, hxu⟩) (le_trans hle (S.horizon_mono hx))
  · rw [S.next_zero x hx']
    exact hz

end SpecSchedule
end GS
