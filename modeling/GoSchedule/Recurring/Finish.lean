import GoSchedule.Recurring.Basic

/-!
# When a round of the recurring runner comes to an end

`computeFires` stops at `maxCatchup` and at an `advance` that does not advance; the loop of
`nextAfter` does neither.

* `lt_advance`      an interval, a constant delay, an expression that no longer parses and a spec
  with neither move strictly forward;
* `Covered`         at every instant from the stored fire up to `now`, the expression has a match in
  the five years after it;
* `tickSpec_finishes_iff`   a round ends exactly if the spec moves strictly forward or is `Covered`;
* `february30_hangs`   `Cron` accepts an expression that never matches, and no round on it ends.
-/

namespace GS.Recurring
open Loop

section
variable (parse : String → Except String Schedule)

/-- `advance` uses the cron fields `S` -/
def UsesFields (spec : RecurringSpec) (S : SpecSchedule) : Prop :=
  spec.every ≤ 0 ∧ spec.cron ≠ "" ∧ parse spec.cron = .ok (.spec S)

variable {parse}

theorem advance_fields {spec : RecurringSpec} {S : SpecSchedule} (h : UsesFields parse spec S) :
    advance parse spec = S.next := by
  obtain ⟨h1, h2, h3⟩ := h
  funext t
  have h0 : ¬ 0 < spec.every := Int64.not_lt.mpr h1
  simp [advance, h0, h2, h3, Schedule.next]

theorem lt_advance {spec : RecurringSpec} (h : ∀ S, ¬ UsesFields parse spec S) (t : Time) :
    t < advance parse spec t := by
  have hh : t < t.add hour := Time.lt_add (by decide)
  unfold advance
  split
  · exact Time.lt_add ‹_›
  · rename_i h0
    split
    · rename_i hc
      split
      · exact hh
      · rename_i sched hp
        cases sched with
        | spec S => exact absurd ⟨Int64.not_lt.mp h0, hc, hp⟩ (h S)
        | constantDelay delay hd => exact lt_constantDelay_next delay hd t
    · exact hh

end

/-- from the stored fire `r` (but not before the zero time) up to `now`, there is always a match in
the next five years -/
def Covered (S : SpecSchedule) (r now : Time) : Prop :=
  ∀ t, r ≤ t → zeroTime ≤ t → t ≤ now → S.Ahead t

/-- a loop that moves strictly forward from `r` on passes `now` -/
theorem halts_of_lt {adv : Int → Int} {r now : Int}
    (h : ∀ t, r ≤ t → t ≤ now → t < adv t) {x : Int} (hx : r ≤ x) :
    Halts adv (fun t => decide (now < t)) x := by
  refine halts_of_measure (I := fun t => r ≤ t) (fun t => (now + 1 - t).toNat) ?_ hx
  intro t ht hs
  have hle : t ≤ now := not_lt.mp (of_decide_eq_false hs)
  have hlt := h t ht hle
  refine ⟨le_trans ht (le_of_lt hlt), ?_⟩
  show (now + 1 - adv t).toNat < (now + 1 - t).toNat
  omega

theorem lt_next_of_covered {S : SpecSchedule} {r now t : Time} (h : Covered S r now)
    (hr : r ≤ t) (hn : t ≤ now) : t < S.next t := by
  by_cases ha : S.Ahead t
  · exact S.lt_next ha
  · rw [S.next_zero t ha]
    exact not_le.mp fun hz => ha (h t hr hz hn)

theorem halts_of_covered {S : SpecSchedule} {r now : Time} (h : Covered S r now) (hr : r ≤ now) :
    Halts S.next (fun t => decide (now < t)) (S.next r) :=
  halts_of_lt (r := r) (fun _ h1 h2 => lt_next_of_covered h h1 h2)
    (le_of_lt (lt_next_of_covered h le_rfl hr))

theorem covered_of_halts {S : SpecSchedule} {r now : Time}
    (h : Halts S.next (fun t => decide (now < t)) (S.next r)) : Covered S r now := by
  intro t hr hz hn
  by_contra ha
  refine not_halts_of_trap (I := fun x => x ≤ t) ?_ (S.next_le_of_not_ahead hz ha hr) h
  intro x hx
  exact ⟨decide_eq_false (not_lt.mpr (le_trans hx hn)), S.next_le_of_not_ahead hz ha hx⟩

section
variable (parse : String → Except String Schedule)

/-- the round on `spec` at `now` comes to an end -/
def Finishes (uuid : Nat → JobID) (s : Mem.Store) (spec : RecurringSpec) (now : Time) : Prop :=
  ∃ fuel s', tickSpec parse uuid fuel now s spec = some s'

theorem finishes_iff_halts {uuid : Nat → JobID} {s : Mem.Store} {spec : RecurringSpec} {now : Time}
    (h : spec.nextRunAt ≤ now) : Finishes parse uuid s spec now ↔
      Halts (advance parse spec) (fun t => decide (now < t))
        (advance parse spec spec.nextRunAt) := by
  simp only [Finishes, tickSpec, if_neg (not_lt.mpr h), Option.map_eq_some_iff, nextAfter, Halts]
  constructor
  · intro ⟨n, _, y, e, _⟩
    exact ⟨n, y, e⟩
  · intro ⟨n, y, e⟩
    exact ⟨n, _, y, e, rfl⟩

/-- **A round ends exactly if the cron fields that it uses are covered.** -/
theorem tickSpec_finishes_iff (uuid : Nat → JobID) (s : Mem.Store) (spec : RecurringSpec)
    (now : Time) : Finishes parse uuid s spec now ↔
      ∀ S, UsesFields parse spec S → Covered S spec.nextRunAt now := by
  rcases lt_or_ge now spec.nextRunAt with hnow | hnow
  · refine ⟨fun _ S _ t h1 _ h2 => absurd (le_trans h1 h2) (not_le.mpr hnow), fun _ => ?_⟩
    exact ⟨0, s, if_pos hnow⟩
  · rw [finishes_iff_halts parse hnow]
    constructor
    · intro h S hS
      rw [advance_fields hS] at h
      exact covered_of_halts h
    · intro h
      by_cases hS : ∃ S, UsesFields parse spec S
      · obtain ⟨S, hS⟩ := hS
        rw [advance_fields hS]
        exact halts_of_covered (h S hS) hnow
      · have hlt := lt_advance (not_exists.mp hS)
        exact halts_of_lt (r := spec.nextRunAt) (fun t _ _ => hlt t) (le_of_lt (hlt _))

end

/-! ## an expression that never matches -/

def never : SpecSchedule where
  isMatch := fun _ => False
  horizon := fun t => t + 157680000000000000
  next := fun _ => zeroTime
  isMatch_second := fun _ h => h.elim
  horizon_mono := fun _ _ h => Int.add_le_add_right h _
  next_first := fun _ ⟨_, h, _⟩ => h.elim
  next_zero := fun _ _ => rfl

/-- a parser that knows one expression, the thirtieth of February -/
def parseFebruary30 (expr : String) : Except String Schedule :=
  if expr = "0 0 30 2 *" then .ok (.spec never) else .error "unknown"

/-- what `Cron` stores for the thirtieth of February -/
def february30 : RecurringSpec :=
  { id := "spec", name := "job", queue := "default", priority := priorityNormal, maxAttempts := 3,
    cron := "0 0 30 2 *", nextRunAt := zeroTime }

/-- `Cron` accepts the expression and stores the spec, whose round at time `0` never ends -/
theorem february30_hangs :
    (∃ s, oneHandler.cron parseFebruary30 0 "0 0 30 2 *" "spec" Mem.Store.new "job" [] [] =
        .ok (s, "spec", [.enqueue "spec" "job" "default"]) ∧ s.recurring = [february30]) ∧
      ∀ uuid s fuel, tickSpec parseFebruary30 uuid fuel 0 s february30 = none := by
  refine ⟨⟨_, rfl, rfl⟩, fun uuid s fuel => ?_⟩
  have hu : UsesFields parseFebruary30 february30 never := ⟨by decide, by decide, rfl⟩
  have hn : ¬ Finishes parseFebruary30 uuid s february30 0 := by
    rw [finishes_iff_halts _ (by decide), advance_fields hu]
    intro h
    obtain ⟨_, hm, _⟩ := covered_of_halts h 0 (by decide) (by decide) le_rfl
    exact hm
  cases e : tickSpec parseFebruary30 uuid fuel 0 s february30 with
  | none => rfl
  | some s' => exact absurd ⟨fuel, s', e⟩ hn

end GS.Recurring
