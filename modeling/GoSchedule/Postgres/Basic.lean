import GoSchedule.Recurring.Finish

/-!
# The Postgres store: columns and the statements on recurring schedules

* `pgTime`   what a `timestamptz` column keeps of an instant: whole microseconds;
* `storedJob`, `storedSpec`   a record as its row gives it back: times are cut, and there is no column
  for `Delivery`;
* `upsertRecurring`, `acquireLease`, `updateRecurringNextRun`, `deleteRecurring`   the statements on the
  table `recurring`; `now` is the `now()` of the server;
* `advance_coarse`   two fires of a schedule never share a microsecond, unless it is an interval below
  one.
-/

namespace GS.Postgres
open Recurring

def pgTime (t : Time) : Time := t - t % 1000

theorem pgTime_le (t : Int) : pgTime t ≤ t := by
  show t - t % 1000 ≤ t
  omega

theorem pgTime_pgTime (t : Int) : pgTime (pgTime t) = pgTime t := by
  show t - t % 1000 - (t - t % 1000) % 1000 = t - t % 1000
  omega

theorem pgTime_of_second {t : Int} (h : t % 1000000000 = 0) : pgTime t = t := by
  show t - t % 1000 = t
  omega

/-! ## rows -/

/-- a job as its row gives it back, with the defaults of `Save` -/
def storedJob (j : Job) : Job :=
  { j with
    state := if j.state = 0 then statePending else j.state,
    maxAttempts := if j.maxAttempts = 0 then 3 else j.maxAttempts,
    runAt := pgTime j.runAt, lockedUntil := pgTime j.lockedUntil,
    createdAt := pgTime j.createdAt, updatedAt := pgTime j.updatedAt,
    delivery := 0, catchup := false }

def storedSpec (spec : RecurringSpec) : RecurringSpec :=
  { spec with
    nextRunAt := pgTime spec.nextRunAt, lastFireAt := pgTime spec.lastFireAt,
    leaseUntil := pgTime spec.leaseUntil, delivery := 0 }

/-- a row that exists keeps its lease -/
def upsertRecurring (rows : List RecurringSpec) (spec : RecurringSpec) : List RecurringSpec :=
  if ∃ r ∈ rows, r.id = spec.id then
    rows.map fun r => if r.id = spec.id then
      { storedSpec spec with leaseUntil := r.leaseUntil, leasedBy := r.leasedBy } else r
  else rows ++ [storedSpec spec]

/-- a lease can be taken if there is none, if it has run out, or if it is the worker's own -/
def Free (now : Time) (workerID : String) (r : RecurringSpec) : Prop :=
  r.leaseUntil = zeroTime ∨ r.leaseUntil < now ∨ r.leasedBy = workerID

instance (now : Time) (workerID : String) : DecidablePred (Free now workerID) := fun _ =>
  inferInstanceAs (Decidable (_ ∨ _))

/-- a spec that has no row counts as acquired -/
def acquireLease (specID : JobID) (leaseUntil : Time) (workerID : String) (now : Time)
    (rows : List RecurringSpec) : List RecurringSpec × Bool :=
  if ∃ r ∈ rows, r.id = specID ∧ Free now workerID r then
    (rows.map fun r => if r.id = specID ∧ Free now workerID r then
      { r with leaseUntil := pgTime leaseUntil, leasedBy := workerID } else r, true)
  else (rows, decide (¬ ∃ r ∈ rows, r.id = specID))

def updateRecurringNextRun (id : JobID) (nextRunAt lastFireAt : Time) (rows : List RecurringSpec) :
    List RecurringSpec :=
  rows.map fun r => if r.id = id then
    { r with nextRunAt := pgTime nextRunAt, lastFireAt := pgTime lastFireAt } else r

def deleteRecurring (id : JobID) (rows : List RecurringSpec) : List RecurringSpec :=
  rows.filter fun r => r.id ≠ id

/-- a lease changes no fire time -/
theorem mem_acquireLease {specID : JobID} {leaseUntil now : Time} {workerID : String}
    {rows : List RecurringSpec} {r : RecurringSpec}
    (h : r ∈ (acquireLease specID leaseUntil workerID now rows).1) :
    ∃ r₀ ∈ rows, r₀.id = r.id ∧ r₀.nextRunAt = r.nextRunAt := by
  unfold acquireLease at h
  split at h
  · obtain ⟨r₀, hr₀, e⟩ := List.mem_map.mp h
    refine ⟨r₀, hr₀, ?_⟩
    rw [← e]
    split <;> exact ⟨rfl, rfl⟩
  · exact ⟨r, h, rfl, rfl⟩

theorem mem_updateRecurringNextRun {id : JobID} {next last : Time} {rows : List RecurringSpec}
    {r : RecurringSpec} (h : r ∈ updateRecurringNextRun id next last rows) :
    r.id = id ∧ r.nextRunAt = pgTime next ∨ r.id ≠ id ∧ r ∈ rows := by
  obtain ⟨r₀, hr₀, e⟩ := List.mem_map.mp h
  by_cases hid : r₀.id = id
  · rw [if_pos hid] at e
    rw [← e]
    exact Or.inl ⟨hid, rfl⟩
  · rw [if_neg hid] at e
    rw [← e]
    exact Or.inr ⟨hid, hr₀⟩

theorem aligned_upsert {rows : List RecurringSpec} {spec : RecurringSpec}
    (h : ∀ r ∈ rows, pgTime r.nextRunAt = r.nextRunAt) :
    ∀ r ∈ upsertRecurring rows spec, pgTime r.nextRunAt = r.nextRunAt := by
  intro r hr
  unfold upsertRecurring at hr
  split at hr
  · obtain ⟨r₀, hr₀, e⟩ := List.mem_map.mp hr
    rw [← e]
    split
    · exact pgTime_pgTime _
    · exact h r₀ hr₀
  · rcases List.mem_append.mp hr with hr | hr
    · exact h r hr
    · rw [List.mem_singleton.mp hr]
      exact pgTime_pgTime _

/-! ## the fires of a schedule -/

def microsecond : Duration := 1000

/-- every move passes a microsecond, or every fire is a whole one -/
def Coarse (adv : Time → Time) : Prop :=
  (∀ t, pgTime t < pgTime (adv t)) ∨ ∀ t, pgTime (adv t) = adv t

theorem pgTime_lt_add {t d : Int} (h : 1000 ≤ d) : pgTime t < pgTime (t + d) := by
  show t - t % 1000 < t + d - (t + d) % 1000
  omega

theorem pgTime_lt_constantDelay (delay : Duration) (h : second ≤ delay) (t : Time) :
    pgTime t < pgTime ((Schedule.constantDelay delay h).next t) := by
  have hm0 : 0 ≤ t % 1000000000 := Int.emod_nonneg t (by decide)
  have hm1 : t % 1000000000 < 1000000000 := Int.emod_lt_of_pos t (by decide)
  have hd : (1000000000 : Int) ≤ delay.toInt := Int64.le_iff_toInt_le.mp h
  have hmax : delay.toInt ≤ 9223372036854775807 := Int64.toInt_le delay
  have e : (Int64.ofInt (t % 1000000000)).toInt = t % 1000000000 :=
    Int64.toInt_ofInt_of_le (le_trans (by decide) hm0) (lt_trans hm1 (by decide))
  have es : (delay - Int64.ofInt (t % 1000000000)).toInt = delay.toInt - t % 1000000000 := by
    rw [Int64.toInt_sub, e]
    exact Int.bmod_eq_of_le (by omega) (by omega)
  have hkey : ∀ (a b : Int), 1000000000 ≤ b → a - a % 1000 <
      a + (b - a % 1000000000) - (a + (b - a % 1000000000)) % 1000 := by
    intro a b hb
    omega
  have en : (Schedule.constantDelay delay h).next t = t + (delay.toInt - t % 1000000000) :=
    congrArg (t + ·) es
  rw [en]
  exact hkey t delay.toInt hd

theorem advance_coarse (parse : String → Except String Schedule) {spec : RecurringSpec}
    (h : 0 < spec.every → microsecond ≤ spec.every) : Coarse (advance parse spec) := by
  by_cases hS : ∃ S, UsesFields parse spec S
  · obtain ⟨S, hS⟩ := hS
    rw [advance_fields hS]
    exact Or.inr fun t => pgTime_of_second (S.next_second t)
  · refine Or.inl fun t => ?_
    have hhour : pgTime t < pgTime (t.add hour) := pgTime_lt_add (by decide)
    unfold advance
    split
    · exact pgTime_lt_add (Int64.le_iff_toInt_le.mp (h ‹_›))
    · rename_i h0
      split
      · rename_i hc
        split
        · exact hhour
        · rename_i sched hp
          cases sched with
          | spec S => exact absurd ⟨S, Int64.not_lt.mp h0, hc, hp⟩ hS
          | constantDelay delay hd => exact pgTime_lt_constantDelay delay hd t
      · exact hhour

theorem Coarse.lt {adv : Time → Time} (h : Coarse adv) {t : Time} (ht : t < adv t) :
    pgTime t < pgTime (adv t) := by
  rcases h with h | h
  · exact h t
  · rw [h t]
    exact lt_of_le_of_lt (pgTime_le t) ht

section
variable {parse : String → Except String Schedule} {spec : RecurringSpec} {now : Time}

/-- each fire of a catch-up is in a later microsecond than the one before -/
theorem catchupLoop_pairwise (hc : Coarse (advance parse spec)) (i : Nat) (last : Time) :
    (last :: catchupLoop parse spec now i last).Pairwise (fun a b => pgTime a < pgTime b) := by
  induction i generalizing last with
  | zero => exact List.pairwise_singleton _ _
  | succ i ih =>
    unfold catchupLoop
    dsimp only
    split
    · exact List.pairwise_singleton _ _
    · rename_i h1
      split
      · exact List.pairwise_singleton _ _
      · have hlt := hc.lt (not_le.mp h1)
        have hp := ih (advance parse spec last)
        refine List.pairwise_cons.mpr ⟨fun f hf => ?_, hp⟩
        rcases List.mem_cons.mp hf with rfl | hf
        · exact hlt
        · exact lt_trans hlt (List.rel_of_pairwise_cons hp hf)

/-- the loop of `nextAfter` ends in a later microsecond than any fire it starts from -/
theorem lt_loop (hc : Coarse (advance parse spec)) {fuel : Nat} {last next : Time} (hl : last ≤ now)
    (h : Loop.loop (advance parse spec) (fun t => decide (now < t)) fuel (advance parse spec last) =
      some next) : pgTime last < pgTime next := by
  rcases hc with hc | hc
  · exact Loop.loop_keep (P := fun t => pgTime last < pgTime t) (fun t ht => lt_trans ht (hc t))
      (hc last) h
  · have hstop := Loop.loop_sound h
    have hnow : now < next := of_decide_eq_true hstop
    have halign : pgTime next = next :=
      Loop.loop_keep (P := fun t => pgTime t = t) (fun t _ => hc t) (hc last) h
    rw [halign]
    exact lt_of_le_of_lt (pgTime_le last) (lt_of_le_of_lt hl hnow)

/-- the next fire is in a later microsecond than the fires of the round -/
theorem catchupLoop_lt_loop (hc : Coarse (advance parse spec)) (i fuel : Nat) {last next : Time}
    (hl : last ≤ now)
    (h : Loop.loop (advance parse spec) (fun t => decide (now < t)) fuel (advance parse spec last) =
      some next) : ∀ f ∈ last :: catchupLoop parse spec now i last, pgTime f < pgTime next := by
  induction i generalizing last fuel with
  | zero =>
    intro f hf
    rw [List.mem_singleton.mp hf]
    exact lt_loop hc hl h
  | succ i ih =>
    intro f hf
    rcases List.mem_cons.mp hf with rfl | hf
    · exact lt_loop hc hl h
    · unfold catchupLoop at hf
      dsimp only at hf
      split at hf
      · cases hf
      · split at hf
        · cases hf
        · rename_i h2
          cases fuel with
          | zero => simp [Loop.loop, h2] at h
          | succ fuel => exact ih fuel (not_lt.mp h2) (by simpa [Loop.loop, h2] using h) f hf

theorem computeFires_spec (hc : Coarse (advance parse spec)) (hdue : spec.nextRunAt ≤ now) :
    (computeFires parse spec now).Pairwise (fun a b => pgTime a < pgTime b) ∧
      (∀ f ∈ computeFires parse spec now, pgTime spec.nextRunAt ≤ pgTime f) ∧
      ∀ fuel next, nextAfter parse fuel spec now = some next →
        ∀ f ∈ computeFires parse spec now, pgTime f < pgTime next := by
  have hpair : (computeFires parse spec now).Pairwise (fun a b => pgTime a < pgTime b) := by
    unfold computeFires
    split
    · exact catchupLoop_pairwise hc _ _
    · exact List.pairwise_singleton _ _
  refine ⟨hpair, fun f hf => ?_, fun fuel next h f hf => ?_⟩
  · rcases List.mem_cons.mp hf with rfl | hf'
    · exact le_rfl
    · exact le_of_lt (List.rel_of_pairwise_cons hpair hf')
  · unfold computeFires at hf
    split at hf
    · exact catchupLoop_lt_loop hc _ _ hdue h f hf
    · rw [List.mem_singleton.mp hf]
      exact lt_loop hc hdue h

end
end GS.Postgres
