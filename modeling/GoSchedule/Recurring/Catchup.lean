import GoSchedule.Recurring.Ticks

/-!
# Catch-up: is any fire lost?

A spec with an interval and catch-up, and rounds at times that do not go back.  The list of fires and
the next fire come from two loops; only the first one is bounded.

* `Complete spec s T`   the fires up to `T` were enqueued, each once;
* `InReach spec s e`    the round `e` comes before `maxCatchup + 1` further fires are due;
* `catchup_complete_iff`   **after every round nothing is missing, if and only if every round came in
  reach**;
* `long_outage_loses_a_fire`   a first round after 1001 intervals leaves one out for good.
-/

namespace GS.Recurring
open Orbit Trans

def Complete (spec : RecurringSpec) (s : Sys) (T : Time) : Prop :=
  ((s.fires spec.id).map Job.runAt).Nodup ∧
    ∀ x, x ∈ (s.fires spec.id).map Job.runAt ↔
      ∃ k : Nat, x = spec.nextRunAt + k * spec.every.toInt ∧ x ≤ T

def InReach (spec : RecurringSpec) (s : Sys) : Event → Prop
  | .tick _ _ now => ∀ cur ∈ s.store.recurring, cur.id = spec.id →
      now < cur.nextRunAt + (maxCatchup + 1 : Nat) * spec.every.toInt
  | .op _ => True

instance (spec : RecurringSpec) (s : Sys) : DecidablePred (InReach spec s)
  | .tick _ _ now => inferInstanceAs (Decidable (∀ cur ∈ s.store.recurring, cur.id = spec.id →
      now < cur.nextRunAt + (maxCatchup + 1 : Nat) * spec.every.toInt))
  | .op _ => isTrue trivial

/-- the times of the rounds -/
def times (es : List Event) : List Time :=
  es.filterMap fun e => match e with
    | .tick _ _ now => some now
    | .op _ => none

theorem times_append (l l' : List Event) : times (l ++ l') = times l ++ times l' :=
  List.filterMap_append

section
variable {parse : String → Except String Schedule} {spec : RecurringSpec}

theorem lt_advance_every (hd : 0 < spec.every) (t : Time) : t < advance parse spec t := by
  rw [advance_every hd]
  exact Time.lt_add hd

/-- the spec of a run is stored once -/
theorem Along.unique {s : Sys} {K : Nat} {idx : List Nat} (A : Along parse spec s K idx)
    {cur : RecurringSpec} (hc : cur ∈ s.store.recurring) (hid : cur.id = spec.id) :
    cur.nextRunAt = point parse spec K := by
  obtain ⟨last, hlast⟩ := A.stored
  have e : cur = atPoint parse spec K last :=
    List.inj_on_of_nodup_map A.distinct hc hlast hid
  rw [e]
  rfl

/-- points that many intervals apart -/
theorem point_add (hd : 0 < spec.every) (k n : Nat) :
    point parse spec (k + n) = point parse spec k + n * spec.every.toInt := by
  rw [point_every hd, point_every hd]
  push_cast
  ring

/-- a round that comes too late leaves a fire out -/
theorem incomplete_of_late (hd : 0 < spec.every) {s t : Sys} {K : Nat} {idx : List Nat}
    (A : Along parse spec s K idx) {uuid : JobID → Nat → JobID} {fuel : Nat} {now : Time}
    (h : step parse s (.tick uuid fuel now) = some t)
    (hlate : point parse spec (K + (maxCatchup + 1)) ≤ now) : ¬ Complete spec t now := by
  intro hcomplete
  have hmono : StrictMono (point parse spec) := strictMono (lt_advance_every hd) spec.nextRunAt
  have hmem : point parse spec (K + (maxCatchup + 1)) ∈ (t.fires spec.id).map Job.runAt :=
    (hcomplete.2 _).mpr ⟨_, point_every hd _, hlate⟩
  rcases A.tick (lt_advance_every hd) h with ⟨hlt, _⟩ | ⟨_, m, k, _, _, hm, A', _⟩
  · have hle := hmono.monotone (Nat.le_add_right K (maxCatchup + 1))
    exact absurd (lt_of_lt_of_le hlt hle) (not_lt.mpr hlate)
  · rw [A'.fires] at hmem
    obtain ⟨i, hi, e⟩ := List.mem_map.mp hmem
    have hi' : i = K + (maxCatchup + 1) := hmono.injective e
    subst hi'
    rcases List.mem_append.mp hi with hi | hi
    · have := A.below _ hi
      omega
    · obtain ⟨i, hi', e'⟩ := List.mem_map.mp hi
      have := List.mem_range.mp hi'
      omega

/-- the state of a run in which nothing was left out: all points before the next fire were enqueued,
and each was due at some round -/
structure Full (parse : String → Except String Schedule) (spec : RecurringSpec) (l : List Event)
    (s : Sys) (K : Nat) : Prop where
  along : Along parse spec s K (List.range K)
  due : ∀ i < K, ∃ τ ∈ times l, point parse spec i ≤ τ

theorem Full.tick (hc : spec.catchup = true) (hd : 0 < spec.every) {l : List Event} {s t : Sys}
    {K : Nat} (F : Full parse spec l s K) {uuid : JobID → Nat → JobID} {fuel : Nat} {now : Time}
    (h : step parse s (.tick uuid fuel now) = some t)
    (hreach : InReach spec s (.tick uuid fuel now)) :
    ∃ K', Full parse spec (l ++ [.tick uuid fuel now]) t K' ∧ now < point parse spec K' := by
  have hdue : ∀ i, (∃ τ ∈ times l, point parse spec i ≤ τ) ∨ point parse spec i ≤ now →
      ∃ τ ∈ times (l ++ [.tick uuid fuel now]), point parse spec i ≤ τ := by
    intro i hi
    rw [times_append]
    rcases hi with ⟨τ, hτ, hle⟩ | hle
    · exact ⟨τ, List.mem_append_left _ hτ, hle⟩
    · exact ⟨now, List.mem_append_right _ (List.mem_singleton.mpr rfl), hle⟩
  rcases F.along.tick (lt_advance_every hd) h with ⟨hlt, A⟩ | ⟨_, m, k, _, _, _, A, hlt, hle, hmk⟩
  · exact ⟨K, ⟨A, fun i hi => hdue i (Or.inl (F.due i hi))⟩, hlt⟩
  · -- the round came in reach, so the bound did not cut the fires
    have hk : k ≤ maxCatchup + 1 := by
      by_contra hgt
      obtain ⟨last, hlast⟩ := F.along.stored
      have hnow := hreach _ hlast rfl
      have hle' := hle (maxCatchup + 1) (not_le.mp hgt)
      rw [point_add hd] at hle'
      exact absurd hnow (not_lt.mpr hle')
    obtain rfl := hmk hc hk
    refine ⟨K + m, ⟨?_, fun i hi => ?_⟩, hlt⟩
    · rw [List.range_add]
      exact A
    · by_cases hiK : i < K
      · exact hdue i (Or.inl (F.due i hiK))
      · have hi' := hle (i - K) (by omega)
        rw [Nat.add_sub_cancel' (not_lt.mp hiK)] at hi'
        exact hdue i (Or.inr hi')

theorem Full.op {l : List Event} {s : Sys} {K : Nat} (F : Full parse spec l s K) {o : Mem.Op}
    (ho : Leaves spec.id o) : Full parse spec (l ++ [.op o]) ⟨o.apply s.store, s.log⟩ K := by
  refine ⟨F.along.op ho, fun i hi => ?_⟩
  obtain ⟨τ, hτ, hle⟩ := F.due i hi
  rw [times_append]
  exact ⟨τ, List.mem_append_left _ hτ, hle⟩

/-- along rounds in reach nothing is left out -/
theorem run_full (hc : spec.catchup = true) (hd : 0 < spec.every) {s₀ s : Sys} {es : List Event}
    (hs : Full parse spec [] s₀ 0) (hes : ∀ e ∈ es, Apart spec.id e)
    (hm : Meets (step parse) (InReach spec) s₀ es) (hrun : run (step parse) s₀ es = some s) :
    ∃ K, Full parse spec es s K := by
  induction es using List.reverseRecOn generalizing s with
  | nil =>
    obtain rfl := Option.some.inj hrun
    exact ⟨0, hs⟩
  | append_singleton es e ih =>
    obtain ⟨t, ht, hlast⟩ := run_append.mp hrun
    obtain ⟨u, hstep, hu⟩ := run_cons.mp hlast
    obtain rfl := Option.some.inj hu
    obtain ⟨hm1, hm2⟩ := hm.append ht
    obtain ⟨K, F⟩ := ih (fun x hx => hes x (List.mem_append_left _ hx)) hm1 ht
    cases e with
    | tick uuid fuel now =>
      obtain ⟨K', F', _⟩ := F.tick hc hd hstep hm2.1
      exact ⟨K', F'⟩
    | op o =>
      obtain rfl := Option.some.inj hstep
      exact ⟨K, F.op (hes _ (List.mem_append_right _ (List.mem_singleton.mpr rfl)))⟩

/-- after a round at the latest time so far, a full state is complete -/
theorem Full.complete (hd : 0 < spec.every) {l : List Event} {s : Sys} {K : Nat} {now : Time}
    (F : Full parse spec l s K) (hlt : now < point parse spec K) (hle : ∀ τ ∈ times l, τ ≤ now) :
    Complete spec s now := by
  have hmono : StrictMono (point parse spec) := strictMono (lt_advance_every hd) spec.nextRunAt
  unfold Complete
  rw [F.along.fires]
  refine ⟨List.nodup_range.map hmono.injective, fun x => ?_⟩
  rw [List.mem_map]
  constructor
  · intro h
    obtain ⟨i, hi, rfl⟩ := h
    obtain ⟨τ, hτ, hi'⟩ := F.due i (List.mem_range.mp hi)
    exact ⟨i, point_every hd i, le_trans hi' (hle τ hτ)⟩
  · intro h
    obtain ⟨k, e, hk⟩ := h
    have hx : x = point parse spec k := e.trans (point_every hd k).symm
    subst hx
    exact ⟨k, List.mem_range.mpr (hmono.lt_iff_lt.mp (lt_of_le_of_lt hk hlt)), rfl⟩

end

/-- **Catch-up loses nothing exactly as long as every round comes in reach**, that is, before 1001
further fires are due. -/
theorem catchup_complete_iff (parse : String → Except String Schedule) (ops : List Mem.Op)
    (spec : RecurringSpec) (hspec : spec ∈ (Mem.runOps ops).recurring) (hc : spec.catchup = true)
    (hd : 0 < spec.every) (es : List Event) (hes : ∀ e ∈ es, Apart spec.id e)
    (hmono : (times es).Pairwise (· ≤ ·)) (s : Sys)
    (hrun : run (step parse) ⟨Mem.runOps ops, []⟩ es = some s) :
    (∀ l₁ uuid fuel now l₂ t, es = l₁ ++ .tick uuid fuel now :: l₂ →
      run (step parse) ⟨Mem.runOps ops, []⟩ (l₁ ++ [.tick uuid fuel now]) = some t →
      Complete spec t now) ↔
    Meets (step parse) (InReach spec) ⟨Mem.runOps ops, []⟩ es := by
  have hinit : Full parse spec [] ⟨Mem.runOps ops, []⟩ 0 :=
    ⟨init_along hspec, fun i hi => absurd hi (Nat.not_lt_zero i)⟩
  constructor
  · intro h
    refine meets_iff.mpr fun l₁ e l₂ t he ht => ?_
    cases e with
    | op o => trivial
    | tick uuid fuel now =>
      intro cur hcur hid
      by_contra hlate
      -- the whole run went through, so this round did
      rw [he] at hrun
      obtain ⟨t', ht', hrest⟩ := run_append.mp hrun
      obtain rfl := Option.some.inj (ht.symm.trans ht')
      obtain ⟨u, hstep, _⟩ := run_cons.mp hrest
      obtain ⟨K, idx, _, A, _⟩ := run_along (lt_advance_every hd)
        (fun x hx => hes x (he ▸ List.mem_append_left _ hx)) ht (init_along hspec)
      have hrun' : run (step parse) ⟨Mem.runOps ops, []⟩ (l₁ ++ [.tick uuid fuel now]) = some u :=
        run_append.mpr ⟨t, ht, run_cons.mpr ⟨u, hstep, rfl⟩⟩
      refine incomplete_of_late hd A hstep ?_ (h l₁ uuid fuel now l₂ u he hrun')
      rw [point_add hd, ← A.unique hcur hid]
      exact not_lt.mp hlate
  · intro hm l₁ uuid fuel now l₂ u he hu
    obtain ⟨t, ht, hlast⟩ := run_append.mp hu
    obtain ⟨u', hstep, hu'⟩ := run_cons.mp hlast
    obtain rfl := Option.some.inj hu'
    rw [he] at hm hes hmono
    obtain ⟨hm1, hm2⟩ := hm.append ht
    obtain ⟨K, F⟩ := run_full hc hd hinit (fun x hx => hes x (List.mem_append_left _ hx)) hm1 ht
    obtain ⟨K', F', hlt⟩ := F.tick hc hd hstep hm2.1
    refine F'.complete hd hlt fun τ hτ => ?_
    rw [times_append] at hτ hmono
    rcases List.mem_append.mp hτ with hτ | hτ
    · exact (List.pairwise_append.mp hmono).2.2 τ hτ now List.mem_cons_self
    · exact le_of_eq (List.mem_singleton.mp hτ)

/-- rounds at seconds 3 and 5 -/
def onTime : List Event :=
  [.tick (fun _ i => "a" ++ i.repr) 10 3000000000, .tick (fun _ i => "b" ++ i.repr) 10 5000000000]

theorem catchup_complete_on_time :
    ∃ s, run (step noCron) ⟨Mem.runOps [.upsertRecurring everySecond], []⟩ onTime = some s ∧
      Complete everySecond s 5000000000 := by
  have hrun : (run (step noCron) ⟨Mem.runOps [.upsertRecurring everySecond], []⟩ onTime).isSome := by
    decide +kernel
  obtain ⟨s, hs⟩ := Option.isSome_iff_exists.mp hrun
  refine ⟨s, hs, ?_⟩
  refine (catchup_complete_iff noCron [.upsertRecurring everySecond] everySecond
    (List.mem_singleton.mpr rfl) rfl (by decide) onTime ?_ (by decide) s hs).mpr (by decide +kernel)
    [.tick (fun _ i => "a" ++ i.repr) 10 3000000000] (fun _ i => "b" ++ i.repr) 10 5000000000 [] s rfl hs
  intro e he
  fin_cases he
  all_goals trivial

/-- **A fire is lost for good.**  A job every second with catch-up, no round for 1001 seconds after the
first fire: the round enqueues the first 1001 fires, moves the schedule past the last one, and no
later round enqueues it. -/
theorem long_outage_loses_a_fire :
    ∃ fuel s, run (step noCron) ⟨Mem.runOps [.upsertRecurring everySecond], []⟩
        [.tick (fun _ i => i.repr) fuel 1002000000000] = some s ∧
      ¬ Complete everySecond s 1002000000000 ∧
      ∀ es t, (∀ e ∈ es, Apart everySecond.id e) → run (step noCron) s es = some t →
        (1002000000000 : Time) ∉ (t.fires everySecond.id).map Job.runAt := by
  have hd : 0 < everySecond.every := by decide
  have hadv : ∀ t, t < advance noCron everySecond t := lt_advance_every hd
  have hpoint : point noCron everySecond 1001 = 1002000000000 := point_every hd 1001
  have A : Along noCron everySecond ⟨Mem.runOps [.upsertRecurring everySecond], []⟩ 0 [] :=
    init_along (List.mem_singleton.mpr rfl)
  have hall : ∀ x ∈ (Mem.runOps [.upsertRecurring everySecond]).recurring,
      ∀ t, t < advance noCron x t := by
    intro x hx
    rw [List.mem_singleton.mp hx]
    exact hadv
  obtain ⟨fuel, s, h⟩ := tick_total (s := ⟨_, []⟩) hall (fun _ i => i.repr) 1002000000000
  refine ⟨fuel, s, run_cons.mpr ⟨s, h, rfl⟩, ?_, ?_⟩
  · exact incomplete_of_late hd A h (le_of_eq hpoint)
  · intro es t hes hrun hmem
    rcases A.tick hadv h with ⟨hlt, _⟩ | ⟨_, m, k, _, _, hm, A', hlt, _⟩
    · exact absurd hlt (by decide)
    · have hmono := strictMono hadv everySecond.nextRunAt
      have hk : 1001 < 0 + k := by
        rw [← hpoint] at hlt
        exact hmono.lt_iff_lt.mp hlt
      obtain ⟨K, new, _, A'', hnew⟩ := run_along hadv hes hrun A'
      rw [A''.fires, ← hpoint] at hmem
      obtain ⟨i, hi, e⟩ := List.mem_map.mp hmem
      obtain rfl : i = 1001 := hmono.injective e
      rcases List.mem_append.mp hi with hi | hi
      · obtain ⟨n, hn, e'⟩ := List.mem_map.mp hi
        have hn' := List.mem_range.mp hn
        have hm' : m ≤ 1001 := hm
        omega
      · exact absurd (hnew 1001 hi) (not_le.mpr hk)

end GS.Recurring
