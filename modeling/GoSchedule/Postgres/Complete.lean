import GoSchedule.Postgres.Lease
import GoSchedule.Recurring.Catchup

/-!
# Is any fire lost when runners share a Postgres store?

A runner that is late fires a period again (`stale_listing_fires_twice`) and can even set `next_run_at`
back.  Here is the other direction, for a spec with catch-up: whatever the runners do to each other, no
fire is passed over.

* `Enqueued n`     the `n`-th fire of the spec was saved;
* `Follows r`      the row or listing `r` stands at some fire, and all fires before it were saved;
* `Whole`          this holds of the row, of every listing that a runner works on, and what a runner has
  still to save is what is missing up to its `now`;
* `Reaches`        a lease is granted before `maxCatchup + 1` further fires are due;
* `fires_complete`   **in every interleaving of such rounds, every fire before `next_run_at` was
  enqueued**, with no condition on leases, clocks or stale listings.
-/

namespace GS.Postgres
open Recurring Orbit Trans

section
variable (parse : String → Except String Schedule) (sp : RecurringSpec)

def Enqueued (saved : List Job) (n : Nat) : Prop :=
  ∃ j ∈ saved, j.recurringID = sp.id ∧ j.runAt = point parse sp n

structure Follows (saved : List Job) (r : RecurringSpec) : Prop where
  every : r.every = sp.every
  cron : r.cron = sp.cron
  catchup : r.catchup = sp.catchup
  next : ∃ K, r.nextRunAt = point parse sp K ∧ ∀ n < K, Enqueued parse sp saved n

/-- what a runner works on -/
def Accounts (saved : List Job) : Phase → Prop
  | .idle => True
  | .woken _ => True
  | .looping _ specs => ∀ r ∈ specs, r.id = sp.id → Follows parse sp saved r
  | .firing now spec fires rest =>
    (∀ r ∈ rest, r.id = sp.id → Follows parse sp saved r) ∧
      (spec.id = sp.id → Follows parse sp saved spec ∧ spec.nextRunAt ≤ now ∧
        ∀ n, point parse sp n ≤ now → Enqueued parse sp saved n ∨ point parse sp n ∈ fires)

structure Whole (s : Runners) : Prop where
  rows : ∀ r ∈ s.rows, r.id = sp.id → Follows parse sp s.saved r
  phase : ∀ w, Accounts parse sp s.saved (s.phase w)

/-- a runner in this phase that asks for a lease on the spec now has all due fires in reach -/
def InReachAt : Phase → Prop
  | .looping now (spec :: _) => spec.id = sp.id → now < point parse spec (maxCatchup + 1)
  | _ => True

instance : DecidablePred (InReachAt parse sp)
  | .looping now (spec :: _) =>
    inferInstanceAs (Decidable (spec.id = sp.id → now < point parse spec (maxCatchup + 1)))
  | .looping _ [] | .idle | .woken _ | .firing .. => isTrue trivial

def Reaches (s : Runners) : Move → Prop
  | .acquire w => InReachAt parse sp (s.phase w)
  | _ => True

instance (s : Runners) : DecidablePred (Reaches parse sp s)
  | .acquire w => inferInstanceAs (Decidable (InReachAt parse sp (s.phase w)))
  | .wake .. | .list .. | .next _ | .save .. | .update .. | .tick _ => isTrue trivial

end

section
variable {parse : String → Except String Schedule} {sp r spec : RecurringSpec} {saved saved' : List Job}

/-! ## more is saved -/

theorem Enqueued.mono (hs : ∀ j ∈ saved, j ∈ saved') {n : Nat} (h : Enqueued parse sp saved n) :
    Enqueued parse sp saved' n := by
  obtain ⟨j, hj, h⟩ := h
  exact ⟨j, hs j hj, h⟩

theorem Follows.mono (hs : ∀ j ∈ saved, j ∈ saved') (F : Follows parse sp saved r) :
    Follows parse sp saved' r := by
  obtain ⟨K, hK, hn⟩ := F.next
  exact ⟨F.every, F.cron, F.catchup, K, hK, fun n h => (hn n h).mono hs⟩

theorem Accounts.mono (hs : ∀ j ∈ saved, j ∈ saved') {p : Phase} (h : Accounts parse sp saved p) :
    Accounts parse sp saved' p := by
  cases p with
  | idle => trivial
  | woken => trivial
  | looping now specs => exact fun r hr hid => (h r hr hid).mono hs
  | firing now spec fires rest =>
    refine ⟨fun r hr hid => (h.1 r hr hid).mono hs, fun hid => ?_⟩
    obtain ⟨F, hdue, hall⟩ := h.2 hid
    exact ⟨F.mono hs, hdue, fun n hn => (hall n hn).imp_left fun h => h.mono hs⟩

/-! ## one round on one spec -/

/-- a change of the lease or of `last_fire_at` -/
theorem Follows.of_eq (F : Follows parse sp saved r) {r' : RecurringSpec} (h1 : r'.every = r.every)
    (h2 : r'.cron = r.cron) (h3 : r'.catchup = r.catchup) (h4 : r'.nextRunAt = r.nextRunAt) :
    Follows parse sp saved r' :=
  ⟨h1.trans F.every, h2.trans F.cron, h3.trans F.catchup, by
    rw [h4]
    exact F.next⟩

theorem Follows.advance_eq (F : Follows parse sp saved r) : advance parse r = advance parse sp := by
  funext t
  unfold advance
  rw [F.every, F.cron]

/-- the points of a spec that stands at the fire `K` -/
theorem Follows.point_eq (F : Follows parse sp saved r) {K : Nat} (hK : r.nextRunAt = point parse sp K)
    (i : Nat) : point parse r i = point parse sp (i + K) := by
  unfold point
  rw [F.advance_eq, hK, Function.iterate_add_apply]
  rfl

/-- with catch-up a round fires all that is due, if it is not too late -/
theorem mem_computeFires (hadv : ∀ t, t < advance parse spec t) (hc : spec.catchup = true) {now : Time}
    (hreach : now < point parse spec (maxCatchup + 1)) {i : Nat} (hi : point parse spec i ≤ now) :
    point parse spec i ∈ computeFires parse spec now := by
  have hmono := (strictMono hadv spec.nextRunAt).monotone
  obtain ⟨m, hm, e, _, hlt⟩ := upTo_spec (f := advance parse spec) now maxCatchup spec.nextRunAt
  rw [computeFires, if_pos hc, catchupLoop_eq hadv, e]
  cases i with
  | zero => exact List.mem_cons_self
  | succ i =>
    refine List.mem_cons_of_mem _ (List.mem_map.mpr ⟨i, List.mem_range.mpr ?_, rfl⟩)
    by_contra hmi
    -- the point after the last one that was collected is past `now`
    have hpast : now < point parse spec (m + 1) := by
      rcases Nat.lt_or_eq_of_le hm with hm | rfl
      · exact hlt hm
      · exact hreach
    have hle : point parse spec (m + 1) ≤ point parse spec (i + 1) :=
      hmono (Nat.succ_le_succ (not_lt.mp hmi))
    exact absurd (lt_of_lt_of_le hpast hle) (not_lt.mpr hi)

theorem Follows.fires (F : Follows parse sp saved spec) (hadv : ∀ t, t < advance parse sp t)
    (hc : sp.catchup = true) {now : Time} (hreach : now < point parse spec (maxCatchup + 1)) (n : Nat)
    (hn : point parse sp n ≤ now) :
    Enqueued parse sp saved n ∨ point parse sp n ∈ computeFires parse spec now := by
  obtain ⟨K, hK, hall⟩ := F.next
  by_cases hlt : n < K
  · exact Or.inl (hall n hlt)
  · obtain ⟨i, rfl⟩ := Nat.exists_eq_add_of_le' (not_lt.mp hlt)
    rw [← F.point_eq hK] at hn ⊢
    refine Or.inr (mem_computeFires ?_ (F.catchup.trans hc) hreach hn)
    rw [F.advance_eq]
    exact hadv

/-- the next fire time of a round that has saved all that was due -/
theorem Follows.after (F : Follows parse sp saved spec) {now next : Time} {fuel : Nat}
    (hdue : spec.nextRunAt ≤ now) (hall : ∀ n, point parse sp n ≤ now → Enqueued parse sp saved n)
    (hnext : nextAfter parse fuel spec now = some next) :
    ∃ K, next = point parse sp K ∧ ∀ n < K, Enqueued parse sp saved n := by
  obtain ⟨K, hK, hbefore⟩ := F.next
  obtain ⟨k, hk, _, hle⟩ := loop_spec hnext
  refine ⟨k + 1 + K, ?_, fun n hn => ?_⟩
  · rw [← F.point_eq hK]
    exact hk
  · by_cases hlt : n < K
    · exact hbefore n hlt
    · obtain ⟨i, rfl⟩ := Nat.exists_eq_add_of_le' (not_lt.mp hlt)
      refine hall _ ?_
      rw [← F.point_eq hK]
      cases i with
      | zero => exact hdue
      | succ i => exact hle i (by omega)

/-! ## the statements -/

theorem acquire_follows {specID : JobID} {leaseUntil now : Time} {workerID : String}
    {rows : List RecurringSpec} (h : ∀ r ∈ rows, r.id = sp.id → Follows parse sp saved r) :
    ∀ r ∈ (acquireLease specID leaseUntil workerID now rows).1, r.id = sp.id →
      Follows parse sp saved r := by
  intro r hr hid
  unfold acquireLease at hr
  split at hr
  · obtain ⟨r₀, hr₀, rfl⟩ := List.mem_map.mp hr
    split at hid
    · rename_i hif
      rw [if_pos hif]
      exact (h r₀ hr₀ hid).of_eq rfl rfl rfl rfl
    · rename_i hif
      rw [if_neg hif]
      exact h r₀ hr₀ hid
  · exact h r hr hid

theorem update_follows {id : JobID} {next last : Time} {rows : List RecurringSpec}
    (h : ∀ r ∈ rows, r.id = sp.id → Follows parse sp saved r)
    (hnext : id = sp.id → pgTime next = next ∧
      ∃ K, next = point parse sp K ∧ ∀ n < K, Enqueued parse sp saved n) :
    ∀ r ∈ updateRecurringNextRun id next last rows, r.id = sp.id → Follows parse sp saved r := by
  intro r hr hid
  obtain ⟨r₀, hr₀, rfl⟩ := List.mem_map.mp hr
  split at hid
  · rename_i hif
    rw [if_pos hif]
    obtain ⟨halign, hK⟩ := hnext (hif.symm.trans hid)
    have F := h r₀ hr₀ hid
    refine ⟨F.every, F.cron, F.catchup, ?_⟩
    show ∃ K, pgTime next = point parse sp K ∧ _
    rw [halign]
    exact hK
  · rename_i hif
    rw [if_neg hif]
    exact h r₀ hr₀ hid

end

section
variable {parse : String → Except String Schedule} {leaseEvery : String → Duration} {sp : RecurringSpec}
  {s t : Runners} {w : String}

/-- the runner `w` moves to the phase `p` -/
theorem Whole.move (W : Whole parse sp s) {p : Phase} (hs : ∀ j ∈ s.saved, j ∈ t.saved)
    (hphase : t.phase = Function.update s.phase w p) (hp : Accounts parse sp t.saved p)
    (hrows : ∀ r ∈ t.rows, r.id = sp.id → Follows parse sp t.saved r) : Whole parse sp t := by
  refine ⟨hrows, fun w' => ?_⟩
  rw [hphase]
  by_cases e : w' = w
  · rw [e, Function.update_self]
    exact hp
  · rw [Function.update_of_ne e]
    exact (W.phase w').mono hs

theorem Whole.quiet (W : Whole parse sp s) {p : Phase} (hp : Accounts parse sp s.saved p) :
    Whole parse sp (s.set w p) := W.move (fun _ h => h) rfl hp W.rows

/-- the spec moves strictly forward, from whole microseconds to whole microseconds -/
structure Exact (parse : String → Except String Schedule) (sp : RecurringSpec) : Prop where
  catchup : sp.catchup = true
  forward : ∀ t, t < advance parse sp t
  whole : ∀ t, pgTime t = t → pgTime (advance parse sp t) = advance parse sp t
  start : pgTime sp.nextRunAt = sp.nextRunAt

theorem Exact.point (X : Exact parse sp) (n : Nat) :
    pgTime (Recurring.point parse sp n) = Recurring.point parse sp n := by
  induction n with
  | zero => exact X.start
  | succ n ih =>
    unfold Recurring.point at ih ⊢
    rw [Function.iterate_succ_apply']
    exact X.whole _ ih

/-- the save of a fire -/
theorem Whole.save (W : Whole parse sp s) (X : Exact parse sp) {now f : Time} {spec : RecurringSpec}
    {fs : List Time} {rest : List RecurringSpec} {j : Job}
    (hphase : s.phase w = .firing now spec (f :: fs) rest) (hj : j.recurringID = spec.id)
    (hat : j.runAt = pgTime f) :
    Whole parse sp { s.set w (.firing now spec fs rest) with saved := s.saved ++ [j] } := by
  have hs : ∀ j' ∈ s.saved, j' ∈ s.saved ++ [j] := fun _ h => List.mem_append_left _ h
  have hfiring := W.phase w
  rw [hphase] at hfiring
  refine W.move hs rfl ⟨fun r hr hid => (hfiring.1 r hr hid).mono hs, fun hid => ?_⟩
    fun r hr hid => (W.rows r hr hid).mono hs
  obtain ⟨F, hdue, hall⟩ := hfiring.2 hid
  refine ⟨F.mono hs, hdue, fun n hn => ?_⟩
  rcases hall n hn with h | h
  · exact Or.inl (h.mono hs)
  · rcases List.mem_cons.mp h with h | h
    · refine Or.inl ⟨j, List.mem_append_right _ (List.mem_singleton.mpr rfl), hj.trans hid, ?_⟩
      rw [hat, ← h]
      exact X.point n
    · exact Or.inr h

/-- **One step keeps it**, if a lease on the spec is granted in reach. -/
theorem step_whole {a : Move} (W : Whole parse sp s) (X : Exact parse sp) (hC : Reaches parse sp s a)
    (h : step parse leaseEvery s a = some t) : Whole parse sp t := by
  cases a with
  | wake w now =>
    simp only [step] at h
    split at h
    · obtain ⟨_, e⟩ := Option.ite_none_right_eq_some.mp h
      rw [← Option.some.inj e]
      exact W.quiet trivial
    · cases h
  | list w specs =>
    simp only [step] at h
    split at h
    · obtain ⟨hperm, e⟩ := Option.ite_none_right_eq_some.mp h
      rw [← Option.some.inj e]
      exact W.quiet fun r hr hid => W.rows r (hperm.mem_iff.mp hr) hid
    · cases h
  | next w =>
    simp only [step] at h
    split at h
    · rw [← Option.some.inj h]
      exact W.quiet trivial
    · rename_i now spec rest hp
      obtain ⟨_, e⟩ := Option.ite_none_right_eq_some.mp h
      rw [← Option.some.inj e]
      have hlist := W.phase w
      rw [hp] at hlist
      exact W.quiet fun r hr hid => hlist r (List.mem_cons_of_mem _ hr) hid
    · cases h
  | acquire w =>
    simp only [step] at h
    split at h
    · rename_i now spec rest hp
      obtain ⟨hdue, h⟩ := Option.ite_none_left_eq_some.mp h
      have hlist := W.phase w
      rw [hp] at hlist
      have hrest : ∀ r ∈ rest, r.id = sp.id → Follows parse sp s.saved r :=
        fun r hr hid => hlist r (List.mem_cons_of_mem _ hr) hid
      split at h
      · rw [← Option.some.inj h]
        refine W.move (fun _ h => h) rfl ⟨hrest, fun hid => ?_⟩ (acquire_follows W.rows)
        have F := hlist spec List.mem_cons_self hid
        rw [Reaches, hp] at hC
        exact ⟨F, not_lt.mp hdue, F.fires X.forward X.catchup (hC hid)⟩
      · rw [← Option.some.inj h]
        exact W.quiet hrest
    · cases h
  | save w uuid =>
    simp only [step] at h
    split at h
    · rename_i hp
      obtain ⟨_, e⟩ := Option.ite_none_right_eq_some.mp h
      rw [← Option.some.inj e]
      exact W.save X hp rfl rfl
    · cases h
  | update w fuel =>
    simp only [step] at h
    split at h
    · rename_i now spec rest hp
      obtain ⟨next, hn, e⟩ := Option.map_eq_some_iff.mp h
      rw [← e]
      have hfiring := W.phase w
      rw [hp] at hfiring
      refine W.move (fun _ h => h) rfl hfiring.1 (update_follows W.rows fun hid => ?_)
      obtain ⟨F, hdue, hall⟩ := hfiring.2 hid
      obtain ⟨K, rfl, hK⟩ := F.after hdue (fun n hn => (hall n hn).resolve_right (by simp)) hn
      exact ⟨X.point K, K, rfl, hK⟩
    · cases h
  | tick d =>
    rw [← Option.some.inj h]
    exact ⟨W.rows, W.phase⟩

end

/-! ## runs -/

theorem upsert_distinct {rows : List RecurringSpec} (h : (rows.map RecurringSpec.id).Nodup)
    (spec : RecurringSpec) : ((upsertRecurring rows spec).map RecurringSpec.id).Nodup := by
  unfold upsertRecurring
  split
  · have e : (rows.map fun r => if r.id = spec.id then
        { storedSpec spec with leaseUntil := r.leaseUntil, leasedBy := r.leasedBy } else r).map
          RecurringSpec.id = rows.map RecurringSpec.id := by
      rw [List.map_map]
      refine List.map_congr_left fun r _ => ?_
      show (if r.id = spec.id then _ else r : RecurringSpec).id = r.id
      split
      · rename_i hid
        exact hid.symm
      · rfl
    rw [e]
    exact h
  · rename_i hno
    rw [List.map_append]
    refine List.nodup_append.mpr ⟨h, List.nodup_singleton _, fun a ha b hb e => ?_⟩
    obtain ⟨r, hr, rfl⟩ := List.mem_map.mp ha
    exact hno ⟨r, hr, e.trans (List.mem_singleton.mp hb)⟩

theorem init_distinct (workers : List String) (specs : List RecurringSpec) (clock : Time) :
    ((Runners.init workers specs clock).rows.map RecurringSpec.id).Nodup := by
  suffices h : ∀ rows : List RecurringSpec, (rows.map RecurringSpec.id).Nodup →
      ((specs.foldl upsertRecurring rows).map RecurringSpec.id).Nodup from h [] List.nodup_nil
  induction specs with
  | nil => exact fun _ h => h
  | cons spec specs ih => exact fun rows h => ih _ (upsert_distinct h spec)

theorem init_whole {parse : String → Except String Schedule} {workers : List String}
    {specs : List RecurringSpec} {clock : Time} {sp : RecurringSpec}
    (hsp : sp ∈ (Runners.init workers specs clock).rows) :
    Whole parse sp (Runners.init workers specs clock) := by
  refine ⟨fun r hr hid => ?_, fun _ => trivial⟩
  obtain rfl := List.inj_on_of_nodup_map (init_distinct workers specs clock) hr hsp hid
  exact ⟨rfl, rfl, rfl, 0, rfl, fun n hn => absurd hn (Nat.not_lt_zero n)⟩

/-- **No fire is lost**: in every interleaving of any number of runners, each fire of the spec that comes
before the stored `next_run_at` has been enqueued. -/
theorem fires_complete (parse : String → Except String Schedule) (leaseEvery : String → Duration)
    (workers : List String) (specs : List RecurringSpec) (clock : Time) (l : List Move) (s : Runners)
    (sp : RecurringSpec) (hsp : sp ∈ (Runners.init workers specs clock).rows) (hc : sp.catchup = true)
    (hforward : ∀ t, t < advance parse sp t)
    (hwhole : ∀ t, pgTime t = t → pgTime (advance parse sp t) = advance parse sp t)
    (h : run (step parse leaseEvery) (Runners.init workers specs clock) l = some s)
    (hm : Meets (step parse leaseEvery) (Reaches parse sp) (Runners.init workers specs clock) l) :
    ∀ r ∈ s.rows, r.id = sp.id → ∃ K, r.nextRunAt = point parse sp K ∧
      ∀ n < K, ∃ j ∈ s.saved, j.recurringID = sp.id ∧ j.runAt = point parse sp n := by
  have V : Inv parse (Runners.init workers specs clock) := init_inv workers specs clock
  have X : Exact parse sp := ⟨hc, hforward, hwhole, V.aligned sp hsp⟩
  have W : Whole parse sp s :=
    run_keep_of (P := Whole parse sp) (fun _ _ _ W hC hst => step_whole W X hC hst) hm (init_whole hsp) h
  exact fun r hr hid => (W.rows r hr hid).next

theorem whole_every {parse : String → Except String Schedule} {spec : RecurringSpec}
    (h : 0 < spec.every) (hd : spec.every.toInt % 1000 = 0) (t : Time) (ht : pgTime t = t) :
    pgTime (advance parse spec t) = advance parse spec t := by
  rw [advance_every h]
  unfold pgTime at ht ⊢
  have ht0 : t % 1000 = 0 := sub_eq_self.mp ht
  have e : (t + spec.every.toInt) % 1000 = 0 := by
    rw [Int.add_emod, ht0, hd]
    rfl
  rw [e]
  exact sub_zero _

def minutelyAll : RecurringSpec := storedSpec { minutely with catchup := true }

/-- three fires are due; `A` is late between its saves, and `B` takes the lease and fires all of them -/
def overtaken : List Move :=
  [.wake "A" 200000000000, .list "A" [minutelyAll], .wake "B" 200000000000, .list "B" [minutelyAll],
    .acquire "A", .save "A" "job-1", .tick 2000000000, .acquire "B", .save "B" "job-2",
    .save "B" "job-3", .save "B" "job-4", .update "B" 4, .save "A" "job-5"]

theorem fires_complete_overtaken : ∃ s,
    run (step noCron oneSecond) (Runners.init ["A", "B"] [minutelyAll] 200000000000) overtaken = some s ∧
      (∀ r ∈ s.rows, r.id = "r" → ∃ K, r.nextRunAt = point noCron minutelyAll K ∧
        ∀ n < K, ∃ j ∈ s.saved, j.recurringID = "r" ∧ j.runAt = point noCron minutelyAll n) ∧
      s.rows.map RecurringSpec.nextRunAt = [240000000000] ∧
      s.saved.map Job.runAt =
        [60000000000, 60000000000, 120000000000, 180000000000, 120000000000] := by
  have hrun : (run (step noCron oneSecond) (Runners.init ["A", "B"] [minutelyAll] 200000000000)
      overtaken).map (fun s => (s.rows.map RecurringSpec.nextRunAt, s.saved.map Job.runAt)) =
      some ([240000000000],
        [60000000000, 60000000000, 120000000000, 180000000000, 120000000000]) := by decide +kernel
  obtain ⟨s, hs, he⟩ := Option.map_eq_some_iff.mp hrun
  obtain ⟨hrows, hsaved⟩ := Prod.mk.injEq .. ▸ he
  have hevery : 0 < minutelyAll.every := by decide
  exact ⟨s, hs, fires_complete noCron oneSecond ["A", "B"] [minutelyAll] 200000000000 overtaken s
    minutelyAll (List.mem_singleton.mpr rfl) rfl (lt_advance_every hevery)
    (whole_every hevery (by decide)) hs (by decide +kernel), hrows, hsaved⟩

end GS.Postgres
