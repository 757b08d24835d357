import GoSchedule.Recurring.Ticks

/-!
# The recurring runner on a store that fails

A round of `recurringRunner.run` where every call to the store may return an error.  An error of `Save` is
logged and the round goes on; one of `UpdateRecurringNextRun` is dropped.  A call that returns an error has
not changed the store.

* `Answers`    what the store answers in a round on one spec: the lease, each `Save`, the update;
* `roundOps`   the calls that succeed;  `roundOps_ok`   without errors these are the calls of `Ticks`;
* `step`       rounds on any specs, and operations on the store between them;
* `round_cases`, `round_other`   all that a round does to a spec;
* `Safe`       no `Save` of the round failed, or its update did;
* `owed_kept`  after safe rounds a fire that was not saved is still to come;
* `passed_lost`   a fire before `NextRunAt` is never saved again;
* `failed_fires_due_iff`   **the fires that were not saved are still due exactly after a safe round.**
-/

namespace GS.Recurring.Faults
open Trans

structure Answers where
  lease : Bool
  save : Nat → Bool
  update : Bool

/-- a store without errors -/
def Answers.ok : Answers := ⟨true, fun _ => true, true⟩

inductive Event where
  | round (ans : Answers) (uuid : Nat → JobID) (fuel : Nat) (now : Time) (id : JobID)
  | op (o : Mem.Op)

section
variable (parse : String → Except String Schedule)

/-- the jobs of a round whose `Save` succeeds -/
def savedJobs (ans : Answers) (uuid : Nat → JobID) (now : Time) (spec : RecurringSpec) : List Job :=
  ((computeFires parse spec now).zipIdx.filter fun p => ans.save p.2).map fun p =>
    fireJob spec (uuid p.2) now p.1

def roundOps (ans : Answers) (uuid : Nat → JobID) (fuel : Nat) (now : Time) (spec : RecurringSpec) :
    Option (List Mem.Op) :=
  if now < spec.nextRunAt ∨ ans.lease = false then some []
  else
    (nextAfter parse fuel spec now).map fun next =>
      (savedJobs parse ans uuid now spec).map .save ++
        if ans.update then [.updateRecurringNextRun spec.id next now] else []

theorem roundOps_ok (uuid : Nat → JobID) (fuel : Nat) (now : Time) (spec : RecurringSpec) :
    roundOps parse .ok uuid fuel now spec = tickSpecOps parse uuid fuel now spec := by
  have hall : savedJobs parse .ok uuid now spec = fireJobs parse uuid now spec := by
    have hfilter : (computeFires parse spec now).zipIdx.filter (fun p => Answers.ok.save p.2) =
        (computeFires parse spec now).zipIdx := List.filter_eq_self.mpr fun _ _ => rfl
    unfold savedJobs fireJobs
    rw [hfilter]
  unfold roundOps tickSpecOps
  rw [hall]
  simp [Answers.ok]

def step (s : Sys) : Event → Option Sys
  | .round ans uuid fuel now id =>
    match s.store.recurring.find? (fun r => r.id = id) with
    | none => some s
    | some spec => (roundOps parse ans uuid fuel now spec).map fun ops =>
        ⟨ops.foldl Mem.Op.apply s.store, s.log ++ ops.filterMap saved⟩
  | .op o => some ⟨o.apply s.store, s.log⟩

/-- no `Save` of the round failed, or `NextRunAt` was not written either -/
def Safe (ans : Answers) (now : Time) (spec : RecurringSpec) : Prop :=
  (∀ i < (computeFires parse spec now).length, ans.save i = true) ∨ ans.update = false

/-- an event after the time `τ`: the rounds on the spec are safe, and nobody else writes it -/
def Later (id : JobID) (τ : Time) (s : Sys) : Event → Prop
  | .round ans _ _ now i =>
    i = id → τ ≤ now ∧ ∀ cur ∈ s.store.recurring, cur.id = id → Safe parse ans now cur
  | .op o => Leaves id o

end

/-- the fire `f` of the spec is among the jobs -/
def Saved (id : JobID) (f : Time) (jobs : List Job) : Prop := ∃ j ∈ jobs, j.recurringID = id ∧ j.runAt = f

instance (id : JobID) (f : Time) (jobs : List Job) : Decidable (Saved id f jobs) :=
  inferInstanceAs (Decidable (∃ j ∈ jobs, _ ∧ _))

theorem Saved.append_left {id : JobID} {f : Time} {l : List Job} (h : Saved id f l) (l' : List Job) :
    Saved id f (l ++ l') := by
  obtain ⟨j, hj, hid, hf⟩ := h
  exact ⟨j, List.mem_append_left _ hj, hid, hf⟩

section
variable {parse : String → Except String Schedule}

/-! ## one round -/

theorem saved_savedJobs {ans : Answers} {uuid : Nat → JobID} {now : Time} {spec : RecurringSpec}
    {f : Time} : Saved spec.id f (savedJobs parse ans uuid now spec) ↔
      ∃ i, (computeFires parse spec now)[i]? = some f ∧ ans.save i = true := by
  constructor
  · intro h
    obtain ⟨j, hj, _, hf⟩ := h
    obtain ⟨p, hp, rfl⟩ := List.mem_map.mp hj
    obtain ⟨hp, hsave⟩ := List.mem_filter.mp hp
    refine ⟨p.2, ?_, hsave⟩
    rw [← hf]
    exact List.mem_zipIdx_iff_getElem?.mp hp
  · intro h
    obtain ⟨i, hi, hsave⟩ := h
    refine ⟨_, List.mem_map.mpr ⟨(f, i), List.mem_filter.mpr ⟨?_, hsave⟩, rfl⟩, rfl, rfl⟩
    exact List.mem_zipIdx_iff_getElem?.mpr hi

theorem savedJobs_recurringID {ans : Answers} {uuid : Nat → JobID} {now : Time} {spec : RecurringSpec}
    {j : Job} (h : j ∈ savedJobs parse ans uuid now spec) : j.recurringID = spec.id := by
  obtain ⟨p, _, rfl⟩ := List.mem_map.mp h
  rfl

/-- the specs after the calls of a round -/
def written (ans : Answers) (id : JobID) (next now : Time) (x : RecurringSpec) : RecurringSpec :=
  if ans.update = true ∧ x.id = id then { x with nextRunAt := next, lastFireAt := now } else x

theorem find_spec {s : Mem.Store} (hd : Distinct s) {cur : RecurringSpec} (h : cur ∈ s.recurring) :
    s.recurring.find? (fun r => r.id = cur.id) = some cur := by
  cases hf : s.recurring.find? (fun r => r.id = cur.id) with
  | none => exact absurd (decide_eq_true rfl) (List.find?_eq_none.mp hf cur h)
  | some x =>
    have hx := List.find?_some hf
    have hid : x.id = cur.id := of_decide_eq_true hx
    exact congrArg some (List.inj_on_of_nodup_map hd (List.mem_of_find?_eq_some hf) h hid)

/-- the operations of a round on a spec, and the store after them -/
theorem roundOps_cases {ans : Answers} {uuid : Nat → JobID} {fuel : Nat} {now : Time}
    {spec : RecurringSpec} {ops : List Mem.Op}
    (h : roundOps parse ans uuid fuel now spec = some ops) (s : Mem.Store) :
    ((now < spec.nextRunAt ∨ ans.lease = false) ∧ ops = []) ∨
      (spec.nextRunAt ≤ now ∧ ans.lease = true ∧ ∃ next, now < next ∧
        ops.filterMap saved = savedJobs parse ans uuid now spec ∧
        (ops.foldl Mem.Op.apply s).recurring = s.recurring.map (written ans spec.id next now)) := by
  unfold roundOps at h
  split at h
  · next hskip => exact Or.inl ⟨hskip, (Option.some.inj h).symm⟩
  · next hskip =>
    rw [not_or, not_lt, Bool.not_eq_false] at hskip
    obtain ⟨next, hn, rfl⟩ := Option.map_eq_some_iff.mp h
    have hstop := Loop.loop_sound hn
    have hlt : now < next := of_decide_eq_true hstop
    refine Or.inr ⟨hskip.1, hskip.2, next, hlt, ?_, ?_⟩
    · rw [List.filterMap_append, List.filterMap_map]
      have hsave : (savedJobs parse ans uuid now spec).filterMap (saved ∘ Mem.Op.save) =
          savedJobs parse ans uuid now spec := List.filterMap_some
      rw [hsave]
      split
      · exact List.append_nil _
      · exact List.append_nil _
    · rw [foldl_recurring]
      · refine List.map_congr_left fun x _ => ?_
        rw [foldl_touch_saves]
        unfold written
        cases ans.update with
        | false => rfl
        | true =>
          show (if x.id = spec.id then _ else x) = _
          simp only [true_and]
      · intro o ho
        rcases List.mem_append.mp ho with ho | ho
        · obtain ⟨j, _, rfl⟩ := List.mem_map.mp ho
          exact Or.inl ⟨j, rfl⟩
        · split at ho
          · exact Or.inr ⟨_, _, _, List.mem_singleton.mp ho⟩
          · cases ho

variable {s t : Sys} {cur : RecurringSpec} {ans : Answers} {uuid : Nat → JobID} {fuel : Nat}
  {now : Time} {id : JobID}

/-- **A round on the spec.** -/
theorem round_cases (hd : Distinct s.store) (hcur : cur ∈ s.store.recurring)
    (h : step parse s (.round ans uuid fuel now cur.id) = some t) :
    ((now < cur.nextRunAt ∨ ans.lease = false) ∧ t = s) ∨
      (cur.nextRunAt ≤ now ∧ ans.lease = true ∧ ∃ next, now < next ∧
        t.log = s.log ++ savedJobs parse ans uuid now cur ∧
        written ans cur.id next now cur ∈ t.store.recurring) := by
  unfold step at h
  dsimp only at h
  rw [find_spec hd hcur] at h
  obtain ⟨ops, hops, rfl⟩ := Option.map_eq_some_iff.mp h
  rcases roundOps_cases hops s.store with ⟨hskip, rfl⟩ | ⟨hdue, hl, next, hlt, hsaved, hrec⟩
  · exact Or.inl ⟨hskip, by rw [List.filterMap_nil, List.append_nil]; rfl⟩
  · refine Or.inr ⟨hdue, hl, next, hlt, congrArg (s.log ++ ·) hsaved, ?_⟩
    show _ ∈ (ops.foldl Mem.Op.apply s.store).recurring
    rw [hrec]
    exact List.mem_map_of_mem hcur

/-- **A round on another spec** leaves the spec alone and saves no job of it. -/
theorem round_other (hcur : cur ∈ s.store.recurring) (hid : id ≠ cur.id)
    (h : step parse s (.round ans uuid fuel now id) = some t) :
    cur ∈ t.store.recurring ∧ ∃ new, t.log = s.log ++ new ∧ ∀ j ∈ new, j.recurringID ≠ cur.id := by
  unfold step at h
  dsimp only at h
  split at h
  · obtain rfl := Option.some.inj h
    exact ⟨hcur, [], (List.append_nil _).symm, fun j hj => absurd hj List.not_mem_nil⟩
  · next spec hfind =>
    have hx := List.find?_some hfind
    have hspec : spec.id = id := of_decide_eq_true hx
    obtain ⟨ops, hops, rfl⟩ := Option.map_eq_some_iff.mp h
    rcases roundOps_cases hops s.store with ⟨_, rfl⟩ | ⟨_, _, next, _, hsaved, hrec⟩
    · exact ⟨hcur, [], rfl, fun j hj => absurd hj List.not_mem_nil⟩
    · refine ⟨?_, _, congrArg (s.log ++ ·) hsaved, fun j hj e => hid ?_⟩
      · show cur ∈ (ops.foldl Mem.Op.apply s.store).recurring
        rw [hrec]
        refine List.mem_map.mpr ⟨cur, hcur, if_neg fun hw => hid ?_⟩
        rw [← hspec, hw.2]
      · rw [← hspec, ← savedJobs_recurringID hj, e]

theorem step_distinct {e : Event} (hd : Distinct s.store) (h : step parse s e = some t) :
    Distinct t.store := by
  cases e with
  | op o =>
    obtain rfl := Option.some.inj h
    exact apply_distinct hd o
  | round ans uuid fuel now id =>
    unfold step at h
    dsimp only at h
    split at h
    · obtain rfl := Option.some.inj h
      exact hd
    · obtain ⟨ops, _, rfl⟩ := Option.map_eq_some_iff.mp h
      exact foldl_distinct hd ops

/-! ## fires -/

theorem catchupLoop_mono {spec : RecurringSpec} {τ τ' : Time} (h : τ ≤ τ') :
    ∀ n last, ∀ f ∈ catchupLoop parse spec τ n last, f ∈ catchupLoop parse spec τ' n last := by
  intro n
  induction n with
  | zero => exact fun _ _ hf => hf
  | succ n ih =>
    intro last f hf
    unfold catchupLoop at hf ⊢
    dsimp only at hf ⊢
    split at hf
    · cases hf
    · next hadv =>
      rw [if_neg hadv]
      split at hf
      · cases hf
      · next hnow =>
        rw [if_neg (not_lt.mpr (le_trans (not_lt.mp hnow) h))]
        rcases List.mem_cons.mp hf with rfl | hf
        · exact List.mem_cons_self
        · exact List.mem_cons_of_mem _ (ih _ f hf)

/-- a later round has the fires of an earlier one -/
theorem computeFires_mono {spec : RecurringSpec} {τ τ' : Time} (h : τ ≤ τ') {f : Time}
    (hf : f ∈ computeFires parse spec τ) : f ∈ computeFires parse spec τ' := by
  unfold computeFires at hf ⊢
  rcases List.mem_cons.mp hf with rfl | hf
  · exact List.mem_cons_self
  · refine List.mem_cons_of_mem _ ?_
    split at hf
    · next hc =>
      rw [if_pos hc]
      exact catchupLoop_mono h _ _ f hf
    · cases hf

theorem catchupLoop_bounds {spec : RecurringSpec} {τ : Time} :
    ∀ n last, ∀ f ∈ catchupLoop parse spec τ n last, last ≤ f ∧ f ≤ τ := by
  intro n
  induction n with
  | zero => exact fun _ _ hf => absurd hf List.not_mem_nil
  | succ n ih =>
    intro last f hf
    unfold catchupLoop at hf
    dsimp only at hf
    split at hf
    · cases hf
    · next hadv =>
      split at hf
      · cases hf
      · next hnow =>
        have hle := le_of_lt (not_le.mp hadv)
        rcases List.mem_cons.mp hf with rfl | hf
        · exact ⟨hle, not_lt.mp hnow⟩
        · obtain ⟨h1, h2⟩ := ih _ f hf
          exact ⟨le_trans hle h1, h2⟩

/-- the fires of a round lie between the stored one and the time of the round -/
theorem computeFires_bounds {spec : RecurringSpec} {τ f : Time} (hdue : spec.nextRunAt ≤ τ)
    (hf : f ∈ computeFires parse spec τ) : spec.nextRunAt ≤ f ∧ f ≤ τ := by
  unfold computeFires at hf
  rcases List.mem_cons.mp hf with rfl | hf
  · exact ⟨le_refl _, hdue⟩
  · split at hf
    · exact catchupLoop_bounds _ _ f hf
    · cases hf

/-! ## whole runs -/

theorem step_log {e : Event} (h : step parse s e = some t) : ∃ new, t.log = s.log ++ new := by
  cases e with
  | op o =>
    obtain rfl := Option.some.inj h
    exact ⟨[], (List.append_nil _).symm⟩
  | round ans uuid fuel now id =>
    unfold step at h
    dsimp only at h
    split at h
    · obtain rfl := Option.some.inj h
      exact ⟨[], (List.append_nil _).symm⟩
    · obtain ⟨ops, _, rfl⟩ := Option.map_eq_some_iff.mp h
      exact ⟨_, rfl⟩

/-- the fire was saved since `s₀`, or the spec is as it was, with the fire still to come -/
def Owed (s₀ : Sys) (cur : RecurringSpec) (f : Time) (s : Sys) : Prop :=
  ∃ new, s.log = s₀.log ++ new ∧ (Saved cur.id f new ∨ Distinct s.store ∧ cur ∈ s.store.recurring)

theorem Owed.of_saved {s₀ : Sys} {f : Time} {new : List Job} (hlog : s.log = s₀.log ++ new)
    (hs : Saved cur.id f new) {e : Event} (h : step parse s e = some t) : Owed s₀ cur f t := by
  obtain ⟨more, hmore⟩ := step_log h
  refine ⟨new ++ more, ?_, Or.inl (hs.append_left more)⟩
  rw [hmore, hlog, List.append_assoc]

/-- a round that is due and has all its jobs saved saves the fire -/
theorem saved_of_all (uuid : Nat → JobID) {f τ : Time} (hf : f ∈ computeFires parse cur τ) (hτ : τ ≤ now)
    (hall : ∀ i < (computeFires parse cur now).length, ans.save i = true) :
    Saved cur.id f (savedJobs parse ans uuid now cur) := by
  obtain ⟨i, hi⟩ := List.getElem?_of_mem (computeFires_mono hτ hf)
  exact saved_savedJobs.mpr ⟨i, hi, hall i (List.getElem?_eq_some_iff.mp hi).1⟩

theorem owed_step {s₀ : Sys} {f τ : Time} (hf : f ∈ computeFires parse cur τ) {e : Event}
    (ho : Owed s₀ cur f s) (hl : Later parse cur.id τ s e) (h : step parse s e = some t) :
    Owed s₀ cur f t := by
  obtain ⟨new, hlog, hs | ⟨hd, hcur⟩⟩ := ho
  · exact .of_saved hlog hs h
  · have hd' := step_distinct hd h
    cases e with
    | op o =>
      obtain rfl := Option.some.inj h
      exact ⟨new, hlog, Or.inr ⟨hd', mem_apply hcur hl⟩⟩
    | round ans uuid fuel now i =>
      by_cases hid : i = cur.id
      · subst hid
        obtain ⟨hτ, hsafe⟩ := hl rfl
        rcases round_cases hd hcur h with ⟨_, rfl⟩ | ⟨_, _, next, _, hlog', hmem⟩
        · exact ⟨new, hlog, Or.inr ⟨hd, hcur⟩⟩
        · refine ⟨new ++ savedJobs parse ans uuid now cur, ?_, ?_⟩
          · rw [hlog', hlog, List.append_assoc]
          · rcases hsafe cur hcur rfl with hall | hupdate
            · obtain ⟨j, hj, hj'⟩ := saved_of_all uuid hf hτ hall
              exact Or.inl ⟨j, List.mem_append_right _ hj, hj'⟩
            · -- `NextRunAt` was not written
              have hsame : written ans cur.id next now cur = cur :=
                if_neg fun hw => Bool.false_ne_true (hupdate.symm.trans hw.1)
              exact Or.inr ⟨hd', hsame ▸ hmem⟩
      · obtain ⟨hmem, more, hmore, _⟩ := round_other hcur hid h
        refine ⟨new ++ more, ?_, Or.inr ⟨hd', hmem⟩⟩
        rw [hmore, hlog, List.append_assoc]

/-- **A fire that is owed is still to come**, after any run of safe rounds. -/
theorem owed_kept {s₀ : Sys} {f τ : Time} (hf : f ∈ computeFires parse cur τ) {l : List Event}
    (ho : Owed s₀ cur f s) (hm : Meets (step parse) (Later parse cur.id τ) s l)
    (h : run (step parse) s l = some t) : Owed s₀ cur f t :=
  run_keep_of (fun _ _ _ ho hl hst => owed_step hf ho hl hst) hm ho h

/-- `NextRunAt` is past the fire, which was not saved since `s₀` -/
def Passed (s₀ : Sys) (id : JobID) (f : Time) (s : Sys) : Prop :=
  Distinct s.store ∧ (∃ cur ∈ s.store.recurring, cur.id = id ∧ f < cur.nextRunAt) ∧
    ∃ new, s.log = s₀.log ++ new ∧ ¬ Saved id f new

/-- an event that leaves the spec to the runner -/
def Quiet (id : JobID) : Event → Prop
  | .round .. => True
  | .op o => Leaves id o

theorem not_saved_append {f : Time} {l l' : List Job} (h : ¬ Saved id f l) (h' : ¬ Saved id f l') :
    ¬ Saved id f (l ++ l') := by
  intro hs
  obtain ⟨j, hj, hid, hf⟩ := hs
  rcases List.mem_append.mp hj with hj | hj
  · exact h ⟨j, hj, hid, hf⟩
  · exact h' ⟨j, hj, hid, hf⟩

theorem passed_step {s₀ : Sys} {f : Time} {e : Event} (hp : Passed s₀ id f s) (hq : Quiet id e)
    (h : step parse s e = some t) : Passed s₀ id f t := by
  obtain ⟨hd, ⟨cur, hcur, rfl, hlt⟩, new, hlog, hnot⟩ := hp
  refine ⟨step_distinct hd h, ?_⟩
  cases e with
  | op o =>
    obtain rfl := Option.some.inj h
    exact ⟨⟨cur, mem_apply hcur hq, rfl, hlt⟩, new, hlog, hnot⟩
  | round ans uuid fuel now i =>
    by_cases hid : i = cur.id
    · subst hid
      rcases round_cases hd hcur h with ⟨_, rfl⟩ | ⟨hdue, _, next, hnext, hlog', hmem⟩
      · exact ⟨⟨cur, hcur, rfl, hlt⟩, new, hlog, hnot⟩
      · refine ⟨⟨_, hmem, ?_, ?_⟩, new ++ savedJobs parse ans uuid now cur, ?_, ?_⟩
        · unfold written
          split
          · rfl
          · rfl
        · unfold written
          split
          · exact lt_trans hlt (lt_of_le_of_lt hdue hnext)
          · exact hlt
        · rw [hlog', hlog, List.append_assoc]
        · refine not_saved_append hnot fun hs => ?_
          obtain ⟨k, hk, _⟩ := saved_savedJobs.mp hs
          have hle := (computeFires_bounds hdue (List.mem_of_getElem? hk)).1
          exact absurd hlt (not_lt.mpr hle)
    · obtain ⟨hmem, more, hmore, hne⟩ := round_other hcur hid h
      refine ⟨⟨cur, hmem, rfl, hlt⟩, new ++ more, ?_, not_saved_append hnot fun hs => ?_⟩
      · rw [hmore, hlog, List.append_assoc]
      · obtain ⟨j, hj, hj', _⟩ := hs
        exact hne j hj hj'

/-- **A fire before `NextRunAt` is lost**: no later round saves it. -/
theorem passed_lost {s₀ : Sys} {f : Time} {l : List Event} (hp : Passed s₀ id f s)
    (hq : ∀ e ∈ l, Quiet id e) (h : run (step parse) s l = some t) : Passed s₀ id f t :=
  run_keep_of (fun _ _ _ hp hq hst => passed_step hp hq hst)
    (meets_of_forall fun e he _ => hq e he) hp h

end

/-- **The fires whose `Save` failed are still due after a round exactly if the round is safe.**  Still due:
`NextRunAt` is not past them, and the first round without an error of `Save` enqueues them, after any safe
rounds and any operations on other specs in between. -/
theorem failed_fires_due_iff (parse : String → Except String Schedule) (s t : Sys) (cur : RecurringSpec)
    (ans : Answers) (uuid : Nat → JobID) (fuel : Nat) (now : Time) (hd : Distinct s.store)
    (hcur : cur ∈ s.store.recurring) (hdue : cur.nextRunAt ≤ now) (hlease : ans.lease = true)
    (h : step parse s (.round ans uuid fuel now cur.id) = some t) :
    (∀ (i : Nat) (f : Time), (computeFires parse cur now)[i]? = some f → ans.save i = false →
      (∀ x ∈ t.store.recurring, x.id = cur.id → x.nextRunAt ≤ f) ∧
      ∀ l u ans' uuid' fuel' now' v, Meets (step parse) (Later parse cur.id now) t l →
        run (step parse) t l = some u → now ≤ now' → ans'.lease = true →
        (∀ k, ans'.save k = true) → step parse u (.round ans' uuid' fuel' now' cur.id) = some v →
        ∃ new, v.log = t.log ++ new ∧ Saved cur.id f new) ↔
    (∀ i < (computeFires parse cur now).length, ans.save i = true) ∨ ans.update = false := by
  rcases round_cases hd hcur h with ⟨hskip, _⟩ | ⟨_, _, next, hnext, _, hmem⟩
  · rcases hskip with hskip | hskip
    · exact absurd hskip (not_lt.mpr hdue)
    · rw [hlease] at hskip
      cases hskip
  constructor
  · intro hstill
    by_contra hunsafe
    rw [not_or, not_forall] at hunsafe
    obtain ⟨⟨i, hi⟩, hupdate⟩ := hunsafe
    obtain ⟨hi, hsave⟩ := Classical.not_imp.mp hi
    rw [Bool.not_eq_true] at hsave
    rw [Bool.not_eq_false] at hupdate
    have hget := List.getElem?_eq_getElem hi
    have hle := (hstill i _ hget hsave).1 _ hmem (by unfold written; split <;> rfl)
    have hwritten : (written ans cur.id next now cur).nextRunAt = next := by
      unfold written
      rw [if_pos ⟨hupdate, rfl⟩]
    have hf := (computeFires_bounds hdue (List.getElem_mem hi)).2
    rw [hwritten] at hle
    exact absurd hnext (not_lt.mpr (le_trans hle hf))
  · intro hsafe i f hget hsave
    have hi := (List.getElem?_eq_some_iff.mp hget).1
    have hf := List.mem_of_getElem? hget
    have hupdate : ans.update = false := by
      rcases hsafe with hall | hupdate
      · exact absurd (hall i hi) (by rw [hsave]; exact Bool.false_ne_true)
      · exact hupdate
    have hsame : written ans cur.id next now cur = cur :=
      if_neg fun hw => Bool.false_ne_true (hupdate.symm.trans hw.1)
    rw [hsame] at hmem
    have hd' := step_distinct hd h
    refine ⟨fun x hx hid => ?_, ?_⟩
    · rw [List.inj_on_of_nodup_map hd' hx hmem hid]
      exact (computeFires_bounds hdue hf).1
    · intro l u ans' uuid' fuel' now' v hm hrun hnow hl hall hround
      have ho : Owed t cur f t := ⟨[], (List.append_nil _).symm, Or.inr ⟨hd', hmem⟩⟩
      obtain ⟨new, hlog, hs | ⟨hdu, hcu⟩⟩ := owed_kept hf ho hm hrun
      · obtain ⟨more, hmore⟩ := step_log hround
        refine ⟨new ++ more, ?_, hs.append_left more⟩
        rw [hmore, hlog, List.append_assoc]
      · rcases round_cases hdu hcu hround with ⟨hskip, _⟩ | ⟨_, _, _, _, hlog', _⟩
        · rcases hskip with hskip | hskip
          · exact absurd hskip (not_lt.mpr (le_trans hdue hnow))
          · rw [hl] at hskip
            cases hskip
        · obtain ⟨j, hj, hj'⟩ := saved_of_all uuid' hf hnow fun k _ => hall k
          refine ⟨new ++ savedJobs parse ans' uuid' now' cur, ?_, j, List.mem_append_right _ hj, hj'⟩
          rw [hlog', hlog, List.append_assoc]

/-- a store with the spec `everySecond` -/
def stored : Sys := ⟨Mem.runOps [.upsertRecurring everySecond], []⟩

theorem mem_stored : everySecond ∈ stored.store.recurring := List.mem_singleton.mpr rfl

/-- the update fails together with the save of the second fire, and the next round enqueues it -/
theorem failed_fires_due_retry :
    ∃ t v, step noCron stored (.round ⟨true, fun i => i ≠ 1, false⟩ (fun i => "a" ++ i.repr) 10
        3000000000 everySecond.id) = some t ∧ ¬ Saved everySecond.id 2000000000 t.log ∧
      step noCron t (.round .ok (fun i => "b" ++ i.repr) 10 4000000000 everySecond.id) = some v ∧
      ∃ new, v.log = t.log ++ new ∧ Saved everySecond.id 2000000000 new := by
  have hfirst : (step noCron stored (.round ⟨true, fun i => i ≠ 1, false⟩ (fun i => "a" ++ i.repr) 10
      3000000000 everySecond.id)).any (fun t => decide (¬ Saved everySecond.id 2000000000 t.log) &&
        (step noCron t (.round .ok (fun i => "b" ++ i.repr) 10 4000000000 everySecond.id)).isSome) =
      true := by decide +kernel
  obtain ⟨t, ht, h2⟩ := (Option.any_eq_true _ _).mp hfirst
  rw [Bool.and_eq_true, decide_eq_true_eq] at h2
  obtain ⟨v, hv⟩ := Option.isSome_iff_exists.mp h2.2
  refine ⟨t, v, ht, h2.1, hv, ?_⟩
  have hiff := failed_fires_due_iff noCron stored t everySecond _ _ 10 3000000000 (runOps_distinct _)
    mem_stored (by decide) rfl ht
  exact (hiff.mpr (Or.inr rfl) 1 2000000000 (by decide +kernel) rfl).2 [] t .ok _ 10 4000000000 v
    trivial rfl (by decide) rfl (fun _ => rfl) hv

/-- **A fire is lost for good.**  `Save` fails, the update does not: `NextRunAt` moves on, and no later round
enqueues the fire. -/
theorem failed_save_loses_a_fire :
    computeFires noCron everySecond 1000000000 = [1000000000] ∧
      ∃ t, step noCron stored (.round ⟨true, fun _ => false, true⟩ (fun i => i.repr) 10 1000000000
          everySecond.id) = some t ∧
        ∀ es u, (∀ e ∈ es, Quiet everySecond.id e) → run (step noCron) t es = some u →
          ¬ Saved everySecond.id 1000000000 u.log := by
  refine ⟨by decide +kernel, ?_⟩
  have hround : (step noCron stored (.round ⟨true, fun _ => false, true⟩ (fun i => i.repr) 10
      1000000000 everySecond.id)).any (fun t => decide (t.log = []) &&
        t.store.recurring.any fun r => r.id = "r" ∧ 1000000000 < r.nextRunAt) = true := by
    decide +kernel
  obtain ⟨t, ht, h2⟩ := (Option.any_eq_true _ _).mp hround
  rw [Bool.and_eq_true, decide_eq_true_eq, List.any_eq_true] at h2
  obtain ⟨hlog, cur, hcur, hpast⟩ := h2
  refine ⟨t, ht, fun es u hq hrun hs => ?_⟩
  have hpassed : Passed t everySecond.id 1000000000 t := by
    refine ⟨step_distinct (runOps_distinct _) ht, ⟨cur, hcur, of_decide_eq_true hpast⟩, [],
      (List.append_nil _).symm, fun hs => ?_⟩
    obtain ⟨j, hj, _⟩ := hs
    exact absurd hj List.not_mem_nil
  obtain ⟨_, _, new, hnew, hnot⟩ := passed_lost hpassed hq hrun
  rw [hnew, hlog] at hs
  exact hnot hs

end GS.Recurring.Faults
