import GoSchedule.Lib.Run
import GoSchedule.Postgres.Basic
import GoSchedule.Recurring.Ticks
import GoSchedule.Sqlite.Basic

/-!
# Deleting a schedule while runners tick

A runner lists the schedules and later asks for the lease of each that is due.  For a schedule that is
not there the lease is granted.

* `Catalog`       the statements on schedules that a runner and its callers send to a store;
* `Kind.catalog`  SQLite, Postgres and the memstore;  `sqlite_acquire`, `postgres_acquire`   the two
  statements of a lease, one after the other, are the call;
* `Phase`, `Label`, `step`   any number of runners between two statements, with upserts and deletions,
  and with calls that fail;
* `LateFire s id`   after some steps from `s` a runner asks for the lease on `id`, and saves a job for it;
* `delete_stops_fires_iff`   **a deletion ends the fires of a schedule if and only if** no runner has it
  listed as due and is still to ask for its lease;
* `deleted_schedule_fires`   such a runner, on each of the three stores.
-/

namespace GS.Deletion
open Recurring Trans

/-! ## stores -/

/-- `lease` is the first statement of `AcquireRecurringLease`, with the result if that decides it, and
`check` the result of the second one -/
structure Catalog (σ : Type) where
  init : σ
  list : σ → List RecurringSpec
  upsert : σ → RecurringSpec → σ
  delete : σ → JobID → σ
  lease : σ → JobID → Time → String → Time → σ × Option Bool
  check : σ → JobID → Bool
  save : σ → Job → σ
  update : σ → JobID → Time → Time → σ

namespace Catalog

def ids {σ : Type} (K : Catalog σ) (s : σ) : Set JobID := {id | ∃ r ∈ K.list s, r.id = id}

/-- only an upsert brings in a schedule, a deletion takes it out, and the lease of one that is not there
is granted -/
structure Lawful {σ : Type} (K : Catalog σ) : Prop where
  upsert : ∀ s spec, K.ids (K.upsert s spec) ⊆ insert spec.id (K.ids s)
  delete : ∀ s id, K.ids (K.delete s id) ⊆ K.ids s \ {id}
  lease : ∀ s id L w now, K.ids (K.lease s id L w now).1 ⊆ K.ids s
  save : ∀ s j, K.ids (K.save s j) ⊆ K.ids s
  update : ∀ s id next last, K.ids (K.update s id next last) ⊆ K.ids s
  lease_absent : ∀ s id L w now, id ∉ K.ids s → (K.lease s id L w now).2 ≠ some false
  check_absent : ∀ s id, id ∉ K.ids s → K.check s id = true

end Catalog

/-! ## SQLite -/

section
open Sqlite

/-- `acquireLeaseSQL` on a row -/
def sqliteLeased (leaseUntil : Time) (workerID : String) (r : SpecRow) : SpecRow :=
  { r with leaseUntil := toUnixNano leaseUntil, leasedBy := workerID }

theorem sqliteLeased_id (leaseUntil : Time) (workerID : String) (r : SpecRow) :
    (sqliteLeased leaseUntil workerID r).id = r.id := rfl

/-- the UPDATE of `acquireLeaseSQL` -/
def sqliteLease (db : Db) (specID : JobID) (leaseUntil : Time) (workerID : String) (now : Time) :
    Db × Option Bool :=
  let hit := Db.leaseFree specID (toUnixNano now) workerID
  (db.setRecurring (db.recurring.update hit (sqliteLeased leaseUntil workerID)
    (sqliteLeased_id leaseUntil workerID)),
    if 0 < db.recurring.count hit then some true else none)

/-- the SELECT of `leaseSpecExistsSQL` -/
def sqliteCheck (db : Db) (specID : JobID) : Bool := db.recurring.count (fun r => r.id = specID) = 0

def sqlite : Catalog Db where
  init := Db.empty
  list := Db.listRecurring
  upsert := Db.upsertRecurring
  delete := Db.deleteRecurring
  lease := sqliteLease
  check := sqliteCheck
  save := Db.save
  update := Db.updateRecurringNextRun

/-- with no other statement in between, the two are the call -/
theorem sqlite_acquire (db : Db) (id : JobID) (L : Time) (w : String) (now : Time) :
    db.acquireRecurringLease id L w now = ((sqliteLease db id L w now).1,
      (sqliteLease db id L w now).2.getD (sqliteCheck (sqliteLease db id L w now).1 id)) := by
  unfold Db.acquireRecurringLease sqliteLease sqliteLeased
  dsimp only
  split
  · rfl
  · rename_i h
    have hnone := Keyed.count_eq_zero.mp (Nat.eq_zero_of_not_pos h)
    rw [Keyed.update_of_forall_not hnone]
    rfl

theorem mem_sqlite_ids {db : Db} {id : JobID} :
    id ∈ sqlite.ids db ↔ ∃ r, db.recurring.lookup id = some r := by
  constructor
  · intro h
    obtain ⟨_, hr, rfl⟩ := h
    obtain ⟨r, hrow, rfl⟩ := List.mem_map.mp hr
    exact ⟨r, Keyed.lookup_of_mem hrow⟩
  · intro h
    obtain ⟨r, hr⟩ := h
    have hid : r.id = id := Keyed.lookup_key hr
    exact ⟨scanSpec r, List.mem_map_of_mem (Keyed.mem_of_lookup hr), hid⟩

theorem sqlite_ids_update {db : Db} {p : SpecRow → Bool} {f : SpecRow → SpecRow}
    {hf : ∀ r, (f r).id = r.id} :
    sqlite.ids (db.setRecurring (db.recurring.update p f hf)) ⊆ sqlite.ids db := by
  intro id h
  rw [mem_sqlite_ids] at h ⊢
  obtain ⟨r, hr⟩ := h
  have hr' := (Keyed.lookup_update db.recurring p f hf id).symm.trans hr
  obtain ⟨x, hx, _⟩ := Option.map_eq_some_iff.mp hr'
  exact ⟨x, hx⟩

theorem sqlite_lawful : sqlite.Lawful where
  upsert := fun db spec id h => by
    obtain ⟨r, hr⟩ := mem_sqlite_ids.mp h
    have hr' := (Keyed.lookup_upsert db.recurring (specRowOf spec) _ _ id).symm.trans hr
    split at hr'
    · exact Or.inl ‹_›
    · exact Or.inr (mem_sqlite_ids.mpr ⟨r, hr'⟩)
  delete := fun db i id h => by
    obtain ⟨r, hr⟩ := mem_sqlite_ids.mp h
    have hr' := (Keyed.lookup_delete db.recurring _ id).symm.trans hr
    obtain ⟨hlook, hne⟩ := Option.filter_eq_some_iff.mp hr'
    refine ⟨mem_sqlite_ids.mpr ⟨r, hlook⟩, fun e => ?_⟩
    rw [decide_eq_true ((Keyed.lookup_key hlook).trans e)] at hne
    cases hne
  lease := fun _ _ _ _ _ => sqlite_ids_update
  save := fun _ _ => subset_rfl
  update := fun _ _ _ _ => sqlite_ids_update
  lease_absent := fun db id L w now _ h => by
    have h' : (if 0 < db.recurring.count (Db.leaseFree id (toUnixNano now) w) then some true else none) =
        some false := h
    split at h'
    · cases h'
    · cases h'
  check_absent := fun db id h => by
    refine decide_eq_true (Keyed.count_eq_zero.mpr fun r hr e => h ?_)
    exact mem_sqlite_ids.mpr ⟨r, of_decide_eq_true e ▸ Keyed.lookup_of_mem hr⟩

end

/-! ## Postgres -/

section
open Postgres

def postgresLease (rows : List RecurringSpec) (specID : JobID) (leaseUntil : Time) (workerID : String)
    (now : Time) : List RecurringSpec × Option Bool :=
  if ∃ r ∈ rows, r.id = specID ∧ Free now workerID r then
    (rows.map fun r => if r.id = specID ∧ Free now workerID r then
      { r with leaseUntil := pgTime leaseUntil, leasedBy := workerID } else r, some true)
  else (rows, none)

def postgresCheck (rows : List RecurringSpec) (specID : JobID) : Bool := ¬ ∃ r ∈ rows, r.id = specID

/-- the state is the table of schedules; a job goes to another table -/
def postgres : Catalog (List RecurringSpec) where
  init := []
  list := id
  upsert := upsertRecurring
  delete := fun rows id => deleteRecurring id rows
  lease := postgresLease
  check := postgresCheck
  save := fun rows _ => rows
  update := fun rows id next last => updateRecurringNextRun id next last rows

theorem postgres_acquire (rows : List RecurringSpec) (id : JobID) (L : Time) (w : String) (now : Time) :
    acquireLease id L w now rows = ((postgresLease rows id L w now).1,
      (postgresLease rows id L w now).2.getD (postgresCheck (postgresLease rows id L w now).1 id)) := by
  unfold acquireLease postgresLease
  split
  · rfl
  · rfl

theorem postgres_ids_map {rows : List RecurringSpec} {f : RecurringSpec → RecurringSpec}
    (hf : ∀ r, (f r).id = r.id) : postgres.ids (rows.map f) ⊆ postgres.ids rows := by
  intro id h
  obtain ⟨_, hr, rfl⟩ := h
  obtain ⟨r, hrow, rfl⟩ := List.mem_map.mp hr
  exact ⟨r, hrow, (hf r).symm⟩

theorem postgres_lawful : postgres.Lawful where
  upsert := fun rows spec id h => by
    obtain ⟨r, hr, rfl⟩ := h
    have hr' : r ∈ upsertRecurring rows spec := hr
    unfold upsertRecurring at hr'
    split at hr'
    · obtain ⟨x, hx, rfl⟩ := List.mem_map.mp hr'
      by_cases e : x.id = spec.id
      · rw [if_pos e]
        exact Or.inl rfl
      · rw [if_neg e]
        exact Or.inr ⟨x, hx, rfl⟩
    · rcases List.mem_append.mp hr' with hr' | hr'
      · exact Or.inr ⟨r, hr', rfl⟩
      · rw [List.mem_singleton.mp hr']
        exact Or.inl rfl
  delete := fun rows i id h => by
    obtain ⟨r, hr, rfl⟩ := h
    obtain ⟨hr, hne⟩ := List.mem_filter.mp hr
    exact ⟨⟨r, hr, rfl⟩, of_decide_eq_true hne⟩
  lease := fun rows id L w now => by
    show postgres.ids (postgresLease rows id L w now).1 ⊆ _
    unfold postgresLease
    split
    · refine postgres_ids_map fun r => ?_
      split
      · rfl
      · rfl
    · exact subset_rfl
  save := fun _ _ => subset_rfl
  update := fun rows id next last => by
    refine postgres_ids_map fun r => ?_
    split
    · rfl
    · rfl
  lease_absent := fun rows id L w now _ h => by
    have h' : (postgresLease rows id L w now).2 = some false := h
    unfold postgresLease at h'
    split at h'
    · cases h'
    · cases h'
  check_absent := fun rows id h => decide_eq_true h

end

/-! ## the memstore -/

/-- the lease is always granted, without a second look -/
def memstore : Catalog Mem.Store where
  init := Mem.Store.new
  list := Mem.Store.recurring
  upsert := Mem.Store.upsertRecurring
  delete := Mem.Store.deleteRecurring
  lease := fun s _ _ _ _ => (s, some true)
  check := fun _ _ => true
  save := Mem.Store.save
  update := Mem.Store.updateRecurringNextRun

theorem memstore_lawful : memstore.Lawful where
  upsert := fun s spec id h => by
    obtain ⟨r, hr, rfl⟩ := h
    rcases List.mem_append.mp hr with hr | hr
    · exact Or.inr ⟨r, List.mem_of_mem_filter hr, rfl⟩
    · rw [List.mem_singleton.mp hr]
      exact Or.inl rfl
  delete := fun s i id h => by
    obtain ⟨r, hr, rfl⟩ := h
    obtain ⟨hr, hne⟩ := List.mem_filter.mp hr
    exact ⟨⟨r, hr, rfl⟩, of_decide_eq_true hne⟩
  lease := fun _ _ _ _ _ => subset_rfl
  save := fun s j id h => by
    obtain ⟨r, hr, rfl⟩ := h
    have hr' : r ∈ (s.save j).recurring := hr
    rw [save_recurring] at hr'
    exact ⟨r, hr', rfl⟩
  update := fun s i next last id h => by
    obtain ⟨_, hr, rfl⟩ := h
    obtain ⟨r, hrow, rfl⟩ := List.mem_map.mp hr
    refine ⟨r, hrow, ?_⟩
    split
    · rfl
    · rfl
  lease_absent := fun _ _ _ _ _ _ h => by cases h
  check_absent := fun _ _ _ => rfl

inductive Kind where
  | sqlite
  | postgres
  | memstore
deriving DecidableEq, Repr

abbrev Kind.State : Kind → Type
  | .sqlite => Sqlite.Db
  | .postgres => List RecurringSpec
  | .memstore => Mem.Store

def Kind.catalog : (k : Kind) → Catalog k.State
  | .sqlite => Deletion.sqlite
  | .postgres => Deletion.postgres
  | .memstore => Deletion.memstore

theorem Kind.lawful (k : Kind) : k.catalog.Lawful := by
  cases k with
  | sqlite => exact sqlite_lawful
  | postgres => exact postgres_lawful
  | memstore => exact memstore_lawful

/-! ## runners -/

/-- a runner in its loop over the schedules that it has listed at `now` -/
inductive Phase where
  | idle
  | looping (now : Time) (specs : List RecurringSpec)
  | asking (now : Time) (spec : RecurringSpec) (rest : List RecurringSpec)
  | firing (now : Time) (spec : RecurringSpec) (fires : List Time) (rest : List RecurringSpec)

/-- the schedules of a listing that are due -/
def dueIDs (now : Time) (specs : List RecurringSpec) : List JobID :=
  (specs.filter fun spec => ¬ now < spec.nextRunAt).map RecurringSpec.id

/-- the schedules whose leases the runner is still to ask for in this round -/
def Phase.toAsk : Phase → List JobID
  | .idle => []
  | .looping now specs => dueIDs now specs
  | .asking now _ rest => dueIDs now rest
  | .firing now _ _ rest => dueIDs now rest

/-- the schedule whose lease the runner asks for next -/
def Phase.asks : Phase → Option JobID
  | .looping now (spec :: _) => if now < spec.nextRunAt then none else some spec.id
  | _ => none

structure Sys (σ : Type) where
  store : σ
  phase : String → Phase
  saved : List Job

def Sys.set {σ : Type} (s : Sys σ) (w : String) (p : Phase) : Sys σ :=
  { s with phase := Function.update s.phase w p }

/-- `next` passes over a schedule that is not due, or ends the round.  A call that fails changes
nothing. -/
inductive Label where
  | list (w : String) (now : Time) (specs : List RecurringSpec)
  | next (w : String)
  | acquire (w : String) (clock : Time)
  | check (w : String)
  | acquireFails (w : String)
  | save (w : String) (uuid : JobID)
  | saveFails (w : String)
  | update (w : String) (fuel : Nat)
  | updateFails (w : String) (fuel : Nat)
  | upsert (spec : RecurringSpec)
  | delete (id : JobID)

section
variable {σ : Type} (K : Catalog σ) (parse : String → Except String Schedule)
  (leaseEvery : String → Duration)

/-- what a runner does when its lease call has returned -/
def Phase.answered (now : Time) (spec : RecurringSpec) (rest : List RecurringSpec) : Option Bool → Phase
  | some true => .firing now spec (computeFires parse spec now) rest
  | some false => .looping now rest
  | none => .asking now spec rest

def step (s : Sys σ) : Label → Option (Sys σ)
  | .list w now specs =>
    match s.phase w with
    | .idle => if specs.Perm (K.list s.store) then some (s.set w (.looping now specs)) else none
    | _ => none
  | .next w =>
    match s.phase w with
    | .looping _ [] => some (s.set w .idle)
    | .looping now (spec :: rest) =>
      if now < spec.nextRunAt then some (s.set w (.looping now rest)) else none
    | _ => none
  | .acquire w clock =>
    match s.phase w with
    | .looping now (spec :: rest) =>
      if now < spec.nextRunAt then none
      else
        let r := K.lease s.store spec.id (now.add (leaseEvery w)) w clock
        some { s.set w (.answered parse now spec rest r.2) with store := r.1 }
    | _ => none
  | .check w =>
    match s.phase w with
    | .asking now spec rest =>
      some (s.set w (.answered parse now spec rest (some (K.check s.store spec.id))))
    | _ => none
  | .acquireFails w =>
    match s.phase w with
    | .looping now (spec :: rest) =>
      if now < spec.nextRunAt then none else some (s.set w (.looping now rest))
    | .asking now _ rest => some (s.set w (.looping now rest))
    | _ => none
  | .save w uuid =>
    match s.phase w with
    | .firing now spec (f :: fs) rest =>
      some { s.set w (.firing now spec fs rest) with
        store := K.save s.store (fireJob spec uuid now f), saved := s.saved ++ [fireJob spec uuid now f] }
    | _ => none
  | .saveFails w =>
    match s.phase w with
    | .firing now spec (_ :: fs) rest => some (s.set w (.firing now spec fs rest))
    | _ => none
  | .update w fuel =>
    match s.phase w with
    | .firing now spec [] rest =>
      (nextAfter parse fuel spec now).map fun next =>
        { s.set w (.looping now rest) with store := K.update s.store spec.id next now }
    | _ => none
  | .updateFails w fuel =>
    match s.phase w with
    | .firing now spec [] rest =>
      (nextAfter parse fuel spec now).map fun _ => s.set w (.looping now rest)
    | _ => none
  | .upsert spec => some { s with store := K.upsert s.store spec }
  | .delete id => some { s with store := K.delete s.store id }

/-- `DeleteRecurring` -/
def Sys.deleted (s : Sys σ) (id : JobID) : Sys σ := { s with store := K.delete s.store id }

/-- the runner is in a round on a schedule whose `nextAfter` does not end -/
def Stuck : Phase → Prop
  | .firing now spec _ _ => ∀ fuel, nextAfter parse fuel spec now = none
  | _ => False

/-- after `l₁` a runner asks for the lease on `id`, and that call leads to a job: the runner saves one
before it asks for another lease.  Nobody upserts the schedule. -/
def LateFire (s : Sys σ) (id : JobID) : Prop :=
  ∃ (l₁ l₂ : List Label) (w : String) (clock : Time) (uuid : JobID) (s₁ u : Sys σ),
    run (step K parse leaseEvery) s l₁ = some s₁ ∧ (s₁.phase w).asks = some id ∧
    run (step K parse leaseEvery) s₁ (Label.acquire w clock :: (l₂ ++ [Label.save w uuid])) = some u ∧
    (∀ a ∈ l₂, ∀ clock, a ≠ .acquire w clock) ∧
    (∀ a ∈ l₁ ++ l₂, ∀ spec, a = .upsert spec → spec.id ≠ id) ∧
    ∃ j, u.saved.getLast? = some j ∧ j.recurringID = id

end

/-! ## what a step does -/

section
variable {σ : Type} {K : Catalog σ} {parse : String → Except String Schedule}
  {leaseEvery : String → Duration} {s t : Sys σ} {a : Label} {id : JobID}

/-- the moves of one runner; `I` are the schedules of the store -/
inductive Next (parse : String → Except String Schedule) (I : Set JobID) : Phase → Phase → Prop
  | listed {now : Time} {specs : List RecurringSpec} (h : ∀ r ∈ specs, r.id ∈ I) :
      Next parse I .idle (.looping now specs)
  | ended {now : Time} : Next parse I (.looping now []) .idle
  | passed {now : Time} {spec : RecurringSpec} {rest : List RecurringSpec} :
      Next parse I (.looping now (spec :: rest)) (.looping now rest)
  | asked {now : Time} {spec : RecurringSpec} {rest : List RecurringSpec} (o : Option Bool) :
      Next parse I (.looping now (spec :: rest)) (.answered parse now spec rest o)
  | checked {now : Time} {spec : RecurringSpec} {rest : List RecurringSpec} (b : Bool) :
      Next parse I (.asking now spec rest) (.answered parse now spec rest (some b))
  | fired {now f : Time} {spec : RecurringSpec} {fs : List Time} {rest : List RecurringSpec} :
      Next parse I (.firing now spec (f :: fs) rest) (.firing now spec fs rest)
  | written {now : Time} {spec : RecurringSpec} {rest : List RecurringSpec} {fuel : Nat} {next : Time}
      (h : nextAfter parse fuel spec now = some next) :
      Next parse I (.firing now spec [] rest) (.looping now rest)

theorem set_phase (w w' : String) (p : Phase) (h : Next parse (K.ids s.store) (s.phase w') p) :
    (s.set w' p).phase w = s.phase w ∨ Next parse (K.ids s.store) (s.phase w) ((s.set w' p).phase w) := by
  by_cases e : w = w'
  · subst e
    rw [show (s.set w p).phase w = p from Function.update_self ..]
    exact Or.inr h
  · exact Or.inl (Function.update_of_ne e ..)

/-- **All that a step does to a runner.** -/
theorem step_phase (h : step K parse leaseEvery s a = some t) (w : String) :
    t.phase w = s.phase w ∨ Next parse (K.ids s.store) (s.phase w) (t.phase w) := by
  cases a with
  | list w' now specs =>
    simp only [step] at h
    split at h
    · rename_i hp
      obtain ⟨hperm, e⟩ := Option.ite_none_right_eq_some.mp h
      rw [← Option.some.inj e]
      refine set_phase w w' _ ?_
      rw [hp]
      exact .listed fun r hr => ⟨r, hperm.mem_iff.mp hr, rfl⟩
    · cases h
  | next w' =>
    simp only [step] at h
    split at h
    · rename_i hp
      rw [← Option.some.inj h]
      refine set_phase w w' _ ?_
      rw [hp]
      exact .ended
    · rename_i hp
      obtain ⟨_, e⟩ := Option.ite_none_right_eq_some.mp h
      rw [← Option.some.inj e]
      refine set_phase w w' _ ?_
      rw [hp]
      exact .passed
    · cases h
  | acquire w' clock =>
    simp only [step] at h
    split at h
    · rename_i hp
      obtain ⟨_, e⟩ := Option.ite_none_left_eq_some.mp h
      rw [← Option.some.inj e]
      refine set_phase w w' _ ?_
      rw [hp]
      exact .asked _
    · cases h
  | check w' =>
    simp only [step] at h
    split at h
    · rename_i hp
      rw [← Option.some.inj h]
      refine set_phase w w' _ ?_
      rw [hp]
      exact .checked _
    · cases h
  | acquireFails w' =>
    simp only [step] at h
    split at h
    · rename_i hp
      obtain ⟨_, e⟩ := Option.ite_none_left_eq_some.mp h
      rw [← Option.some.inj e]
      refine set_phase w w' _ ?_
      rw [hp]
      exact .passed
    · rename_i hp
      rw [← Option.some.inj h]
      refine set_phase w w' _ ?_
      rw [hp]
      exact .checked false
    · cases h
  | save w' uuid | saveFails w' =>
    simp only [step] at h
    split at h
    · rename_i hp
      rw [← Option.some.inj h]
      refine set_phase w w' _ ?_
      rw [hp]
      exact .fired
    · cases h
  | update w' fuel | updateFails w' fuel =>
    simp only [step] at h
    split at h
    · rename_i hp
      obtain ⟨next, hnext, e⟩ := Option.map_eq_some_iff.mp h
      rw [← e]
      refine set_phase w w' _ ?_
      rw [hp]
      exact .written hnext
    · cases h
  | upsert | delete =>
    rw [← Option.some.inj h]
    exact Or.inl rfl

/-- a step brings in no schedule but one that is upserted -/
theorem step_ids (L : K.Lawful) (h : step K parse leaseEvery s a = some t)
    (hu : ∀ spec, a = .upsert spec → spec.id ≠ id) (hid : id ∉ K.ids s.store) : id ∉ K.ids t.store := by
  cases a with
  | list w now specs =>
    simp only [step] at h
    split at h
    · obtain ⟨_, e⟩ := Option.ite_none_right_eq_some.mp h
      rw [← Option.some.inj e]
      exact hid
    · cases h
  | next w =>
    simp only [step] at h
    split at h
    · rw [← Option.some.inj h]
      exact hid
    · obtain ⟨_, e⟩ := Option.ite_none_right_eq_some.mp h
      rw [← Option.some.inj e]
      exact hid
    · cases h
  | acquireFails w =>
    simp only [step] at h
    split at h
    · obtain ⟨_, e⟩ := Option.ite_none_left_eq_some.mp h
      rw [← Option.some.inj e]
      exact hid
    · rw [← Option.some.inj h]
      exact hid
    · cases h
  | check | saveFails =>
    simp only [step] at h
    split at h
    · rw [← Option.some.inj h]
      exact hid
    · cases h
  | acquire w clock =>
    simp only [step] at h
    split at h
    · obtain ⟨_, e⟩ := Option.ite_none_left_eq_some.mp h
      rw [← Option.some.inj e]
      exact fun hm => hid (L.lease _ _ _ _ _ hm)
    · cases h
  | save w uuid =>
    simp only [step] at h
    split at h
    · rw [← Option.some.inj h]
      exact fun hm => hid (L.save _ _ hm)
    · cases h
  | update w fuel =>
    simp only [step] at h
    split at h
    · obtain ⟨next, _, e⟩ := Option.map_eq_some_iff.mp h
      rw [← e]
      exact fun hm => hid (L.update _ _ _ _ hm)
    · cases h
  | updateFails w fuel =>
    simp only [step] at h
    split at h
    · obtain ⟨next, _, e⟩ := Option.map_eq_some_iff.mp h
      rw [← e]
      exact hid
    · cases h
  | upsert spec =>
    rw [← Option.some.inj h]
    intro hm
    rcases L.upsert _ _ hm with e | hm
    · exact hu spec rfl e.symm
    · exact hid hm
  | delete i =>
    rw [← Option.some.inj h]
    exact fun hm => hid (L.delete _ _ hm).1

theorem dueIDs_cons_subset (now : Time) (spec : RecurringSpec) (rest : List RecurringSpec) :
    dueIDs now rest ⊆ dueIDs now (spec :: rest) :=
  List.map_subset _ (List.filter_subset _ (List.subset_cons_self _ _))

theorem toAsk_answered (now : Time) (spec : RecurringSpec) (rest : List RecurringSpec)
    (o : Option Bool) : (Phase.answered parse now spec rest o).toAsk = dueIDs now rest := by
  match o with
  | some true => rfl
  | some false => rfl
  | none => rfl

/-- a runner does not come back to a schedule that is gone -/
theorem Next.stuck {I : Set JobID} {p p' : Phase} (n : Next parse I p p') (hid : id ∉ I)
    (hp : id ∈ p.toAsk → Stuck parse p) (h : id ∈ p'.toAsk) : Stuck parse p' := by
  cases n with
  | listed hI =>
    obtain ⟨r, hr, rfl⟩ := List.mem_map.mp h
    exact absurd (hI r (List.mem_of_mem_filter hr)) hid
  | ended => cases h
  | passed => exact (hp (dueIDs_cons_subset _ _ _ h)).elim
  | asked o =>
    rw [toAsk_answered] at h
    exact (hp (dueIDs_cons_subset _ _ _ h)).elim
  | checked b =>
    rw [toAsk_answered] at h
    exact (hp h).elim
  | fired => exact hp h
  | @written _ _ _ fuel next hnext =>
    have hnone := hp h fuel
    rw [hnext] at hnone
    cases hnone

theorem mem_toAsk_of_asks (parse : String → Except String Schedule) {p : Phase}
    (h : p.asks = some id) : id ∈ p.toAsk ∧ ¬ Stuck parse p := by
  unfold Phase.asks at h
  split at h
  · split at h
    · cases h
    · rename_i now spec rest hdue
      refine ⟨?_, fun h => h⟩
      rw [← Option.some.inj h]
      refine List.mem_map_of_mem (List.mem_filter.mpr ⟨List.mem_cons_self, ?_⟩)
      exact decide_eq_true hdue
  · cases h

/-- the schedule is not there, and no runner can ask for its lease -/
def Gone (K : Catalog σ) (parse : String → Except String Schedule) (id : JobID) (s : Sys σ) : Prop :=
  id ∉ K.ids s.store ∧ ∀ w, id ∈ (s.phase w).toAsk → Stuck parse (s.phase w)

theorem step_gone (L : K.Lawful) (h : step K parse leaseEvery s a = some t)
    (hu : ∀ spec, a = .upsert spec → spec.id ≠ id) (hg : Gone K parse id s) : Gone K parse id t := by
  refine ⟨step_ids L h hu hg.1, fun w hw => ?_⟩
  rcases step_phase h w with e | n
  · rw [e] at hw ⊢
    exact hg.2 w hw
  · exact n.stuck hg.1 (hg.2 w) hw

theorem not_lateFire (L : K.Lawful) (hg : Gone K parse id s) : ¬ LateFire K parse leaseEvery s id := by
  intro h
  obtain ⟨l₁, l₂, w, clock, uuid, s₁, u, h₁, hasks, _, _, hu, _⟩ := h
  have hstep : ∀ s a t, Gone K parse id s → (∀ spec, a = .upsert spec → spec.id ≠ id) →
      step K parse leaseEvery s a = some t → Gone K parse id t :=
    fun s a t hg hu h => step_gone L h hu hg
  have hm : Meets (step K parse leaseEvery) (fun _ a => ∀ spec, a = .upsert spec → spec.id ≠ id) s l₁ :=
    meets_of_forall fun a ha _ => hu a (List.mem_append_left _ ha)
  have hg₁ := run_keep_of hstep hm hg h₁
  obtain ⟨hin, hns⟩ := mem_toAsk_of_asks parse hasks
  exact hns (hg₁.2 w hin)

/-! ## a runner that is late -/

theorem phase_set (s : Sys σ) (w : String) (p : Phase) : (s.set w p).phase w = p := Function.update_self ..

/-- steps that lead from `s` to `t` and neither change the store nor upsert anything -/
def Idles (K : Catalog σ) (parse : String → Except String Schedule) (leaseEvery : String → Duration)
    (s t : Sys σ) : Prop :=
  ∃ l, run (step K parse leaseEvery) s l = some t ∧ t.store = s.store ∧ ∀ a ∈ l, ∀ spec, a ≠ .upsert spec

theorem Idles.refl (s : Sys σ) : Idles K parse leaseEvery s s :=
  ⟨[], rfl, rfl, fun _ h => absurd h List.not_mem_nil⟩

theorem Idles.set {w : String} {p : Phase} (h : step K parse leaseEvery s a = some (s.set w p))
    (ha : ∀ spec, a ≠ .upsert spec) (hi : Idles K parse leaseEvery (s.set w p) t) :
    Idles K parse leaseEvery s t := by
  obtain ⟨l, hrun, hstore, hl⟩ := hi
  refine ⟨a :: l, run_cons.mpr ⟨s.set w p, h, hrun⟩, hstore, fun b hb => ?_⟩
  rcases List.mem_cons.mp hb with rfl | hb
  · exact ha
  · exact hl b hb

/-- the calls for the schedules before it can all fail -/
theorem exists_ask {w : String} {now : Time} (specs : List RecurringSpec) (s : Sys σ)
    (hp : s.phase w = .looping now specs) (hid : id ∈ dueIDs now specs) :
    ∃ t, Idles K parse leaseEvery s t ∧ (t.phase w).asks = some id := by
  induction specs generalizing s with
  | nil => cases hid
  | cons spec rest ih =>
    by_cases hdue : now < spec.nextRunAt
    · have hrest : id ∈ dueIDs now rest := by
        unfold dueIDs at hid ⊢
        rwa [List.filter_cons_of_neg (by simpa using hdue)] at hid
      obtain ⟨t, hi, ht⟩ := ih (s.set w (.looping now rest)) (phase_set ..) hrest
      refine ⟨t, .set (a := .next w) ?_ (fun _ => nofun) hi, ht⟩
      simp only [step, hp]
      exact if_pos hdue
    · by_cases e : spec.id = id
      · refine ⟨s, .refl s, ?_⟩
        rw [hp, ← e]
        exact if_neg hdue
      · have hrest : id ∈ dueIDs now rest := by
          unfold dueIDs at hid ⊢
          rw [List.filter_cons_of_pos (by simpa using hdue), List.map_cons] at hid
          exact (List.mem_cons.mp hid).resolve_left (Ne.symm e)
        obtain ⟨t, hi, ht⟩ := ih (s.set w (.looping now rest)) (phase_set ..) hrest
        refine ⟨t, .set (a := .acquireFails w) ?_ (fun _ => nofun) hi, ht⟩
        simp only [step, hp]
        exact if_neg hdue

/-- and so can all calls of a round that has begun -/
theorem exists_looping {w : String} {now : Time} {spec : RecurringSpec} {rest : List RecurringSpec}
    {fuel : Nat} {next : Time} (hn : nextAfter parse fuel spec now = some next) (fires : List Time)
    (s : Sys σ) (hp : s.phase w = .firing now spec fires rest) :
    ∃ t, Idles K parse leaseEvery s t ∧ t.phase w = .looping now rest := by
  induction fires generalizing s with
  | nil =>
    refine ⟨s.set w (.looping now rest), .set (a := .updateFails w fuel) ?_ (fun _ => nofun) (.refl _),
      phase_set ..⟩
    simp only [step, hp, hn]
    rfl
  | cons f fs ih =>
    obtain ⟨t, hi, ht⟩ := ih (s.set w (.firing now spec fs rest)) (phase_set ..)
    refine ⟨t, .set (a := .saveFails w) ?_ (fun _ => nofun) hi, ht⟩
    simp only [step, hp]

theorem Idles.trans {u : Sys σ} (h : Idles K parse leaseEvery s t) (h' : Idles K parse leaseEvery t u) :
    Idles K parse leaseEvery s u := by
  obtain ⟨l, hrun, hstore, hl⟩ := h
  obtain ⟨l', hrun', hstore', hl'⟩ := h'
  refine ⟨l ++ l', run_append.mpr ⟨t, hrun, hrun'⟩, hstore'.trans hstore, fun a ha => ?_⟩
  rcases List.mem_append.mp ha with ha | ha
  · exact hl a ha
  · exact hl' a ha

theorem exists_ask_of_toAsk {w : String} (hid : id ∈ (s.phase w).toAsk) (hns : ¬ Stuck parse (s.phase w)) :
    ∃ t, Idles K parse leaseEvery s t ∧ (t.phase w).asks = some id := by
  cases hp : s.phase w with
  | idle =>
    rw [hp] at hid
    cases hid
  | looping now specs =>
    rw [hp] at hid
    exact exists_ask specs s hp hid
  | asking now spec rest =>
    rw [hp] at hid
    have hask : ∃ t, Idles K parse leaseEvery (s.set w (.looping now rest)) t ∧
        (t.phase w).asks = some id := exists_ask rest _ (phase_set ..) hid
    obtain ⟨t, hi, ht⟩ := hask
    refine ⟨t, .set (a := .acquireFails w) ?_ (fun _ => nofun) hi, ht⟩
    simp only [step, hp]
  | firing now spec fires rest =>
    rw [hp] at hid hns
    obtain ⟨fuel, hfuel⟩ := not_forall.mp hns
    obtain ⟨next, hnext⟩ := Option.ne_none_iff_exists'.mp hfuel
    obtain ⟨t, hi, ht⟩ := exists_looping hnext fires s hp
    obtain ⟨u, hi', hu⟩ := exists_ask rest t ht hid
    exact ⟨u, hi.trans hi', hu⟩

theorem asks_eq_some {p : Phase} (h : p.asks = some id) : ∃ now spec rest,
    p = .looping now (spec :: rest) ∧ ¬ now < spec.nextRunAt ∧ spec.id = id := by
  unfold Phase.asks at h
  split at h
  · split at h
    · cases h
    · exact ⟨_, _, _, rfl, by assumption, Option.some.inj h⟩
  · cases h

/-- the first job of a round -/
theorem save_last (K : Catalog σ) (leaseEvery : String → Duration) {w : String} {now : Time}
    {spec : RecurringSpec} {rest : List RecurringSpec}
    (hp : s.phase w = .firing now spec (computeFires parse spec now) rest) :
    ∃ u, step K parse leaseEvery s (.save w "") = some u ∧
      ∃ j, u.saved.getLast? = some j ∧ j.recurringID = spec.id := by
  have hstep : step K parse leaseEvery s (.save w "") =
      some { s.set w (.firing now spec (computeFires parse spec now).tail rest) with
        store := K.save s.store (fireJob spec "" now spec.nextRunAt),
        saved := s.saved ++ [fireJob spec "" now spec.nextRunAt] } := by
    simp only [step, hp]
    rfl
  exact ⟨_, hstep, fireJob spec "" now spec.nextRunAt, List.getLast?_concat, rfl⟩

/-- the lease on a schedule that is gone is granted -/
theorem lateFire_of_asks (L : K.Lawful) (hid : id ∉ K.ids s.store) (hi : Idles K parse leaseEvery s t)
    {w : String} (hasks : (t.phase w).asks = some id) : LateFire K parse leaseEvery s id := by
  obtain ⟨l, hrun, hstore, hl⟩ := hi
  obtain ⟨now, spec, rest, hp, hdue, rfl⟩ := asks_eq_some hasks
  rw [← hstore] at hid
  have hup : ∀ l₂ : List Label, (∀ a ∈ l₂, ∀ spec, a ≠ .upsert spec) →
      ∀ a ∈ l ++ l₂, ∀ x, a = .upsert x → x.id ≠ spec.id := by
    intro l₂ hl₂ a ha x e
    rcases List.mem_append.mp ha with ha | ha
    · exact absurd e (hl a ha x)
    · exact absurd e (hl₂ a ha x)
  set r := K.lease t.store spec.id (now.add (leaseEvery w)) w 0 with hr
  have hacq : step K parse leaseEvery t (.acquire w 0) =
      some { t.set w (.answered parse now spec rest r.2) with store := r.1 } := by
    simp only [step, hp]
    exact if_neg hdue
  have hgone : spec.id ∉ K.ids r.1 := fun h => hid (L.lease _ _ _ _ _ h)
  set t₁ : Sys σ := { t.set w (.answered parse now spec rest r.2) with store := r.1 } with ht₁
  have hp₁ : t₁.phase w = .answered parse now spec rest r.2 := phase_set ..
  match hr2 : r.2 with
  | some false => exact absurd hr2 (L.lease_absent _ _ _ _ _ hid)
  | some true =>
    rw [hr2] at hp₁
    obtain ⟨u, hu, hj⟩ := save_last K leaseEvery hp₁
    refine ⟨l, [], w, 0, "", t, u, hrun, hasks, ?_, fun _ h => absurd h List.not_mem_nil,
      hup [] fun _ h => absurd h List.not_mem_nil, hj⟩
    exact run_cons.mpr ⟨t₁, hacq, run_cons.mpr ⟨u, hu, rfl⟩⟩
  | none =>
    rw [hr2] at hp₁
    have hcheck : step K parse leaseEvery t₁ (.check w) =
        some (t₁.set w (.firing now spec (computeFires parse spec now) rest)) := by
      have hc : K.check t₁.store spec.id = true := L.check_absent _ _ hgone
      simp only [step, hp₁, Phase.answered, hc]
    obtain ⟨u, hu, hj⟩ := save_last K leaseEvery
      (phase_set t₁ w (.firing now spec (computeFires parse spec now) rest))
    refine ⟨l, [.check w], w, 0, "", t, u, hrun, hasks, ?_, ?_, hup [.check w] ?_, hj⟩
    · exact run_cons.mpr ⟨t₁, hacq, run_cons.mpr ⟨_, hcheck, run_cons.mpr ⟨u, hu, rfl⟩⟩⟩
    · intro a ha clock
      rw [List.mem_singleton.mp ha]
      exact nofun
    · intro a ha x
      rw [List.mem_singleton.mp ha]
      exact nofun

end

/-- **When a deletion ends the fires of a schedule**, on SQLite, Postgres and the memstore, in any state of
any number of runners: no lease call that is made after `DeleteRecurring`, along any interleaving without
an upsert of the schedule, leads to a job, if and only if no runner has listed the schedule as due and is
still to ask for its lease (a runner whose `nextAfter` does not end never asks). -/
theorem delete_stops_fires_iff (k : Kind) (parse : String → Except String Schedule)
    (leaseEvery : String → Duration) (s : Sys k.State) (id : JobID) :
    ¬ LateFire k.catalog parse leaseEvery (s.deleted k.catalog id) id ↔
      ∀ w, id ∈ (s.phase w).toAsk → Stuck parse (s.phase w) := by
  have hid : id ∉ k.catalog.ids (s.deleted k.catalog id).store :=
    fun h => (k.lawful.delete _ _ h).2 rfl
  constructor
  · intro h w hw
    by_contra hns
    obtain ⟨t, hi, ht⟩ := exists_ask_of_toAsk (s := s.deleted k.catalog id) hw hns
    exact h (lateFire_of_asks k.lawful hid hi ht)
  · exact fun h => not_lateFire k.lawful ⟨hid, h⟩

def dueSpec : RecurringSpec :=
  { id := "r", name := "job", queue := "q", every := 1000000000, nextRunAt := 1000 }

/-- the runner of `A` lists the schedule and goes on after the deletion; the lease of a SQL store is two
statements -/
def lateRun : Kind → List Label
  | .sqlite | .postgres =>
    [.upsert dueSpec, .list "A" 2000 [dueSpec], .delete "r", .acquire "A" 3000, .check "A", .save "A" "u"]
  | .memstore => [.upsert dueSpec, .list "A" 2000 [dueSpec], .delete "r", .acquire "A" 3000, .save "A" "u"]

/-- the schedules that are left at the end of that run, and the schedules of the jobs that were saved -/
def lateOutcome (k : Kind) : Option (List RecurringSpec × List JobID) :=
  (run (step k.catalog noCron fun _ => 1000000000) ⟨k.catalog.init, fun _ => .idle, []⟩ (lateRun k)).map
    fun s => (k.catalog.list s.store, s.saved.map Job.recurringID)

/-- **A deleted schedule fires**: on each store the lease on it is granted, and a job is saved. -/
theorem deleted_schedule_fires : lateOutcome .sqlite = some ([], ["r"]) ∧
    lateOutcome .postgres = some ([], ["r"]) ∧ lateOutcome .memstore = some ([], ["r"]) := by
  refine ⟨?_, ?_, ?_⟩
  · decide +kernel
  · decide +kernel
  · decide +kernel

end GS.Deletion
