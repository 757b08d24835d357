import GoSchedule.Leases
import GoSchedule.Postgres.Tx
import GoSchedule.Routes.Backend
import GoSchedule.Sqlite.Attempts

/-!
# Queues and names in the SQL stores

* `Sqlite.backend`     a step is a whole call;
* `Postgres.backend`   a step is one statement of a call, on the jobs (`Tx.step`) or on the schedules.
  What is in the store is what is committed.
-/

namespace GS.Leases

def Op.upserts : Op → Option RecurringSpec
  | .upsert spec => some spec
  | _ => none

end GS.Leases

/-! ## SQLite -/

namespace GS.Sqlite
open Inherit Routes

def Op.saves : Op → Option Job
  | .save j => some j
  | _ => none

def rowTag (r : Row) : JobID × String × String := (r.id, r.queue, r.name)

def specRowTag (r : SpecRow) : String × String := (r.queue, r.name)

/-- a call on jobs, or one on schedules -/
abbrev AnyOp := Op ⊕ Leases.Op

def anyCall (db : Db) : AnyOp → Db
  | .inl o => (call db o).1
  | .inr o => (Leases.OnSqlite.call db o).1

section
variable (db : Db)

/-- a call on jobs leaves the schedules alone -/
theorem call_inherits (o : Op) : (call db o).1.recurring = db.recurring ∧
    Inherits rowTag {c | ∃ j, o.saves = some j ∧ tag j = c}
      {r | r ∈ db.jobs.rows} {r | r ∈ (call db o).1.jobs.rows} := by
  cases o with
  | save j =>
    refine ⟨rfl, rows_upsert ⟨j, rfl, rfl⟩ fun r hr => ⟨j, rfl, ?_⟩⟩
    show tag j = (r.id, j.queue, j.name)
    rw [show r.id = j.id from hr]
    rfl
  | claimDue q now n w lu => exact ⟨rfl, map_if fun _ => rfl⟩
  | ack id =>
    dsimp only [call]
    unfold Db.ack
    dsimp only
    split
    · exact ⟨rfl, of_subset subset_rfl⟩
    · exact ⟨rfl, rows_delete⟩
  | fail id msg t now =>
    dsimp only [call]
    unfold Db.fail
    split
    · exact ⟨rfl, of_subset subset_rfl⟩
    · split
      · exact ⟨rfl, of_subset subset_rfl⟩
      · split
        · exact ⟨rfl, rows_delete⟩
        · exact ⟨rfl, map_if fun _ => rfl⟩
  | cancel id =>
    dsimp only [call]
    unfold Db.cancel
    split
    · exact ⟨rfl, of_subset subset_rfl⟩
    · split
      · exact ⟨rfl, of_subset subset_rfl⟩
      · exact ⟨rfl, rows_delete⟩
  | reschedule id t now =>
    dsimp only [call]
    unfold Db.reschedule
    split
    · exact ⟨rfl, of_subset subset_rfl⟩
    · split
      · exact ⟨rfl, of_subset subset_rfl⟩
      · exact ⟨rfl, map_if fun _ => rfl⟩
  | recoverStale now => exact ⟨rfl, map_if fun _ => rfl⟩

/-- and the other way round -/
theorem leaseCall_inherits (o : Leases.Op) : (Leases.OnSqlite.call db o).1.jobs = db.jobs ∧
    Inherits specRowTag {c | ∃ r, o.upserts = some r ∧ specTag r = c}
      {r | r ∈ db.recurring.rows} {r | r ∈ (Leases.OnSqlite.call db o).1.recurring.rows} := by
  cases o with
  | acquire id L w now =>
    dsimp only [Leases.OnSqlite.call]
    unfold Db.acquireRecurringLease
    dsimp only
    split
    · exact ⟨rfl, map_if fun _ => rfl⟩
    · exact ⟨rfl, map_if fun _ => rfl⟩
  | upsert spec => exact ⟨rfl, rows_upsert ⟨spec, rfl, rfl⟩ fun r _ => ⟨spec, rfl, rfl⟩⟩
  | updateNextRun id next last => exact ⟨rfl, map_if fun _ => rfl⟩
  | delete id => exact ⟨rfl, rows_delete⟩

end

theorem setOf_map {α β : Type} (l : List α) (g : α → β) :
    {y | y ∈ l.map g} = g '' {x | x ∈ l} := by
  ext y
  exact List.mem_map

def backend : Backend Db AnyOp where
  init := Db.empty
  step := fun db o => some (anyCall db o)
  saves := fun o => o.elim Op.saves fun _ => none
  upserts := fun o => o.elim (fun _ => none) Leases.Op.upserts
  jobs := fun db => scanJob '' {r | r ∈ db.jobs.rows}
  specs := fun db => db.listRecurring
  Inv := fun _ => True
  inv_init := trivial
  jobs_init := Set.eq_empty_of_forall_notMem fun _ h => by
    obtain ⟨_, h, _⟩ := h
    cases h
  specs_init := rfl
  inv_step := fun _ _ _ _ _ _ => trivial
  jobs_step := fun db o t _ _ h => by
    rw [← Option.some.inj h]
    cases o with
    | inl o => exact (call_inherits db o).2.image fun _ => rfl
    | inr o =>
      rw [show (anyCall db (.inr o)).jobs = db.jobs from (leaseCall_inherits db o).1]
      exact of_subset subset_rfl
  specs_step := fun db o t _ h => by
    rw [← Option.some.inj h]
    cases o with
    | inl o =>
      unfold Db.listRecurring
      rw [show (anyCall db (.inl o)).recurring = db.recurring from (call_inherits db o).1]
      exact of_subset subset_rfl
    | inr o =>
      unfold Db.listRecurring
      rw [setOf_map, setOf_map]
      exact (leaseCall_inherits db o).2.image fun _ => rfl

end GS.Sqlite

/-! ## Postgres -/

namespace GS.Postgres
open Inherit Routes RowLock

def Tx.Label.saves : Tx.Label → Option Job
  | .save j => some j
  | _ => none

/-- a statement on the jobs, or a call on the schedules -/
abbrev AnyOp := Tx.Label ⊕ Leases.Op

def anyStep (s : Tx.Sys × List RecurringSpec) : AnyOp → Option (Tx.Sys × List RecurringSpec)
  | .inl a => (Tx.step s.1 a).map fun t => (t, s.2)
  | .inr o => some (s.1, (Leases.OnPostgres.call s.2 o).1)

section
variable {s t : Tx.Sys}

/-- the part of a step that matters here -/
def Passes (N : Set (JobID × String × String)) (s t : Tx.Sys) : Prop :=
  Tagged tag t.table ∧ Inherits tag N (values s.table.row) (values t.table.row)

variable {N : Set (JobID × String × String)}

theorem passes_of_row {t : Tx.Sys} (ht : Tagged tag t.table) (h : t.table.row = s.table.row) :
    Passes N s t := by
  refine ⟨ht, ?_⟩
  rw [h]
  exact of_subset subset_rfl

theorem select_passes (ht : Tagged tag s.table) {i : Nat} {id : JobID} {x : State}
    {next : Job → Tx.Session} (h : Tx.select s i id x next = some t) : Passes N s t := by
  obtain ⟨_, h⟩ := Option.ite_none_right_eq_some.mp h
  split at h
  · split at h
    · rw [← Option.some.inj h]
      exact passes_of_row ht rfl
    · rw [← Option.some.inj h]
      exact passes_of_row ht rfl
  · rw [← Option.some.inj h]
    exact passes_of_row ht rfl

theorem write_passes (ht : Tagged tag s.table) {i : Nat} {id : JobID} {p : Job → Bool}
    {f : Job → Option Job} {next : Option Job → Tx.Session} (h : Tx.write s i id p f next = some t)
    (hf : ∀ x y, f x = some y → tag x = tag y) : Passes N s t := by
  obtain ⟨r, hr, rfl⟩ := Option.map_eq_some_iff.mp h
  obtain ⟨h1, h2⟩ := tagged_update ht hr hf
  exact passes_of_row h1 h2

theorem tag_upsertRow (old : Option Job) (j : Job) : tag (Tx.upsertRow old j) = tag j := by
  cases old with
  | none => rfl
  | some r => rfl

theorem step_passes {a : Tx.Label} (ht : Tagged tag s.table) (h : Tx.step s a = some t) :
    Passes {c | ∃ j, a.saves = some j ∧ tag j = c} s t := by
  cases a with
  | save j =>
    obtain ⟨hl, h⟩ := Option.ite_none_right_eq_some.mp h
    rw [← Option.some.inj h]
    exact tagged_put ht hl ⟨j, rfl, (tag_upsertRow _ j).symm⟩
  | claim q now n w lu picked =>
    obtain ⟨_, h⟩ := Option.ite_none_right_eq_some.mp h
    rw [← Option.some.inj h]
    refine tagged_mapRows ht fun k x => ?_
    split
    · rfl
    · rfl
  | ack id =>
    obtain ⟨T, hT, rfl⟩ := Option.map_eq_some_iff.mp h
    exact tagged_exec ht hT fun _ _ e => (nomatch e)
  | recoverStale now =>
    obtain ⟨_, h⟩ := Option.ite_none_right_eq_some.mp h
    rw [← Option.some.inj h]
    refine tagged_mapRows ht fun k x => ?_
    split
    · rfl
    · rfl
  | failSelect i id msg u => exact select_passes ht h
  | failWrite i now =>
    simp only [Tx.step] at h
    split at h
    · split at h
      · exact write_passes ht h fun _ _ e => (nomatch e)
      · exact write_passes ht h fun _ _ e => Option.some.inj e ▸ rfl
    · cases h
  | cancelSelect i id => exact select_passes ht h
  | cancelDelete i =>
    simp only [Tx.step] at h
    split at h
    · exact write_passes ht h fun _ _ e => (nomatch e)
    · cases h
  | rescheduleSelect i id u => exact select_passes ht h
  | rescheduleUpdate i now =>
    simp only [Tx.step] at h
    split at h
    · exact write_passes ht h fun _ _ e => Option.some.inj e ▸ rfl
    · cases h
  | commit i =>
    simp only [Tx.step] at h
    split at h
    · rw [← Option.some.inj h]
      exact tagged_commit ht i _
    · rw [← Option.some.inj h]
      exact tagged_commit ht i _
    · rw [← Option.some.inj h]
      exact tagged_commit ht i _
    · cases h
  | rollback i =>
    simp only [Tx.step] at h
    split at h
    · rw [← Option.some.inj h]
      obtain ⟨h1, h2⟩ := tagged_rollback ht i _
      exact passes_of_row h1 h2
    · rw [← Option.some.inj h]
      exact passes_of_row ht rfl
  | tick d =>
    rw [← Option.some.inj h]
    exact passes_of_row ht rfl

end

theorem leaseCall_inherits (rows : List RecurringSpec) (o : Leases.Op) :
    Inherits specTag {c | ∃ r, o.upserts = some r ∧ specTag r = c} {r | r ∈ rows}
      {r | r ∈ (Leases.OnPostgres.call rows o).1} := by
  cases o with
  | acquire id L w now =>
    dsimp only [Leases.OnPostgres.call]
    unfold acquireLease
    split
    · exact map_if fun _ => rfl
    · exact of_subset subset_rfl
  | upsert spec =>
    refine of_new fun r hr => ?_
    change r ∈ upsertRecurring rows spec at hr
    unfold upsertRecurring at hr
    split at hr
    · obtain ⟨x, hx, rfl⟩ := List.mem_map.mp hr
      split
      · exact Or.inr ⟨spec, rfl, rfl⟩
      · exact Or.inl hx
    · rcases List.mem_append.mp hr with hr | hr
      · exact Or.inl hr
      · rw [List.mem_singleton.mp hr]
        exact Or.inr ⟨spec, rfl, rfl⟩
  | updateNextRun id next last => exact map_if fun _ => rfl
  | delete id => exact of_subset fun _ hr => List.mem_of_mem_filter hr

/-- a pool of `size` connections, and a server with the clock `clock` -/
def backend (size : Nat) (clock : Time) : Backend (Tx.Sys × List RecurringSpec) AnyOp where
  init := (Tx.Sys.init size clock, [])
  step := anyStep
  saves := fun o => o.elim Tx.Label.saves fun _ => none
  upserts := fun o => o.elim (fun _ => none) Leases.Op.upserts
  jobs := fun s => values s.1.table.row
  specs := fun s => s.2
  Inv := fun s => Tagged tag s.1.table
  inv_init := fun _ _ _ h => (nomatch h)
  jobs_init := Set.eq_empty_of_forall_notMem fun _ h => by
    obtain ⟨_, h⟩ := h
    cases h
  specs_init := rfl
  inv_step := fun s o t ht _ h => by
    cases o with
    | inl a =>
      obtain ⟨u, hu, rfl⟩ := Option.map_eq_some_iff.mp h
      exact (step_passes ht hu).1
    | inr o =>
      rw [← Option.some.inj h]
      exact ht
  jobs_step := fun s o t ht _ h => by
    cases o with
    | inl a =>
      obtain ⟨u, hu, rfl⟩ := Option.map_eq_some_iff.mp h
      exact (step_passes ht hu).2
    | inr o =>
      rw [← Option.some.inj h]
      exact of_subset subset_rfl
  specs_step := fun s o t _ h => by
    cases o with
    | inl a =>
      obtain ⟨u, _, rfl⟩ := Option.map_eq_some_iff.mp h
      exact of_subset subset_rfl
    | inr o =>
      rw [← Option.some.inj h]
      exact leaseCall_inherits s.2 o

end GS.Postgres
