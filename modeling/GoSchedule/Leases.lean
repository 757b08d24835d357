import GoSchedule.Lib.Sim
import GoSchedule.Postgres.Basic
import GoSchedule.Sqlite.Basic

/-!
# Leases on recurring schedules

The SQL stores keep the lease of a spec in the row of the spec, next to what `UpsertRecurring` and
`UpdateRecurringNextRun` write.

* `Op`             the calls on the table; `now` is the clock of the store at an acquire;
* `latest id h`    the worker and the end of the last lease that the history `h` grants on a spec;
* `Keeper`         what a store has to do for its leases;  `Keeper.latest_held`   then the row has the
  latest lease;
* `sqlite`, `postgres`   the two stores do so;
* `leases_exclusive`   **until a lease ends nobody else gets one, and the first to ask after that
  does**.
-/

namespace GS.Leases
open Sim

inductive Op where
  | acquire (specID : JobID) (leaseUntil : Time) (workerID : String) (now : Time)
  | upsert (spec : RecurringSpec)
  | updateNextRun (id : JobID) (nextRunAt lastFireAt : Time)
  | delete (id : JobID)
deriving DecidableEq, Repr

/-- the call does not delete the spec -/
def Keeps (id : JobID) : Op → Prop
  | .delete i => i ≠ id
  | _ => True

/-- the lease that a call grants on a spec -/
def grant (id : JobID) : Op × Bool → Option (String × Time)
  | (.acquire specID leaseUntil workerID _, true) =>
    if specID = id then some (workerID, leaseUntil) else none
  | _ => none

def latest (id : JobID) (h : List (Op × Bool)) : Option (String × Time) :=
  h.foldl (fun last e => (grant id e).or last) none

theorem latest_snoc (id : JobID) (h : List (Op × Bool)) (e : Op × Bool) :
    latest id (h ++ [e]) = (grant id e).or (latest id h) := by
  unfold latest
  rw [List.foldl_append]
  rfl

theorem grant_eq_some {id : JobID} {o : Op} {b : Bool} {w : String} {L : Time}
    (h : grant id (o, b) = some (w, L)) : b = true ∧ ∃ now, o = .acquire id L w now := by
  unfold grant at h
  split at h
  · rename_i specID leaseUntil workerID now e
    cases e
    split at h
    · rename_i hid
      cases h
      exact ⟨rfl, now, by rw [hid]⟩
    · cases h
  · cases h

theorem grant_acquire {id : JobID} {L now : Time} {w : String} {b : Bool}
    (h : grant id (.acquire id L w now, b) = none) : b = false := by
  cases b with
  | false => rfl
  | true =>
    rw [grant, if_pos rfl] at h
    cases h

/-! ## what a store does -/

/-- `Held s w L`: the row of the spec has the lease of `w` until `L` -/
structure Keeper (σ : Type) (id : JobID) where
  call : σ → Op → σ × Bool
  Stored : σ → Prop
  Held : σ → String → Time → Prop
  stored : ∀ s o, Keeps id o → Stored s → Stored (call s o).1
  granted : ∀ s L w now, Stored s → (call s (.acquire id L w now)).2 = true →
    Held (call s (.acquire id L w now)).1 w L
  kept : ∀ s o w L, Keeps id o → Held s w L →
    (∀ L' w' now, o = .acquire id L' w' now → (call s o).2 = false) → Held (call s o).1 w L

namespace Keeper

section
variable {σ : Type} {id : JobID} (K : Keeper σ id)

/-- a call that leaves the spec in the table, with its result -/
def Calls (s : σ) (o : Op) (b : Bool) (t : σ) : Prop := Keeps id o ∧ K.call s o = (t, b)

theorem latest_held {s t : σ} {h : List (Op × Bool)} (hs : K.Stored s) (hr : Runs K.Calls s h t) :
    K.Stored t ∧ ∀ w L, latest id h = some (w, L) → K.Held t w L := by
  have hstep : ∀ h t o b u, (K.Stored t ∧ ∀ w L, latest id h = some (w, L) → K.Held t w L) →
      K.Calls t o b u →
      K.Stored u ∧ ∀ w L, latest id (h ++ [(o, b)]) = some (w, L) → K.Held u w L := by
    intro h t o b u ht hc
    obtain ⟨hkeep, hcall⟩ := hc
    have hu : (K.call t o).1 = u := congrArg Prod.fst hcall
    have hb : (K.call t o).2 = b := congrArg Prod.snd hcall
    subst hu
    refine ⟨K.stored t o hkeep ht.1, fun w L hl => ?_⟩
    rw [latest_snoc] at hl
    cases hg : grant id (o, b) with
    | some x =>
      rw [hg] at hl
      obtain rfl := Option.some.inj hl
      obtain ⟨rfl, now, rfl⟩ := grant_eq_some hg
      exact K.granted t L w now ht.1 hb
    | none =>
      rw [hg] at hl
      refine K.kept t o w L hkeep (ht.2 w L hl) fun L' w' now e => ?_
      subst e
      exact hb.trans (grant_acquire hg)
  exact hr.keep hstep ⟨hs, fun _ _ e => (nomatch e)⟩

end
end Keeper

/-! ## SQLite -/

namespace OnSqlite
open Sqlite

def call (db : Db) : Op → Db × Bool
  | .acquire id leaseUntil workerID now => db.acquireRecurringLease id leaseUntil workerID now
  | .upsert spec => (db.upsertRecurring spec, true)
  | .updateNextRun id next last => (db.updateRecurringNextRun id next last, true)
  | .delete id => (db.deleteRecurring id, true)

def Held (id : JobID) (db : Db) (w : String) (L : Time) : Prop :=
  ∃ r, db.recurring.lookup id = some r ∧ r.leaseUntil = toUnixNano L ∧ r.leasedBy = w

section
variable {db : Db} {id : JobID}

theorem lookup_acquire {r : SpecRow} (hr : db.recurring.lookup id = some r) (i : JobID) (L : Time)
    (w : String) (now : Time) :
    (db.acquireRecurringLease i L w now).1.recurring.lookup id =
      some (if Db.leaseFree i (toUnixNano now) w r then
        { r with leaseUntil := toUnixNano L, leasedBy := w } else r) := by
  have hupdate := Keyed.lookup_update db.recurring (Db.leaseFree i (toUnixNano now) w)
    (fun r : SpecRow => { r with leaseUntil := toUnixNano L, leasedBy := w }) (fun _ => rfl) id
  rw [hr] at hupdate
  unfold Db.acquireRecurringLease
  dsimp only
  split
  · exact hupdate
  · exact hupdate

theorem lookup_updateNextRun {r : SpecRow} (hr : db.recurring.lookup id = some r) (i : JobID)
    (next last : Time) :
    (db.updateRecurringNextRun i next last).recurring.lookup id =
      some (if decide (r.id = i) then
        { r with nextRunAt := toUnixNano next, lastFireAt := toUnixNano last } else r) := by
  have hupdate := Keyed.lookup_update db.recurring (fun r : SpecRow => decide (r.id = i))
    (fun r : SpecRow => { r with nextRunAt := toUnixNano next, lastFireAt := toUnixNano last })
    (fun _ => rfl) id
  rw [hr] at hupdate
  exact hupdate

theorem lookup_delete {i : JobID} (h : i ≠ id) :
    (db.deleteRecurring i).recurring.lookup id = db.recurring.lookup id := by
  refine (Keyed.lookup_delete ..).trans ?_
  cases hl : db.recurring.lookup id with
  | none => rfl
  | some r =>
    have hne : decide (r.id = i) = false := by
      rw [Keyed.lookup_key hl]
      exact decide_eq_false (Ne.symm h)
    rw [Option.filter_some, hne]
    rfl

/-- a row that is there stays there, with its lease or with another one -/
theorem lookup_call {r : SpecRow} (hr : db.recurring.lookup id = some r) {o : Op} (hk : Keeps id o) :
    ∃ r', (call db o).1.recurring.lookup id = some r' ∧
      ((r'.leaseUntil = r.leaseUntil ∧ r'.leasedBy = r.leasedBy) ∨
        ∃ L w now, o = .acquire id L w now ∧ Db.leaseFree id (toUnixNano now) w r = true ∧
          r'.leaseUntil = toUnixNano L ∧ r'.leasedBy = w) := by
  cases o with
  | acquire i L w now =>
    refine ⟨_, lookup_acquire hr i L w now, ?_⟩
    by_cases hfree : Db.leaseFree i (toUnixNano now) w r = true
    · rw [if_pos hfree]
      have hi : id = i := (Keyed.lookup_key hr).symm.trans (of_decide_eq_true hfree).1
      subst hi
      exact Or.inr ⟨L, w, now, rfl, hfree, rfl, rfl⟩
    · rw [if_neg hfree]
      exact Or.inl ⟨rfl, rfl⟩
  | upsert spec =>
    have hlookup := Keyed.lookup_upsert db.recurring (specRowOf spec)
      (fun r : SpecRow =>
        { specRowOf spec with id := r.id, leaseUntil := r.leaseUntil, leasedBy := r.leasedBy })
      (fun _ => rfl) id
    by_cases hid : id = (specRowOf spec).id
    · rw [if_pos hid, hr] at hlookup
      exact ⟨_, hlookup, Or.inl ⟨rfl, rfl⟩⟩
    · rw [if_neg hid] at hlookup
      exact ⟨r, hlookup.trans hr, Or.inl ⟨rfl, rfl⟩⟩
  | updateNextRun i next last =>
    refine ⟨_, lookup_updateNextRun hr i next last, Or.inl ?_⟩
    split
    · exact ⟨rfl, rfl⟩
    · exact ⟨rfl, rfl⟩
  | delete i => exact ⟨r, (lookup_delete hk).trans hr, Or.inl ⟨rfl, rfl⟩⟩

/-- an acquire is granted exactly if the row of the spec allows it -/
theorem acquire_eq {r : SpecRow} (hr : db.recurring.lookup id = some r) (L : Time) (w : String)
    (now : Time) :
    (db.acquireRecurringLease id L w now).2 = Db.leaseFree id (toUnixNano now) w r ∧
      (Db.leaseFree id (toUnixNano now) w r = false → (db.acquireRecurringLease id L w now).1 = db) := by
  have hcount : 0 < db.recurring.count (Db.leaseFree id (toUnixNano now) w) ↔
      Db.leaseFree id (toUnixNano now) w r = true := by
    constructor
    · intro h
      by_contra hfree
      refine absurd (Keyed.count_eq_zero.mpr fun x hx hx' => hfree ?_) (Nat.pos_iff_ne_zero.mp h)
      have hid : x.id = id := (of_decide_eq_true hx').1
      have e : some x = some r := by
        rw [← hr, ← hid]
        exact (Keyed.lookup_of_mem hx).symm
      rw [← Option.some.inj e]
      exact hx'
    · intro h
      by_contra h0
      exact Keyed.count_eq_zero.mp (Nat.eq_zero_of_not_pos h0) r (Keyed.mem_of_lookup hr) h
  have hexists : db.recurring.count (fun r => decide (r.id = id)) ≠ 0 := by
    intro h0
    exact Keyed.count_eq_zero.mp h0 r (Keyed.mem_of_lookup hr)
      (decide_eq_true (Keyed.lookup_key hr))
  unfold Db.acquireRecurringLease
  dsimp only
  by_cases hfree : Db.leaseFree id (toUnixNano now) w r = true
  · rw [if_pos (hcount.mpr hfree), hfree]
    exact ⟨rfl, fun e => (nomatch e)⟩
  · have hnone : ∀ x ∈ db.recurring.rows, ¬ Db.leaseFree id (toUnixNano now) w x = true :=
      Keyed.count_eq_zero.mp (Nat.eq_zero_of_not_pos (mt hcount.mp hfree))
    have hf : Db.leaseFree id (toUnixNano now) w r = false := Bool.eq_false_iff.mpr hfree
    rw [if_neg (mt hcount.mp hfree), hf]
    refine ⟨decide_eq_false hexists, fun _ => ?_⟩
    show db.setRecurring (db.recurring.update _ _ _) = db
    rw [Keyed.update_of_forall_not hnone]
    rfl

end

def keeper (id : JobID) : Keeper Db id where
  call := call
  Stored := fun db => ∃ r, db.recurring.lookup id = some r
  Held := Held id
  stored := fun db o hk h => by
    obtain ⟨r, hr⟩ := h
    obtain ⟨r', hr', _⟩ := lookup_call hr hk
    exact ⟨r', hr'⟩
  granted := fun db L w now h hb => by
    obtain ⟨r, hr⟩ := h
    have hfree : Db.leaseFree id (toUnixNano now) w r = true := (acquire_eq hr L w now).1.symm.trans hb
    refine ⟨_, lookup_acquire hr id L w now, ?_⟩
    rw [if_pos hfree]
    exact ⟨rfl, rfl⟩
  kept := fun db o w L hk h hdenied => by
    obtain ⟨r, hr, h1, h2⟩ := h
    obtain ⟨r', hr', hlease | ⟨L', w', now, rfl, hfree, _⟩⟩ := lookup_call hr hk
    · exact ⟨r', hr', hlease.1.trans h1, hlease.2.trans h2⟩
    · have hb := (acquire_eq hr L' w' now).1.symm.trans (hdenied L' w' now rfl)
      rw [hfree] at hb
      cases hb

/-- the test of an acquire at a time after the epoch -/
theorem leaseFree_iff {id : JobID} {r : SpecRow} (hid : r.id = id) {w₁ : String} (w₂ : String) {L t : Time}
    (hL : InRange L) (h0 : 0 < t) (ht : t ≤ 9223372036854775807)
    (hr : r.leaseUntil = toUnixNano L ∧ r.leasedBy = w₁) :
    Db.leaseFree id (toUnixNano t) w₂ r = true ↔ L < t ∨ w₁ = w₂ := by
  have hnow : (toUnixNano t).toInt = t := toInt_toUnixNano (le_of_lt (lt_trans (by decide) h0)) ht
  unfold Db.leaseFree
  rw [decide_eq_true_eq, hr.1, hr.2]
  rcases hL with rfl | ⟨h1, h2⟩
  · have hlt : zeroTime < t := lt_trans (by decide) h0
    exact ⟨fun _ => Or.inl hlt, fun _ => ⟨hid, Or.inl rfl⟩⟩
  · have hun : (toUnixNano L).toInt = L := toInt_toUnixNano h1 h2
    rw [Int64.lt_iff_toInt_lt, hnow, hun]
    constructor
    · intro h
      rcases h.2 with hzero | h | h
      · rw [hzero] at hun
        exact Or.inl (hun ▸ h0)
      · exact Or.inl h
      · exact Or.inr h
    · intro h
      exact ⟨hid, Or.inr h⟩

end OnSqlite

/-! ## Postgres -/

namespace OnPostgres
open Postgres

def call (rows : List RecurringSpec) : Op → List RecurringSpec × Bool
  | .acquire id leaseUntil workerID now => acquireLease id leaseUntil workerID now rows
  | .upsert spec => (upsertRecurring rows spec, true)
  | .updateNextRun id next last => (updateRecurringNextRun id next last rows, true)
  | .delete id => (deleteRecurring id rows, true)

/-- the table has one row for the spec -/
def Stored (id : JobID) (rows : List RecurringSpec) : Prop :=
  (rows.map RecurringSpec.id).Nodup ∧ ∃ r ∈ rows, r.id = id

def Held (id : JobID) (rows : List RecurringSpec) (w : String) (L : Time) : Prop :=
  (rows.map RecurringSpec.id).Nodup ∧
    ∃ r ∈ rows, r.id = id ∧ r.leaseUntil = pgTime L ∧ r.leasedBy = w

section
variable {rows : List RecurringSpec} {id : JobID}

theorem nodup_map {f : RecurringSpec → RecurringSpec} (hf : ∀ r, (f r).id = r.id)
    (h : (rows.map RecurringSpec.id).Nodup) : ((rows.map f).map RecurringSpec.id).Nodup := by
  rw [List.map_map, show RecurringSpec.id ∘ f = RecurringSpec.id from funext hf]
  exact h

theorem nodup_call (h : (rows.map RecurringSpec.id).Nodup) (o : Op) :
    ((call rows o).1.map RecurringSpec.id).Nodup := by
  cases o with
  | acquire i L w now =>
    show ((acquireLease i L w now rows).1.map _).Nodup
    unfold acquireLease
    split
    · refine nodup_map (fun r => ?_) h
      split
      · rfl
      · rfl
    · exact h
  | upsert spec =>
    show ((upsertRecurring rows spec).map _).Nodup
    unfold upsertRecurring
    split
    · refine nodup_map (fun r => ?_) h
      split
      · rename_i e
        exact e.symm
      · rfl
    · rename_i hnew
      rw [List.map_append]
      refine List.nodup_append.mpr ⟨h, List.nodup_singleton _, fun a ha b hb e => ?_⟩
      obtain ⟨r, hr, rfl⟩ := List.mem_map.mp ha
      exact hnew ⟨r, hr, e.trans (List.mem_singleton.mp hb)⟩
  | updateNextRun i next last =>
    refine nodup_map (fun r => ?_) h
    split
    · rfl
    · rfl
  | delete i => exact h.sublist (List.filter_sublist.map _)

theorem unique (h : (rows.map RecurringSpec.id).Nodup) {r r' : RecurringSpec} (hr : r ∈ rows)
    (hr' : r' ∈ rows) (e : r.id = r'.id) : r = r' := List.inj_on_of_nodup_map h hr hr' e

/-- a row that is there stays there, with its lease or with another one -/
theorem mem_call {r : RecurringSpec} (hr : r ∈ rows) {o : Op} (hk : Keeps r.id o) :
    ∃ r' ∈ (call rows o).1, r'.id = r.id ∧
      ((r'.leaseUntil = r.leaseUntil ∧ r'.leasedBy = r.leasedBy) ∨
        ∃ L w now, o = .acquire r.id L w now ∧ Free now w r) := by
  cases o with
  | acquire i L w now =>
    show ∃ r' ∈ (acquireLease i L w now rows).1, _
    unfold acquireLease
    split
    · refine ⟨_, List.mem_map_of_mem hr, ?_⟩
      by_cases hfree : r.id = i ∧ Free now w r
      · rw [if_pos hfree]
        exact ⟨rfl, Or.inr ⟨L, w, now, by rw [hfree.1], hfree.2⟩⟩
      · rw [if_neg hfree]
        exact ⟨rfl, Or.inl ⟨rfl, rfl⟩⟩
    · exact ⟨r, hr, rfl, Or.inl ⟨rfl, rfl⟩⟩
  | upsert spec =>
    show ∃ r' ∈ upsertRecurring rows spec, _
    unfold upsertRecurring
    split
    · refine ⟨_, List.mem_map_of_mem hr, ?_⟩
      by_cases hid : r.id = spec.id
      · rw [if_pos hid]
        exact ⟨hid.symm, Or.inl ⟨rfl, rfl⟩⟩
      · rw [if_neg hid]
        exact ⟨rfl, Or.inl ⟨rfl, rfl⟩⟩
    · exact ⟨r, List.mem_append_left _ hr, rfl, Or.inl ⟨rfl, rfl⟩⟩
  | updateNextRun i next last =>
    refine ⟨_, List.mem_map_of_mem hr, ?_⟩
    split
    · exact ⟨rfl, Or.inl ⟨rfl, rfl⟩⟩
    · exact ⟨rfl, Or.inl ⟨rfl, rfl⟩⟩
  | delete i =>
    exact ⟨r, List.mem_filter.mpr ⟨hr, decide_eq_true (Ne.symm hk)⟩, rfl, Or.inl ⟨rfl, rfl⟩⟩

/-- an acquire is granted exactly if the row of the spec allows it -/
theorem acquire_eq (h : (rows.map RecurringSpec.id).Nodup) {r : RecurringSpec} (hr : r ∈ rows)
    (L : Time) (w : String) (now : Time) :
    (Free now w r → (acquireLease r.id L w now rows).2 = true ∧
      { r with leaseUntil := pgTime L, leasedBy := w } ∈ (acquireLease r.id L w now rows).1) ∧
    (¬ Free now w r → acquireLease r.id L w now rows = (rows, false)) := by
  unfold acquireLease
  constructor
  · intro hfree
    rw [if_pos ⟨r, hr, rfl, hfree⟩]
    refine ⟨rfl, List.mem_map.mpr ⟨r, hr, ?_⟩⟩
    exact if_pos ⟨rfl, hfree⟩
  · intro hfree
    have hno : ¬ ∃ r' ∈ rows, r'.id = r.id ∧ Free now w r' := by
      intro hex
      obtain ⟨r', hr', hid, hfree'⟩ := hex
      rw [unique h hr' hr hid] at hfree'
      exact hfree hfree'
    rw [if_neg hno, decide_eq_false (not_not.mpr ⟨r, hr, rfl⟩)]

end

def keeper (id : JobID) : Keeper (List RecurringSpec) id where
  call := call
  Stored := Stored id
  Held := Held id
  stored := fun rows o hk h => by
    obtain ⟨hn, r, hr, rfl⟩ := h
    obtain ⟨r', hr', hid, _⟩ := mem_call hr hk
    exact ⟨nodup_call hn o, r', hr', hid⟩
  granted := fun rows L w now h hb => by
    obtain ⟨hn, r, hr, rfl⟩ := h
    have hfree : Free now w r := by
      by_contra hfree
      have hb' : (acquireLease r.id L w now rows).2 = true := hb
      rw [(acquire_eq hn hr L w now).2 hfree] at hb'
      cases hb'
    exact ⟨nodup_call hn _, _, ((acquire_eq hn hr L w now).1 hfree).2, rfl, rfl, rfl⟩
  kept := fun rows o w L hk h hdenied => by
    obtain ⟨hn, r, hr, rfl, h1, h2⟩ := h
    obtain ⟨r', hr', hid, hlease | ⟨L', w', now, rfl, hfree⟩⟩ := mem_call hr hk
    · exact ⟨nodup_call hn o, r', hr', hid, hlease.1.trans h1, hlease.2.trans h2⟩
    · have hb := ((acquire_eq hn hr L' w' now).1 hfree).1.symm.trans (hdenied L' w' now rfl)
      cases hb

/-- the test of an acquire at a time after the epoch, in whole microseconds as the server has it -/
theorem free_iff {r : RecurringSpec} {w₁ : String} (w₂ : String) {L t : Int} (h0 : 0 < t)
    (ht : pgTime t = t)
    (hr : r.leaseUntil = pgTime L ∧ r.leasedBy = w₁) : Free t w₂ r ↔ L < t ∨ w₁ = w₂ := by
  have hcut : ∀ L : Int, pgTime L < t ↔ L < t := by
    intro L
    have ht' : t - t % 1000 = t := ht
    show L - L % 1000 < t ↔ L < t
    omega
  unfold Free
  rw [hr.1, hr.2, hcut]
  constructor
  · intro h
    rcases h with hzero | h | h
    · refine Or.inl ((hcut L).mp ?_)
      rw [hzero]
      exact lt_trans (by decide) h0
    · exact Or.inl h
    · exact Or.inr h
  · exact Or.inr

end OnPostgres

/-- **Leases are exclusive** on both stores, along every sequence of calls that does not delete the
spec.  If the latest lease on the spec was granted to `w₁` until `L`, then an acquire by another worker
at a time `t ≤ L` is denied and changes nothing, and an acquire at a time `t > L` is granted. -/
theorem leases_exclusive (id : JobID) :
    (∀ (db db' : Sqlite.Db) (h : List (Op × Bool)), (∃ r, db.recurring.lookup id = some r) →
      Runs (OnSqlite.keeper id).Calls db h db' → ∀ w₁ L, latest id h = some (w₁, L) →
      InRange L → ∀ w₂ L' t, 0 < t → t ≤ 9223372036854775807 →
      (w₂ ≠ w₁ → t ≤ L → OnSqlite.call db' (.acquire id L' w₂ t) = (db', false)) ∧
      (L < t → (OnSqlite.call db' (.acquire id L' w₂ t)).2 = true)) ∧
    (∀ (rows rows' : List RecurringSpec) (h : List (Op × Bool)), OnPostgres.Stored id rows →
      Runs (OnPostgres.keeper id).Calls rows h rows' → ∀ w₁ L, latest id h = some (w₁, L) →
      ∀ w₂ L' t, 0 < t → Postgres.pgTime t = t →
      (w₂ ≠ w₁ → t ≤ L → OnPostgres.call rows' (.acquire id L' w₂ t) = (rows', false)) ∧
      (L < t → (OnPostgres.call rows' (.acquire id L' w₂ t)).2 = true)) := by
  constructor
  · intro db db' h hs hr w₁ L hl hL w₂ L' t h0 ht
    obtain ⟨r, hrow, hlease⟩ := ((OnSqlite.keeper id).latest_held hs hr).2 w₁ L hl
    have hfree := OnSqlite.leaseFree_iff (Keyed.lookup_key hrow) w₂ hL h0 ht hlease
    obtain ⟨hres, hsame⟩ := OnSqlite.acquire_eq hrow L' w₂ t
    refine ⟨fun hne hle => ?_, fun hlt => hres.trans (hfree.mpr (Or.inl hlt))⟩
    have hdenied : Sqlite.Db.leaseFree id (Sqlite.toUnixNano t) w₂ r = false := by
      rw [← Bool.not_eq_true, hfree]
      exact fun h => h.elim (not_lt.mpr hle) fun e => hne e.symm
    exact Prod.ext (hsame hdenied) (hres.trans hdenied)
  · intro rows rows' h hs hr w₁ L hl w₂ L' t h0 ht
    obtain ⟨hn, r, hrow, rfl, hlease⟩ := ((OnPostgres.keeper id).latest_held hs hr).2 w₁ L hl
    have hfree := OnPostgres.free_iff w₂ h0 ht hlease
    obtain ⟨hyes, hno⟩ := OnPostgres.acquire_eq hn hrow L' w₂ t
    refine ⟨fun hne hle => hno ?_, fun hlt => (hyes (hfree.mpr (Or.inl hlt))).1⟩
    rw [hfree]
    exact fun h => h.elim (not_lt.mpr hle) fun e => hne e.symm

/-- tables with one spec -/
def oneSpec : Sqlite.Db := Sqlite.Db.empty.upsertRecurring { id := "r", name := "job", queue := "q" }

def oneRow : List RecurringSpec := Postgres.upsertRecurring [] { id := "r", name := "job", queue := "q" }

/-- `A` holds the lease until 50; `B` is denied at 50 and granted after that: in SQLite at 51, in Postgres,
where the lease is until 50 µs, a microsecond later -/
theorem leases_exclusive_until :
    (OnSqlite.call (OnSqlite.call oneSpec (.acquire "r" 50 "A" 10)).1 (.acquire "r" 90 "B" 50)).2 = false ∧
    (OnSqlite.call (OnSqlite.call oneSpec (.acquire "r" 50 "A" 10)).1 (.acquire "r" 90 "B" 51)).2 = true ∧
    (OnPostgres.call (OnPostgres.call oneRow (.acquire "r" 50000 "A" 10000)).1
      (.acquire "r" 90000 "B" 50000)).2 = false ∧
    (OnPostgres.call (OnPostgres.call oneRow (.acquire "r" 50000 "A" 10000)).1
      (.acquire "r" 90000 "B" 51000)).2 = true := by
  have hsqlite : (OnSqlite.call oneSpec (.acquire "r" 50 "A" 10)).2 = true := by decide +kernel
  have hruns : Runs (OnSqlite.keeper "r").Calls oneSpec [(.acquire "r" 50 "A" 10, true)]
      (OnSqlite.call oneSpec (.acquire "r" 50 "A" 10)).1 :=
    .snoc .nil ⟨trivial, Prod.ext rfl hsqlite⟩
  have h := (leases_exclusive "r").1 oneSpec _ _ ⟨_, rfl⟩ hruns "A" 50 rfl (Or.inr (by decide)) "B" 90
  have hpostgres : (OnPostgres.call oneRow (.acquire "r" 50000 "A" 10000)).2 = true := by decide +kernel
  have hruns' : Runs (OnPostgres.keeper "r").Calls oneRow [(.acquire "r" 50000 "A" 10000, true)]
      (OnPostgres.call oneRow (.acquire "r" 50000 "A" 10000)).1 :=
    .snoc .nil ⟨trivial, Prod.ext rfl hpostgres⟩
  have hrow : OnPostgres.Stored "r" oneRow := ⟨by decide +kernel, by decide +kernel⟩
  have h' := (leases_exclusive "r").2 oneRow _ _ hrow hruns' "A" 50000 rfl "B" 90000
  refine ⟨congrArg Prod.snd ((h 50 (by decide) (by decide)).1 (by decide) le_rfl),
    (h 51 (by decide) (by decide)).2 (by decide), ?_, ?_⟩
  · exact congrArg Prod.snd ((h' 50000 (by decide) (by decide)).1 (by decide) le_rfl)
  · exact (h' 51000 (by decide) (by decide)).2 (by decide)

end GS.Leases
