import GoSchedule.Contract.Basic
import GoSchedule.Sqlite.Attempts

/-!
# The SQLite store keeps the contract

* `Sane`      the instants that a column keeps, and keeps in order: the zero time, and those from the
  epoch to the year 2262.  Before the epoch the zero time, which is stored as 0, comes in the wrong place;
* `scale`     the store compares the instants themselves;
* `Shows db m`   the table stands for the map `m`;
* `save_shows`, `claim_shows`, ...   each function of the table is a call on the map.  A claim takes the
  first rows of any query whose test and order are those of the scale;
* `Call`, `reply`, `replies`   the calls of the store with what they return;
* `SaneCall`  the calls that are compared: with sane instants, and attempts that the column can count;
* `sqlite_refines`   **what any sequence of sane calls returns is what the map returns**.
-/

namespace GS.Sqlite
open Contract Mem MapOn Sim Trans

/-! ## instants -/

def Sane (t : Time) : Prop := t = zeroTime ∨ (0 : Int) < t ∧ t ≤ Int64.maxValue.toInt

instance (t : Time) : Decidable (Sane t) := inferInstanceAs (Decidable (_ ∨ _))

section
variable {a b : Int64} {t : Time}

theorem Sane.fromUnixNano_toUnixNano (h : Sane t) : fromUnixNano (toUnixNano t) = t := by
  rcases h with rfl | ⟨h1, h2⟩
  · decide
  · replace h2 : t ≤ 9223372036854775807 := h2
    have hto : (toUnixNano t).toInt = t := toInt_toUnixNano (by omega) h2
    have hne : toUnixNano t ≠ 0 := by
      intro e
      rw [e] at hto
      rw [← hto] at h1
      exact absurd h1 (by decide)
    unfold fromUnixNano
    rw [if_neg hne, hto]

theorem Sane.toUnixNano_nonneg (h : Sane t) : 0 ≤ toUnixNano t := by
  rcases h with rfl | ⟨h1, h2⟩
  · decide
  · replace h2 : t ≤ 9223372036854775807 := h2
    have hto : (toUnixNano t).toInt = t := toInt_toUnixNano (by omega) h2
    rw [Int64.le_iff_toInt_le, hto]
    exact Int.le_of_lt h1

theorem fromUnixNano_of_pos (h : 0 < a) : fromUnixNano a = a.toInt := by
  have hne : a ≠ 0 := by
    intro e
    rw [e] at h
    exact absurd h (by decide)
  exact if_neg hne

/-- columns that are not negative are compared as their instants -/
theorem fromUnixNano_le_iff (ha : 0 ≤ a) (hb : 0 ≤ b) : fromUnixNano a ≤ fromUnixNano b ↔ a ≤ b := by
  have hzero : zeroTime < (0 : Int) := by decide
  rw [Int64.le_iff_toInt_le] at ha hb
  rw [show (0 : Int64).toInt = 0 from rfl] at ha hb
  have hcases : ∀ c : Int64, 0 ≤ c.toInt → fromUnixNano c = zeroTime ∧ c.toInt = 0 ∨
      fromUnixNano c = c.toInt ∧ 0 < c.toInt := by
    intro c hc
    by_cases e : c = 0
    · subst e
      exact Or.inl ⟨rfl, rfl⟩
    · have hne : c.toInt ≠ 0 := fun h => e (Int64.toInt_inj.mp h)
      exact Or.inr ⟨if_neg e, lt_of_le_of_ne hc hne.symm⟩
  rw [Int64.le_iff_toInt_le]
  rcases hcases a ha with ⟨e1, h1⟩ | ⟨e1, h1⟩
  · rcases hcases b hb with ⟨e2, h2⟩ | ⟨e2, h2⟩
    · rw [e1, e2, h1, h2]
      exact iff_of_true le_rfl le_rfl
    · rw [e1, e2, h1]
      exact iff_of_true (le_of_lt (hzero.trans h2)) (le_of_lt h2)
  · rcases hcases b hb with ⟨e2, h2⟩ | ⟨e2, h2⟩
    · rw [e1, e2, h2]
      exact iff_of_false (not_le.mpr (hzero.trans h1)) (not_le.mpr h1)
    · rw [e1, e2]

theorem fromUnixNano_le_sane (ha : 0 ≤ a) (h : Sane t) : fromUnixNano a ≤ t ↔ a ≤ toUnixNano t := by
  rw [← fromUnixNano_le_iff ha h.toUnixNano_nonneg, h.fromUnixNano_toUnixNano]

theorem fromUnixNano_lt_sane (ha : 0 ≤ a) (h : Sane t) : fromUnixNano a < t ↔ a < toUnixNano t := by
  have h1 := fromUnixNano_le_iff h.toUnixNano_nonneg ha
  rw [h.fromUnixNano_toUnixNano] at h1
  rw [← not_le, h1, Int64.not_le]

theorem fromUnixNano_ne_zero (ha : 0 ≤ a) : fromUnixNano a ≠ zeroTime ↔ 0 < a := by
  constructor
  · intro h
    refine Int64.lt_of_le_of_ne ha fun e => h ?_
    rw [← e]
    rfl
  · intro h e
    rw [fromUnixNano_of_pos h] at e
    rw [Int64.lt_iff_toInt_lt, e] at h
    exact absurd h (by decide)

end

/-- a lock has run out at a later instant -/
def scale : Scale := ⟨id, (· < ·)⟩

instance : DecidableRel scale.late := fun a b : Int => inferInstanceAs (Decidable (a < b))

/-! ## the table stands for a map -/

/-- what a row says, without `updated_at` -/
def shown (r : Row) : Job := plain (scanJob r)

structure Ordered (r : Row) : Prop where
  runAt : 0 ≤ r.runAt
  lockedUntil : 0 ≤ r.lockedUntil

structure Shows (db : Db) (m : JobMap) : Prop where
  eq : m = fun id => (db.jobs.lookup id).map shown
  ordered : ∀ id r, db.jobs.lookup id = some r → Ordered r

theorem empty_shows : Shows Db.empty Contract.empty := ⟨rfl, fun _ _ h => nomatch h⟩

section
variable {db : Db} {m : JobMap} (S : Shows db m)
include S

theorem Shows.at {id : JobID} {r : Row} (h : db.jobs.lookup id = some r) : m id = some (shown r) := by
  rw [S.eq]
  dsimp only
  rw [h]
  rfl

theorem Shows.none {id : JobID} (h : db.jobs.lookup id = none) : m id = none := by
  rw [S.eq]
  dsimp only
  rw [h]
  rfl

theorem Shows.exists {id : JobID} {j : Job} (h : m id = some j) :
    ∃ r, db.jobs.lookup id = some r ∧ shown r = j := by
  rw [S.eq] at h
  exact Option.map_eq_some_iff.mp h

/-- one row is written -/
theorem Shows.update {db' : Db} {id : JobID} {o : Option Row} {j : Option Job}
    (h : db'.jobs.lookup = Function.update db.jobs.lookup id o) (hj : o.map shown = j)
    (ho : ∀ r, o = some r → Ordered r) : Shows db' (Function.update m id j) := by
  refine ⟨?_, fun i r hr => ?_⟩
  · funext i
    rw [h]
    by_cases e : i = id
    · subst e
      rw [Function.update_self, Function.update_self, hj]
    · rw [Function.update_of_ne e, Function.update_of_ne e, S.eq]
  · rw [h] at hr
    by_cases e : i = id
    · rw [e, Function.update_self] at hr
      exact ho r hr
    · rw [Function.update_of_ne e] at hr
      exact S.ordered i r hr

/-- some rows are changed -/
theorem Shows.mapOn {db' : Db} {f : Row → Row} {g : Job → Job} {ids : List JobID}
    (h : db'.jobs.lookup = mapOn db.jobs.lookup f ids) (hg : ∀ r, shown (f r) = g (shown r))
    (hf : ∀ r, Ordered r → Ordered (f r)) : Shows db' (MapOn.mapOn m g ids) := by
  refine ⟨?_, fun i r hr => ?_⟩
  · funext i
    rw [h, S.eq]
    unfold MapOn.mapOn
    by_cases e : i ∈ ids
    · rw [if_pos e, if_pos e, Option.map_map, Option.map_map]
      exact congrArg (fun F => (db.jobs.lookup i).map F) (funext fun r => (hg r).symm)
    · rw [if_neg e, if_neg e]
  · rw [h] at hr
    unfold MapOn.mapOn at hr
    split at hr
    · obtain ⟨x, hx, rfl⟩ := Option.map_eq_some_iff.mp hr
      exact hf x (S.ordered i x hx)
    · exact S.ordered i r hr

/-! ## calls on one job -/

theorem save_shows {C : Scale} {j : Job} (h1 : Sane j.runAt) (h2 : Sane j.lockedUntil)
    (h3 : Sane j.createdAt) : ∃ m', Step C m (.save j) (.err none) m' ∧ Shows (db.save j) m' := by
  refine ⟨_, .save j, S.update (o := some (((db.jobs.lookup j.id).map fun r =>
    { rowOf j with id := r.id, createdAt := r.createdAt }).getD (rowOf j))) ?_ ?_ fun r hr => ?_⟩
  · funext i
    refine (Keyed.lookup_upsert ..).trans ?_
    rw [show (rowOf j).id = j.id from rfl]
    by_cases hi : i = j.id
    · subst hi
      rw [Function.update_self, if_pos rfl]
    · rw [Function.update_of_ne hi, if_neg hi]
  · have hst : (if j.state = 0 then statePending else j.state) = j.state := by
      split
      · rename_i e
        exact e.symm
      · rfl
    cases hl : db.jobs.lookup j.id with
    | none =>
      rw [S.none hl]
      simp only [Option.map_none, Option.getD_none, Option.map_some, shown, plain, scanJob, rowOf, kept,
        h1.fromUnixNano_toUnixNano, h2.fromUnixNano_toUnixNano, h3.fromUnixNano_toUnixNano, hst]
    | some r =>
      rw [S.at hl]
      simp only [Option.map_some, Option.getD_some, shown, plain, scanJob, rowOf, kept,
        h1.fromUnixNano_toUnixNano, h2.fromUnixNano_toUnixNano, hst, Keyed.lookup_key hl]
  · obtain rfl := Option.some.inj hr
    cases db.jobs.lookup j.id with
    | none => exact ⟨h1.toUnixNano_nonneg, h2.toUnixNano_nonneg⟩
    | some r => exact ⟨h1.toUnixNano_nonneg, h2.toUnixNano_nonneg⟩

theorem ack_shows (id : JobID) : (m.ack id).1 = (db.ack id).2 ∧ Shows (db.ack id).1 (m.ack id).2 := by
  unfold JobMap.ack
  cases hl : db.jobs.lookup id with
  | none =>
    rw [onState_missing (S.none hl), Db.ack_refused fun r hr => by rw [hl] at hr; cases hr]
    exact ⟨rfl, S⟩
  | some r =>
    by_cases hs : r.state = stateClaimed
    · obtain ⟨h1, h2⟩ := Db.ack_claimed hl hs
      rw [onState_ok (S.at hl) hs, h1]
      exact ⟨rfl, S.update h2 rfl fun _ h => nomatch h⟩
    · rw [onState_wrong (S.at hl) hs, Db.ack_refused fun x hx => by
        rw [hl] at hx
        rw [← Option.some.inj hx]
        exact hs]
      exact ⟨rfl, S⟩

theorem fail_shows (id : JobID) (msg : String) {t : Time} (ht : Sane t) (now : Time) :
    (m.fail id msg t).1 = (db.fail id msg t now).2 ∧
      Shows (db.fail id msg t now).1 (m.fail id msg t).2 := by
  unfold JobMap.fail
  cases hl : db.jobs.lookup id with
  | none =>
    rw [onState_missing (S.none hl), Db.fail_refused fun r hr => by rw [hl] at hr; cases hr]
    exact ⟨rfl, S⟩
  | some r =>
    by_cases hs : r.state = stateClaimed
    · obtain ⟨h1, h2⟩ := Db.fail_claimed hl hs msg t now
      rw [onState_ok (S.at hl) hs, h1]
      refine ⟨rfl, S.update h2 ?_ fun x hx => ?_⟩
      · unfold failRow
        show Option.map shown (if 0 < r.maxAttempts ∧ r.maxAttempts ≤ r.attempt + 1 then _ else _) =
          if 0 < r.maxAttempts ∧ r.maxAttempts ≤ r.attempt + 1 then _ else _
        split
        · rfl
        · simp only [Option.map_some, shown, plain, scanJob, retryRow, ht.fromUnixNano_toUnixNano]
          rfl
      · unfold failRow at hx
        split at hx
        · cases hx
        · obtain rfl := Option.some.inj hx
          exact ⟨ht.toUnixNano_nonneg, Int64.le_refl 0⟩
    · rw [onState_wrong (S.at hl) hs, Db.fail_refused fun x hx => by
        rw [hl] at hx
        rw [← Option.some.inj hx]
        exact hs]
      exact ⟨rfl, S⟩

theorem cancel_shows (id : JobID) :
    (m.cancel id).1 = (db.cancel id).2 ∧ Shows (db.cancel id).1 (m.cancel id).2 := by
  unfold JobMap.cancel
  cases hl : db.jobs.lookup id with
  | none =>
    rw [onState_missing (S.none hl), Db.cancel_missing hl]
    exact ⟨rfl, S⟩
  | some r =>
    by_cases hs : r.state = statePending
    · obtain ⟨h1, h2⟩ := Db.cancel_pending hl hs
      rw [onState_ok (S.at hl) hs, h1]
      exact ⟨rfl, S.update h2 rfl fun _ h => nomatch h⟩
    · rw [onState_wrong (S.at hl) hs, Db.cancel_refused hl hs]
      exact ⟨rfl, S⟩

theorem reschedule_shows (id : JobID) {t : Time} (ht : Sane t) (now : Time) :
    (m.reschedule id t).1 = (db.reschedule id t now).2 ∧
      Shows (db.reschedule id t now).1 (m.reschedule id t).2 := by
  unfold JobMap.reschedule
  cases hl : db.jobs.lookup id with
  | none =>
    rw [onState_missing (S.none hl), Db.reschedule_missing hl]
    exact ⟨rfl, S⟩
  | some r =>
    by_cases hs : r.state = statePending
    · obtain ⟨h1, h2⟩ := Db.reschedule_pending hl hs t now
      rw [onState_ok (S.at hl) hs, h1]
      refine ⟨rfl, S.update h2 ?_ fun x hx => ?_⟩
      · simp only [Option.map_some, shown, plain, scanJob, ht.fromUnixNano_toUnixNano]
      · obtain rfl := Option.some.inj hx
        exact ⟨ht.toUnixNano_nonneg, (S.ordered id r hl).lockedUntil⟩
    · rw [onState_wrong (S.at hl) hs, Db.reschedule_refused hl hs]
      exact ⟨rfl, S⟩

/-! ## calls on many jobs -/

theorem shown_due {q : String} {now : Time} (hnow : Sane now) {r : Row}
    (hr : db.jobs.lookup r.id = some r) :
    isDue q (toUnixNano now) r = true ↔
      (shown r).queue = q ∧ (shown r).state = statePending ∧
        scale.rank (shown r).runAt ≤ scale.rank now := by
  have hle : (shown r).runAt ≤ now ↔ r.runAt ≤ toUnixNano now :=
    fromUnixNano_le_sane (S.ordered r.id r hr).runAt hnow
  unfold isDue
  rw [decide_eq_true_eq, ← hle]
  exact Iff.rfl

theorem shown_rowLE {a b : Row} (ha : db.jobs.lookup a.id = some a) (hb : db.jobs.lookup b.id = some b)
    (h : RowLE a b) : scale.LE (shown a) (shown b) := by
  have hle : (shown a).runAt ≤ (shown b).runAt ↔ a.runAt ≤ b.runAt :=
    fromUnixNano_le_iff (S.ordered a.id a ha).runAt (S.ordered b.id b hb).runAt
  exact h.imp_right fun h => ⟨h.1, hle.mpr h.2⟩

/-- the rows of an ordered query, whose test and order are those of the scale -/
structure Query (C : Scale) (db : Db) (q : String) (now : Time) (due : Row → Bool)
    (le : Row → Row → Prop) : Prop where
  due : ∀ {r}, db.jobs.lookup r.id = some r → (due r = true ↔
    (shown r).queue = q ∧ (shown r).state = statePending ∧ C.rank (shown r).runAt ≤ C.rank now)
  le : ∀ {a b}, db.jobs.lookup a.id = some a → db.jobs.lookup b.id = some b → le a b →
    C.LE (shown a) (shown b)

/-- the first rows of the ordered query are the first due jobs -/
theorem takes_of_top {C : Scale} {q : String} {now : Time} {due : Row → Bool} {le : Row → Row → Prop}
    (Q : Query C db q now due le) {n : Int} (hn : 0 ≤ n) {L : List Row}
    (h : Keyed.Top le n.toNat (db.jobs.rows.filter due) L) : Takes C m q now n (L.map shown) := by
  obtain ⟨l, hperm, hsorted, rfl⟩ := h
  have hmem : ∀ {r}, r ∈ l ↔ db.jobs.lookup r.id = some r ∧ due r = true := by
    intro r
    rw [hperm.mem_iff, List.mem_filter, Keyed.mem_rows_iff]
  have hle : ∀ {a b}, a ∈ l → b ∈ l → le a b → C.LE (shown a) (shown b) :=
    fun ha hb => Q.le (hmem.mp ha).1 (hmem.mp hb).1
  have hdue' : ∀ {r}, r ∈ l → Due C m q now (shown r) := by
    intro r hr
    obtain ⟨h1, h2, h3⟩ := (Q.due (hmem.mp hr).1).mp (hmem.mp hr).2
    exact ⟨S.at (hmem.mp hr).1, h2, h1, h3⟩
  -- a due job is a row of the query
  have hdue : ∀ k, Due C m q now k → ∃ r ∈ l, shown r = k := by
    rintro k ⟨hk, h2, h3, h4⟩
    obtain ⟨r, hr, rfl⟩ := S.exists hk
    have hid : r.id = (shown r).id := rfl
    rw [← hid] at hr
    exact ⟨r, hmem.mpr ⟨hr, (Q.due hr).mpr ⟨h3, h2, h4⟩⟩, rfl⟩
  refine ⟨?_, fun j hj => ?_, ?_, fun j hj k hk hkL => ?_, ?_, fun hlt k hk => ?_⟩
  · rw [List.map_map]
    have hnd : (l.map Row.id).Nodup := (hperm.map Row.id).nodup_iff.mpr
      (db.jobs.nodup.sublist (List.filter_sublist.map Row.id))
    exact hnd.sublist ((List.take_sublist _ _).map Row.id)
  · obtain ⟨r, hr, rfl⟩ := List.mem_map.mp hj
    exact hdue' (List.mem_of_mem_take hr)
  · rw [List.pairwise_map]
    refine (hsorted.sublist (List.take_sublist n.toNat l)).imp_of_mem fun ha hb => ?_
    exact hle (List.mem_of_mem_take ha) (List.mem_of_mem_take hb)
  · obtain ⟨r, hr, rfl⟩ := List.mem_map.mp hj
    obtain ⟨x, hx, rfl⟩ := hdue k hk
    have hdrop : x ∈ l.drop n.toNat := by
      rw [← List.take_append_drop n.toNat l] at hx
      exact (List.mem_append.mp hx).resolve_left fun h => hkL (List.mem_map_of_mem h)
    have hpair : (l.take n.toNat ++ l.drop n.toNat).Pairwise le := by
      rw [List.take_append_drop]
      exact hsorted
    exact hle (List.mem_of_mem_take hr) hx ((List.pairwise_append.mp hpair).2.2 r hr x hdrop)
  · rw [List.length_map, List.length_take]
    omega
  · rw [List.length_map, List.length_take] at hlt
    obtain ⟨x, hx, rfl⟩ := hdue k hk
    rw [List.take_of_length_le (by omega)]
    exact List.mem_map_of_mem hx

theorem claim_shows {C : Scale} {q : String} {now : Time} {due : Row → Bool} {le : Row → Row → Prop}
    (Q : Query C db q now due le) {n : Int} (hn : 0 ≤ n) (w : String) {lu : Time} (hlu : Sane lu)
    {L : List Row} (h : Keyed.Top le n.toNat (db.jobs.rows.filter due) L) :
    ∃ m', Step C m (.claimDue q now n w lu)
        (.jobs (L.map fun r => plain (claimedJob now w lu r))) m' ∧
      Shows (db.claimRows (L.map Row.id) w (toUnixNano lu) (toUnixNano now)) m' := by
  have hjobs : (L.map shown).map (locked w lu) =
      L.map fun r => plain (claimedJob now w lu r) := by
    rw [List.map_map]
    rfl
  have hids : (L.map shown).map Job.id = L.map Row.id := by
    rw [List.map_map]
    rfl
  have hstep : Step C m (.claimDue q now n w lu) _ _ := .claimDue (takes_of_top S Q hn h)
  rw [hjobs, hids] at hstep
  refine ⟨_, hstep, ?_⟩
  refine S.mapOn (Db.claimRows_lookup ..) (fun r => ?_) fun r hr => ⟨hr.runAt, hlu.toUnixNano_nonneg⟩
  simp only [shown, plain, scanJob, claimRow, locked, hlu.fromUnixNano_toUnixNano]

omit S in
/-- the rows that a statement counts, by their IDs -/
theorem counts_rows (p : Row → Bool) {P : JobID → Prop}
    (h : ∀ i, P i ↔ ∃ r, db.jobs.lookup i = some r ∧ p r) : Counts P (db.jobs.count p) := by
  refine ⟨(db.jobs.rows.filter p).map Row.id, ?_, fun i => ?_, (List.length_map _).symm⟩
  · exact db.jobs.nodup.sublist (List.filter_sublist.map Row.id)
  · rw [h i, List.mem_map]
    constructor
    · rintro ⟨r, hr, rfl⟩
      obtain ⟨hr, hp⟩ := List.mem_filter.mp hr
      exact ⟨r, Keyed.lookup_of_mem hr, hp⟩
    · rintro ⟨r, hr, hp⟩
      exact ⟨r, List.mem_filter.mpr ⟨Keyed.mem_of_lookup hr, hp⟩, Keyed.lookup_key hr⟩

/-- `expired` is the test of the statement on the column -/
theorem recover_shows {C : Scale} {now : Time} {expired : Int64 → Bool}
    (h : ∀ a, 0 ≤ a → (expired a = true ↔ fromUnixNano a ≠ zeroTime ∧ C.late (fromUnixNano a) now))
    (stamp : Int64) : ∃ m', Step C m (.recoverStale now) (.count (db.recover expired stamp).2) m' ∧
      Shows (db.recover expired stamp).1 m' := by
  have hiff : ∀ i, Expired C m now i ↔ ∃ r, db.jobs.lookup i = some r ∧
      (decide (r.state = stateClaimed) && expired r.lockedUntil) = true := by
    intro i
    constructor
    · rintro ⟨j, hj, hs, hl, he⟩
      obtain ⟨r, hr, rfl⟩ := S.exists hj
      refine ⟨r, hr, Bool.and_eq_true_iff.mpr ⟨decide_eq_true hs, ?_⟩⟩
      exact (h r.lockedUntil (S.ordered i r hr).lockedUntil).mpr ⟨hl, he⟩
    · rintro ⟨r, hr, hp⟩
      obtain ⟨hs, he⟩ := Bool.and_eq_true_iff.mp hp
      exact ⟨shown r, S.at hr, of_decide_eq_true hs,
        (h r.lockedUntil (S.ordered i r hr).lockedUntil).mp he⟩
  obtain ⟨ids, hnd, hids, hlen⟩ := counts_rows _ hiff
  have hmem : ∀ i, i ∈ ids ↔ ∃ r, db.jobs.lookup i = some r ∧ r.state = stateClaimed ∧
      expired r.lockedUntil := by
    intro i
    rw [hids i, hiff i]
    simp only [Bool.and_eq_true, decide_eq_true_eq]
  refine ⟨MapOn.mapOn m released ids, ?_, S.mapOn (Db.recover_lookup hmem stamp) (fun r => rfl)
    fun r hr => ⟨hr.runAt, Int64.le_refl 0⟩⟩
  have hcount : (db.recover expired stamp).2 = ids.length := hlen
  rw [hcount]
  exact .recoverStale hnd hids

theorem queueSize_shows {C : Scale} (q : String) :
    Step C m (.queueSize q) (.count (db.queueSize q)) m := by
  refine .queueSize (counts_rows _ fun i => ?_)
  constructor
  · rintro ⟨j, hj, hs, hq⟩
    obtain ⟨r, hr, rfl⟩ := S.exists hj
    exact ⟨r, hr, decide_eq_true ⟨hq, hs⟩⟩
  · rintro ⟨r, hr, hp⟩
    obtain ⟨hq, hs⟩ := of_decide_eq_true hp
    exact ⟨shown r, S.at hr, hs, hq⟩

end

/-! ## whole sequences -/

/-- an operation of `Op`, or `QueueSize` -/
inductive Call where
  | op (o : Op)
  | queueSize (queue : String)
deriving DecidableEq, Repr

def Call.asked : Call → Contract.Op
  | .op (.save j) => .save j
  | .op (.claimDue queue now n workerID lockUntil) => .claimDue queue now n workerID lockUntil
  | .op (.ack id) => .ack id
  | .op (.fail id errMsg nextAttemptAt _) => .fail id errMsg nextAttemptAt
  | .op (.cancel id) => .cancel id
  | .op (.reschedule id newTime _) => .reschedule id newTime
  | .op (.recoverStale now) => .recoverStale now
  | .queueSize queue => .queueSize queue

/-- the tables after a call and what it returns, without `UpdatedAt` -/
def reply (db : Db) : Call → Db × Contract.Res
  | .op (.save j) => (db.save j, .err none)
  | .op (.claimDue queue now n workerID lockUntil) =>
    let r := db.claimDue queue now n workerID lockUntil
    (r.1, .jobs (r.2.map plain))
  | .op (.ack id) => ((db.ack id).1, .err (db.ack id).2)
  | .op (.fail id errMsg nextAttemptAt now) =>
    ((db.fail id errMsg nextAttemptAt now).1, .err (db.fail id errMsg nextAttemptAt now).2)
  | .op (.cancel id) => ((db.cancel id).1, .err (db.cancel id).2)
  | .op (.reschedule id newTime now) =>
    ((db.reschedule id newTime now).1, .err (db.reschedule id newTime now).2)
  | .op (.recoverStale now) => ((db.recoverStale now).1, .count (db.recoverStale now).2)
  | .queueSize queue => (db, .count (db.queueSize queue))

/-- the calls with what they return -/
def replies (db : Db) : List Call → List (Contract.Op × Contract.Res)
  | [] => []
  | c :: cs => (c.asked, (reply db c).2) :: replies (reply db c).1 cs

def serve (db : Db) (cs : List Call) : Db := cs.foldl (fun db c => (reply db c).1) db

/-- every instant that the call stores or compares is sane, the limit is a number, and a failure finds
attempts that the column can count further -/
def SaneCall (db : Db) : Call → Prop
  | .op (.save j) => Sane j.runAt ∧ Sane j.lockedUntil ∧ Sane j.createdAt
  | .op (.claimDue _ now n _ lockUntil) => Sane now ∧ Sane lockUntil ∧ 0 ≤ n
  | .op (.fail id _ nextAttemptAt _) =>
    Sane nextAttemptAt ∧ ∀ r ∈ db.jobs.lookup id, r.attempt ≠ Int64.maxValue
  | .op (.reschedule _ newTime _) => Sane newTime
  | .op (.recoverStale now) => Sane now
  | _ => True

instance (db : Db) : DecidablePred (SaneCall db)
  | .op (.save _) => inferInstanceAs (Decidable (_ ∧ _ ∧ _))
  | .op (.claimDue ..) => inferInstanceAs (Decidable (_ ∧ _ ∧ _))
  | .op (.fail ..) => inferInstanceAs (Decidable (_ ∧ _))
  | .op (.reschedule ..) => inferInstanceAs (Decidable (Sane _))
  | .op (.recoverStale _) => inferInstanceAs (Decidable (Sane _))
  | .op (.ack _) | .op (.cancel _) | .queueSize _ => isTrue trivial

/-- every call of the sequence is sane when it is made -/
def SaneCalls (db : Db) (cs : List Call) : Prop := Meets (fun db c => some (reply db c).1) SaneCall db cs

instance (db : Db) (cs : List Call) : Decidable (SaneCalls db cs) :=
  inferInstanceAs (Decidable (Meets _ _ _ _))

section
variable {db : Db} {m : JobMap}

/-- **A sane call is a call on the map.** -/
theorem reply_shows (S : Shows db m) {c : Call} (hc : SaneCall db c) :
    ∃ m', Step scale m c.asked (reply db c).2 m' ∧ Shows (reply db c).1 m' := by
  cases c with
  | queueSize q => exact ⟨m, queueSize_shows S q, S⟩
  | op o =>
    cases o with
    | save j => exact save_shows S hc.1 hc.2.1 hc.2.2
    | claimDue q now n w lu =>
      obtain ⟨h1, h2, h3⟩ := hc
      have hsel : db.claimSelect q (toUnixNano now) n =
          ((db.jobs.rows.filter (isDue q (toUnixNano now))).insertionSort RowLE).take n.toNat :=
        if_neg (not_lt.mpr h3)
      have hjobs : (reply db (.op (.claimDue q now n w lu))).2 =
          .jobs ((db.claimSelect q (toUnixNano now) n).map fun r => plain (claimedJob now w lu r)) := by
        show Contract.Res.jobs (List.map _ (List.map _ _)) = _
        rw [List.map_map]
        rfl
      rw [hjobs]
      refine claim_shows S ⟨shown_due S h1, shown_rowLE S⟩ h3 w h2 ?_
      rw [hsel]
      exact Keyed.top_insertionSort _ _
    | ack id =>
      obtain ⟨h1, h2⟩ := ack_shows S id
      refine ⟨_, ?_, h2⟩
      show Step _ m _ (.err (db.ack id).2) _
      rw [← h1]
      exact .ack id
    | fail id msg t now =>
      obtain ⟨h1, h2⟩ := fail_shows S id msg hc.1 now
      refine ⟨_, ?_, h2⟩
      show Step _ m _ (.err (db.fail id msg t now).2) _
      rw [← h1]
      exact .fail id msg t
    | cancel id =>
      obtain ⟨h1, h2⟩ := cancel_shows S id
      refine ⟨_, ?_, h2⟩
      show Step _ m _ (.err (db.cancel id).2) _
      rw [← h1]
      exact .cancel id
    | reschedule id t now =>
      obtain ⟨h1, h2⟩ := reschedule_shows S id hc now
      refine ⟨_, ?_, h2⟩
      show Step _ m _ (.err (db.reschedule id t now).2) _
      rw [← h1]
      exact .reschedule id t
    | recoverStale now =>
      refine recover_shows S (fun a ha => ?_) (toUnixNano now)
      rw [decide_eq_true_eq, fromUnixNano_ne_zero ha, ← fromUnixNano_lt_sane ha hc]
      exact Iff.rfl

theorem replies_shows (S : Shows db m) {h : List (Contract.Op × Contract.Res)} {m₀ : JobMap}
    (hr : Runs (Step scale) m₀ h m) {cs : List Call} (hcs : SaneCalls db cs) :
    ∃ m', Runs (Step scale) m₀ (h ++ replies db cs) m' ∧ Shows (serve db cs) m' := by
  induction cs generalizing db m h with
  | nil =>
    rw [replies, List.append_nil]
    exact ⟨m, hr, S⟩
  | cons c cs ih =>
    obtain ⟨m₁, hs, S₁⟩ := reply_shows S hcs.1
    obtain ⟨m', hr', S'⟩ := ih S₁ (.snoc hr hs) (hcs.2 _ rfl)
    rw [List.append_assoc] at hr'
    exact ⟨m', hr', S'⟩

end

/-- **The SQLite store is a queue of jobs with exact instants**: what any sequence of sane calls returns
is what the map returns, and the rows at the end say what the map holds. -/
theorem sqlite_refines (cs : List Call) (hcs : SaneCalls Db.empty cs) :
    Runs (Step scale) Contract.empty (replies Db.empty cs)
      fun id => ((serve Db.empty cs).jobs.lookup id).map shown := by
  obtain ⟨m, hr, S⟩ := replies_shows empty_shows .nil hcs
  rw [← S.eq]
  exact hr

/-- a job that is claimed and left, recovered, claimed again and acknowledged -/
def abandoned : List Call :=
  [.op (.save { id := "a", queue := "q", runAt := 5, maxAttempts := 3 }),
    .op (.claimDue "q" 10 1 "w" 20), .op (.recoverStale 21), .queueSize "q",
    .op (.claimDue "q" 30 1 "v" 40), .op (.ack "a")]

theorem sqlite_refines_abandoned : Runs (Step scale) Contract.empty (replies Db.empty abandoned)
      (fun id => ((serve Db.empty abandoned).jobs.lookup id).map shown) ∧
    (replies Db.empty abandoned).length = 6 :=
  ⟨sqlite_refines abandoned (by decide +kernel), rfl⟩

end GS.Sqlite
