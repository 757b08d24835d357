import GoSchedule.Lib.Run
import GoSchedule.Redis.Encoding

/-!
# The registry of schedules, with any number of clients

The calls that write are one step each; `ListRecurring` is an SMEMBERS and then one HGETALL after another,
and the steps of the others fall in between.

* `Sys`        the server, the listings under way, and the calls so far;
* `Sound r`    a schedule has a hash exactly if its ID is in the set, and the hash has all the fields;
* `FromCalls`  a spec that was listed is one that was upserted, with the times of that call or of an update;
* `HashGood`   what is known of a hash: `hashGood_upsert`, `hashGood_update`;
* `Harmless`   an update finds its ID in the set.  A spec with the ID `all` would have the key of the set:
  it is not upserted, and a delete or an update of it is a call that does nothing;
* `registry_sound_iff`   **the registry is sound, and all listings are right, exactly in the runs whose calls
  are harmless.**
-/

namespace GS.Redis.Registry
open Trans

/-- the fields that `serializeRecurring` writes -/
def recurringFields : List String := (serializeRecurring {}).map Prod.fst

structure Sound (r : Registry) : Prop where
  hash_iff : ∀ id, r.db.hash (recurringKey id) ≠ none ↔ id ∈ r.all
  fields : ∀ id h, r.db.hash (recurringKey id) = some h → ∀ f ∈ recurringFields, h f ≠ none

/-- a `ListRecurring` under way: the IDs that are still to be read, and the specs so far -/
structure Listing where
  ids : List JobID
  specs : List RecurringSpec

structure Sys where
  reg : Registry
  lists : Nat → Option Listing
  calls : List RecurringOp

def Sys.init : Sys := ⟨Registry.empty, fun _ => none, []⟩

inductive Label where
  | write (o : RecurringOp)
  | smembers (c : Nat)
  | hgetall (c : Nat)
deriving DecidableEq, Repr

/-- a listing that has met an error is given up -/
def step (s : Sys) : Label → Option Sys
  | .write o => some { s with reg := s.reg.call o, calls := s.calls ++ [o] }
  | .smembers c => some { s with
      lists := Function.update s.lists c (s.reg.smembers.map fun ids => ⟨ids, []⟩) }
  | .hgetall c =>
    match s.lists c with
    | some ⟨id :: ids, specs⟩ => some { s with
        lists := Function.update s.lists c ((s.reg.hgetall (recurringKey id)).map fun h =>
          ⟨ids, specs ++ (h.map deserializeRecurring).toList⟩) }
    | _ => none

def Harmless (r : Registry) : RecurringOp → Prop
  | .upsert spec => spec.id ≠ "all"
  | .delete id => id = "all" → r.all = []
  | .updateNextRun id _ _ => id ∈ r.all ∨ id = "all" ∧ r.all ≠ []

instance (r : Registry) : DecidablePred (Harmless r)
  | .upsert _ => inferInstanceAs (Decidable (_ ≠ _))
  | .delete _ => inferInstanceAs (Decidable (_ → _))
  | .updateNextRun .. => inferInstanceAs (Decidable (_ ∨ _ ∧ _))

/-- the condition on a step: a write is harmless -/
def HarmlessStep (s : Sys) : Label → Prop
  | .write o => Harmless s.reg o
  | .smembers _ | .hgetall _ => True

instance (s : Sys) : DecidablePred (HarmlessStep s)
  | .write _ => inferInstanceAs (Decidable (Harmless _ _))
  | .smembers _ | .hgetall _ => isTrue trivial

/-- the spec without its two times -/
def core (spec : RecurringSpec) : RecurringSpec :=
  { spec with nextRunAt := zeroTime, lastFireAt := zeroTime }

/-- the times that the calls have given to a spec -/
def Timed (calls : List RecurringOp) (spec : RecurringSpec) (next last : Time) : Prop :=
  next = spec.nextRunAt ∧ last = spec.lastFireAt ∨ .updateNextRun spec.id next last ∈ calls

def FromCalls (calls : List RecurringOp) (got : RecurringSpec) : Prop :=
  ∃ spec next last, .upsert spec ∈ calls ∧ core got = core spec.persisted ∧
    Timed calls spec next last ∧ got.nextRunAt = parseTime (formatTime next) ∧
    got.lastFireAt = parseTime (formatTime last)

/-! ## hashes -/

/-- the hash has the fields of an upserted spec, with times that were given to it -/
def HashGood (calls : List RecurringOp) (id : JobID) (h : String → Option String) : Prop :=
  ∃ spec next last, .upsert spec ∈ calls ∧ spec.id = id ∧ Timed calls spec next last ∧
    ∀ f ∈ recurringFields,
      h f = asHash (serializeRecurring { spec with nextRunAt := next, lastFireAt := last }) f

/-- the spec is read from these fields -/
theorem deserializeRecurring_congr {h h' : String → Option String}
    (e : ∀ f ∈ recurringFields, h f = h' f) : deserializeRecurring h = deserializeRecurring h' := by
  unfold deserializeRecurring
  dsimp only
  rw [e "id" (by decide), e "name" (by decide), e "queue" (by decide), e "payload" (by decide),
    e "codec_name" (by decide), e "priority" (by decide), e "timeout_ns" (by decide),
    e "max_attempts" (by decide), e "cron" (by decide), e "every_ns" (by decide),
    e "catchup" (by decide), e "next_run_at" (by decide), e "last_fire_at" (by decide)]

theorem HashGood.fields {calls : List RecurringOp} {id : JobID} {h : String → Option String}
    (hg : HashGood calls id h) : ∀ f ∈ recurringFields, h f ≠ none := by
  obtain ⟨spec, next, last, _, _, _, hf⟩ := hg
  intro f hmem
  have hkey : f ∈ (serializeRecurring { spec with nextRunAt := next, lastFireAt := last }).map Prod.fst :=
    hmem
  obtain ⟨v, hv⟩ := writeFields_of_mem hkey
  rw [hf f hmem, asHash, hv]
  exact Option.some_ne_none v

theorem HashGood.fromCalls {calls : List RecurringOp} {id : JobID} {h : String → Option String}
    (hg : HashGood calls id h) : FromCalls calls (deserializeRecurring h) := by
  obtain ⟨spec, next, last, hup, _, ht, hf⟩ := hg
  refine ⟨spec, next, last, hup, ?_⟩
  rw [deserializeRecurring_congr hf, deserializeRecurring_serializeRecurring]
  exact ⟨rfl, ht, rfl, rfl⟩

theorem Timed.snoc {calls : List RecurringOp} {spec : RecurringSpec} {next last : Time}
    (h : Timed calls spec next last) (o : RecurringOp) : Timed (calls ++ [o]) spec next last :=
  h.imp_right fun hm => List.mem_append_left _ hm

theorem HashGood.snoc {calls : List RecurringOp} {id : JobID} {h : String → Option String}
    (hg : HashGood calls id h) (o : RecurringOp) : HashGood (calls ++ [o]) id h := by
  obtain ⟨spec, next, last, hup, hid, ht, hf⟩ := hg
  exact ⟨spec, next, last, List.mem_append_left _ hup, hid, ht.snoc o, hf⟩

theorem FromCalls.snoc {calls : List RecurringOp} {got : RecurringSpec} (hg : FromCalls calls got)
    (o : RecurringOp) : FromCalls (calls ++ [o]) got := by
  obtain ⟨spec, next, last, hup, hcore, ht, hn, hl⟩ := hg
  exact ⟨spec, next, last, List.mem_append_left _ hup, hcore, ht.snoc o, hn, hl⟩

theorem hashGood_upsert (calls : List RecurringOp) (spec : RecurringSpec) (m : String → Option String) :
    HashGood (calls ++ [.upsert spec]) spec.id (writeFields (serializeRecurring spec) m) := by
  refine ⟨spec, spec.nextRunAt, spec.lastFireAt, List.mem_append_right _ List.mem_cons_self, rfl,
    Or.inl ⟨rfl, rfl⟩, fun f hf => ?_⟩
  have hkey : f ∈ (serializeRecurring spec).map Prod.fst := hf
  obtain ⟨v, hv⟩ := writeFields_of_mem hkey
  exact (hv m).trans (hv _).symm

def timeFields (next last : Time) : List (String × String) :=
  [("next_run_at", formatTime next), ("last_fire_at", formatTime last)]

theorem timeFields_keys (next last : Time) :
    (timeFields next last).map Prod.fst = ["next_run_at", "last_fire_at"] := rfl

/-- the two times are the last fields -/
theorem asHash_times (spec : RecurringSpec) (next last : Time) :
    asHash (serializeRecurring { spec with nextRunAt := next, lastFireAt := last }) =
      writeFields (timeFields next last) (asHash ((serializeRecurring spec).take 11)) := by
  have hsplit : serializeRecurring { spec with nextRunAt := next, lastFireAt := last } =
      (serializeRecurring spec).take 11 ++ timeFields next last := rfl
  rw [hsplit]
  exact List.foldl_append

/-- an update of the times of a hash that is there -/
theorem hashGood_update {calls : List RecurringOp} {id : JobID} {h : String → Option String}
    (hg : HashGood calls id h) (next last : Time) :
    HashGood (calls ++ [.updateNextRun id next last]) id (writeFields (timeFields next last) h) := by
  obtain ⟨spec, next', last', hup, rfl, _, hf⟩ := hg
  refine ⟨spec, next, last, List.mem_append_left _ hup, rfl,
    Or.inr (List.mem_append_right _ List.mem_cons_self), fun f hmem => ?_⟩
  have hold := hf f hmem
  rw [asHash_times] at hold ⊢
  by_cases ht : f ∈ (timeFields next last).map Prod.fst
  · obtain ⟨v, hv⟩ := writeFields_of_mem ht
    rw [hv, hv]
  · have ht' : f ∉ (timeFields next' last').map Prod.fst := by
      rw [timeFields_keys] at ht ⊢
      exact ht
    rw [writeFields_of_not_mem ht'] at hold
    rw [writeFields_of_not_mem ht, writeFields_of_not_mem ht]
    exact hold

/-! ## the calls -/

section
variable {r : Registry} {calls : List RecurringOp}

/-- every hash is good -/
def Good (r : Registry) (calls : List RecurringOp) : Prop :=
  ∀ id h, r.db.hash (recurringKey id) = some h → HashGood calls id h

theorem Good.snoc (hg : Good r calls) (o : RecurringOp) : Good r (calls ++ [o]) :=
  fun id h hh => (hg id h hh).snoc o

/-- a hash under the key of the set would make it sound to have the ID `all`, which is a member then -/
theorem hash_all_none (ht : r.Typed) (hs : Sound r) : r.db.hash recurringAllKey = none := by
  rcases ht with ht | ht
  · by_contra hne
    have hmem := (hs.hash_iff "all").mp (by rw [recurringKey_eq_all.mpr rfl]; exact hne)
    rw [ht] at hmem
    exact absurd hmem List.not_mem_nil
  · exact ht

theorem all_not_mem (ht : r.Typed) (hs : Sound r) : "all" ∉ r.all := by
  intro hm
  refine (hs.hash_iff "all").mpr hm ?_
  rw [recurringKey_eq_all.mpr rfl]
  exact hash_all_none ht hs

theorem upsert_good (ht : r.Typed) (hs : Sound r) (hg : Good r calls) {spec : RecurringSpec}
    (hid : spec.id ≠ "all") : (∀ id, (r.upsertRecurring spec).db.hash (recurringKey id) ≠ none ↔
      id ∈ (r.upsertRecurring spec).all) ∧ Good (r.upsertRecurring spec) (calls ++ [.upsert spec]) := by
  rw [upsert_eq hid (hash_all_none ht hs)]
  refine ⟨fun i => ?_, fun i h hh => ?_⟩
  · rw [List.mem_insert_iff, ← hs.hash_iff i]
    by_cases e : i = spec.id
    · subst e
      rw [hash_hset_self]
      simp
    · rw [hash_hset_ne r.db (fun e' => e (recurringKey_inj e'))]
      exact ⟨Or.inr, fun h => h.resolve_left e⟩
  · by_cases e : i = spec.id
    · subst e
      rw [hash_hset_self] at hh
      rw [← Option.some.inj hh]
      exact hashGood_upsert calls spec _
    · rw [hash_hset_ne r.db (fun e' => e (recurringKey_inj e'))] at hh
      exact (hg i h hh).snoc _

theorem update_good (ht : r.Typed) (hs : Sound r) (hg : Good r calls) {id : JobID} (hid : id ∈ r.all)
    (next last : Time) : (∀ i, (r.updateRecurringNextRun id next last).db.hash (recurringKey i) ≠ none ↔
      i ∈ (r.updateRecurringNextRun id next last).all) ∧
      Good (r.updateRecurringNextRun id next last) (calls ++ [.updateNextRun id next last]) := by
  have hne : id ≠ "all" := fun e => all_not_mem ht hs (e ▸ hid)
  obtain ⟨x, hx⟩ := Option.ne_none_iff_exists'.mp ((hs.hash_iff id).mpr hid)
  unfold updateRecurringNextRun
  rw [hset_of_ne hne]
  refine ⟨fun i => ?_, fun i h hh => ?_⟩
  · rw [← hs.hash_iff i]
    by_cases e : i = id
    · subst e
      rw [hash_hset_self, hx]
      simp
    · rw [hash_hset_ne r.db (fun e' => e (recurringKey_inj e'))]
  · by_cases e : i = id
    · subst e
      rw [hash_hset_self, hx] at hh
      rw [← Option.some.inj hh]
      exact hashGood_update (hg i x hx) next last
    · rw [hash_hset_ne r.db (fun e' => e (recurringKey_inj e'))] at hh
      exact (hg i h hh).snoc _

theorem delete_good (ht : r.Typed) (hs : Sound r) (hg : Good r calls) {id : JobID} (hid : id ≠ "all") :
    (∀ i, (r.deleteRecurring id).db.hash (recurringKey i) ≠ none ↔ i ∈ (r.deleteRecurring id).all) ∧
      Good (r.deleteRecurring id) (calls ++ [.delete id]) := by
  rw [delete_eq hid (hash_all_none ht hs)]
  refine ⟨fun i => ?_, fun i h hh => ?_⟩
  · rw [List.mem_filter, ← hs.hash_iff i, decide_eq_true_eq]
    by_cases e : i = id
    · subst e
      rw [hash_del_self]
      simp
    · rw [hash_del_ne r.db fun e' => e (recurringKey_inj e')]
      exact ⟨fun h => ⟨h, e⟩, And.left⟩
  · by_cases e : i = id
    · subst e
      rw [hash_del_self] at hh
      cases hh
    · rw [hash_del_ne r.db fun e' => e (recurringKey_inj e')] at hh
      exact (hg i h hh).snoc _

theorem sound_of_good {r : Registry} (h : ∀ id, r.db.hash (recurringKey id) ≠ none ↔ id ∈ r.all)
    (hg : Good r calls) : Sound r := ⟨h, fun id x hx => (hg id x hx).fields⟩

/-- a DEL of the key of the set, while there is none -/
theorem delete_all_good (ht : r.Typed) (hs : Sound r) (hg : Good r calls) (hnil : r.all = []) :
    (∀ i, (r.deleteRecurring "all").db.hash (recurringKey i) ≠ none ↔
      i ∈ (r.deleteRecurring "all").all) ∧ Good (r.deleteRecurring "all") (calls ++ [.delete "all"]) := by
  have hkey : recurringKey "all" = recurringAllKey := recurringKey_eq_all.mpr rfl
  have hsame : ∀ i, (r.deleteRecurring "all").db.hash (recurringKey i) = r.db.hash (recurringKey i) := by
    intro i
    rw [delete_db]
    by_cases e : i = "all"
    · rw [e, hash_del_self, hkey]
      exact (hash_all_none ht hs).symm
    · exact hash_del_ne r.db fun e' => e (recurringKey_inj e')
  refine ⟨fun i => ?_, fun i h hh => ?_⟩
  · rw [hsame i, delete_nil (Or.inl rfl), hs.hash_iff i, hnil]
  · rw [hsame i] at hh
    exact (hg i h hh).snoc _

/-- **A harmless call keeps the registry sound.** -/
theorem call_good (ht : r.Typed) (hs : Sound r) (hg : Good r calls) {o : RecurringOp}
    (ho : Harmless r o) : Sound (r.call o) ∧ Good (r.call o) (calls ++ [o]) := by
  cases o with
  | upsert spec =>
    obtain ⟨h1, h2⟩ := upsert_good ht hs hg ho
    exact ⟨sound_of_good h1 h2, h2⟩
  | updateNextRun id next last =>
    rcases ho with hid | ⟨hid, hne⟩
    · obtain ⟨h1, h2⟩ := update_good ht hs hg hid next last
      exact ⟨sound_of_good h1 h2, h2⟩
    · -- the key is that of the set, so the HSET is refused
      have hsame : r.call (.updateNextRun id next last) = r :=
        if_pos ⟨recurringKey_eq_all.mpr hid, hne⟩
      rw [hsame]
      exact ⟨hs, hg.snoc _⟩
  | delete id =>
    by_cases hid : id = "all"
    · subst hid
      obtain ⟨h1, h2⟩ := delete_all_good ht hs hg (ho rfl)
      exact ⟨sound_of_good h1 h2, h2⟩
    · obtain ⟨h1, h2⟩ := delete_good ht hs hg hid
      exact ⟨sound_of_good h1 h2, h2⟩

/-- **A call that is not harmless makes it unsound.** -/
theorem not_sound_of_harmful (ht : r.Typed) (hs : Sound r) {o : RecurringOp} (ho : ¬ Harmless r o) :
    ¬ Sound (r.call o) := by
  intro hs'
  have ht' := call_typed ht o
  cases o with
  | upsert spec =>
    exact ho (visible_upsert ⟨hash_all_none ht' hs', all_not_mem ht' hs'⟩).2
  | updateNextRun id next last =>
    obtain ⟨hid, hfree⟩ := not_or.mp ho
    have hset : r.call (.updateNextRun id next last) =
        ⟨r.db.hset (recurringKey id) _, r.all⟩ :=
      if_neg fun h => hfree ⟨recurringKey_eq_all.mp h.1, h.2⟩
    rw [hset] at hs'
    refine hid ((hs'.hash_iff id).mp ?_)
    rw [hash_hset_self]
    simp
  | delete id =>
    obtain ⟨rfl, hne⟩ := Classical.not_imp.mp ho
    obtain ⟨i, hi⟩ := List.exists_mem_of_ne_nil _ hne
    have hia : i ≠ "all" := fun e => all_not_mem ht hs (e ▸ hi)
    have hmem := (hs'.hash_iff i).mp (by
      show (r.deleteRecurring "all").db.hash (recurringKey i) ≠ none
      rw [delete_db, hash_del_ne r.db fun e => hia (recurringKey_inj e)]
      exact (hs.hash_iff i).mpr hi)
    rw [show (r.call (.delete "all")).all = [] from delete_nil (Or.inl rfl)] at hmem
    exact absurd hmem List.not_mem_nil

end

/-! ## whole runs -/

/-- what is known after harmless calls -/
structure Inv (s : Sys) : Prop where
  typed : s.reg.Typed
  sound : Sound s.reg
  good : Good s.reg s.calls
  listed : ∀ c L, s.lists c = some L → ∀ got ∈ L.specs, FromCalls s.calls got

theorem init_inv : Inv Sys.init :=
  ⟨Or.inl rfl, ⟨fun _ => ⟨fun h => absurd rfl h, fun h => absurd h List.not_mem_nil⟩,
    fun _ _ h => (nomatch h)⟩, fun _ _ h => (nomatch h), fun _ _ h => (nomatch h)⟩

/-- one listing has changed -/
theorem Inv.set_list {s : Sys} (v : Inv s) (c : Nat) {o : Option Listing}
    (ho : ∀ L, o = some L → ∀ got ∈ L.specs, FromCalls s.calls got) :
    Inv { s with lists := Function.update s.lists c o } := by
  refine ⟨v.typed, v.sound, v.good, fun c' L hL => ?_⟩
  have hL' : Function.update s.lists c o c' = some L := hL
  by_cases e : c' = c
  · subst e
    rw [Function.update_self] at hL'
    exact ho L hL'
  · rw [Function.update_of_ne e] at hL'
    exact v.listed c' L hL'

/-- the read of one hash by a listing -/
theorem hgetall_step {s t : Sys} {c : Nat} (h : step s (.hgetall c) = some t) :
    ∃ id ids specs, s.lists c = some ⟨id :: ids, specs⟩ ∧
      t = { s with lists := Function.update s.lists c ((s.reg.hgetall (recurringKey id)).map fun h =>
        ⟨ids, specs ++ (h.map deserializeRecurring).toList⟩) } := by
  simp only [step] at h
  split at h
  · next id ids specs hlist => exact ⟨id, ids, specs, hlist, (Option.some.inj h).symm⟩
  · cases h

theorem step_inv {s t : Sys} {a : Label} (v : Inv s) (ha : HarmlessStep s a)
    (h : step s a = some t) : Inv t := by
  cases a with
  | write o =>
    obtain rfl := Option.some.inj h
    obtain ⟨hs, hg⟩ := call_good v.typed v.sound v.good ha
    exact ⟨call_typed v.typed o, hs, hg, fun c L hL got hgot => (v.listed c L hL got hgot).snoc o⟩
  | smembers c =>
    obtain rfl := Option.some.inj h
    refine v.set_list c fun L hL got hgot => ?_
    obtain ⟨ids, _, rfl⟩ := Option.map_eq_some_iff.mp hL
    exact absurd hgot List.not_mem_nil
  | hgetall c =>
    obtain ⟨id, ids, specs, hlist, rfl⟩ := hgetall_step h
    refine v.set_list c fun L hL got hgot => ?_
    obtain ⟨x, hx, rfl⟩ := Option.map_eq_some_iff.mp hL
    rcases List.mem_append.mp hgot with hgot | hgot
    · exact v.listed c _ hlist got hgot
    · unfold hgetall at hx
      split at hx
      · cases hx
      · obtain rfl := Option.some.inj hx
        obtain ⟨m, hm, rfl⟩ := Option.map_eq_some_iff.mp (Option.mem_toList.mp hgot)
        exact (v.good id m hm).fromCalls

theorem step_typed {s t : Sys} {a : Label} (ht : s.reg.Typed) (h : step s a = some t) : t.reg.Typed := by
  cases a with
  | write o =>
    obtain rfl := Option.some.inj h
    exact call_typed ht o
  | smembers c =>
    obtain rfl := Option.some.inj h
    exact ht
  | hgetall c =>
    obtain ⟨_, _, _, _, rfl⟩ := hgetall_step h
    exact ht

/-- **The registry is sound in every state of a run, and every listing has specs that were upserted, exactly
if the calls of the run are harmless.** -/
theorem registry_sound_iff (ls : List Label) :
    (∀ l₁ l₂ s, ls = l₁ ++ l₂ → run step Sys.init l₁ = some s →
      Sound s.reg ∧ ∀ c L, s.lists c = some L → ∀ got ∈ L.specs, FromCalls s.calls got) ↔
    Meets step HarmlessStep Sys.init ls := by
  constructor
  · intro hall
    refine meets_iff.mpr fun l₁ a l₂ s e hs => ?_
    cases a with
    | write o =>
      by_contra ho
      have htyped : s.reg.Typed := run_keep (P := fun s => s.reg.Typed)
        (fun _ _ _ ht hst => step_typed ht hst) (Or.inl rfl) hs
      have hnext : run step Sys.init (l₁ ++ [.write o]) = some _ :=
        run_append.mpr ⟨s, hs, run_cons.mpr ⟨_, rfl, rfl⟩⟩
      have e' : ls = (l₁ ++ [.write o]) ++ l₂ := by rw [e, List.append_assoc]; rfl
      exact not_sound_of_harmful htyped (hall l₁ _ s e hs).1 ho (hall _ l₂ _ e' hnext).1
    | smembers c => trivial
    | hgetall c => trivial
  · intro hm l₁ l₂ s e hs
    rw [e] at hm
    have v := run_keep_of (fun _ _ _ v ha hst => step_inv v ha hst) (hm.append hs).1 init_inv hs
    exact ⟨v.sound, v.listed⟩

/-- a spec that is listed while its times are updated -/
def listedAlive : List Label :=
  [.write (.upsert { id := "s", every := 1000000000, nextRunAt := 1000000000 }), .smembers 0,
    .write (.updateNextRun "s" 2000000000 1000000000), .hgetall 0]

theorem registry_sound_alive : ∃ s, run step Sys.init listedAlive = some s ∧ Sound s.reg ∧
    ∃ L, s.lists 0 = some L ∧ L.specs.map RecurringSpec.nextRunAt = [2000000000] ∧
      ∀ got ∈ L.specs, FromCalls s.calls got := by
  have hmeets : Meets step HarmlessStep Sys.init listedAlive := by decide +kernel
  have hlist : (run step Sys.init listedAlive).any (fun s => (s.lists 0).any fun L =>
      L.specs.map RecurringSpec.nextRunAt = [2000000000]) = true := by decide +kernel
  obtain ⟨s, hs, hL⟩ := (Option.any_eq_true _ _).mp hlist
  obtain ⟨L, hL, hspecs⟩ := (Option.any_eq_true _ _).mp hL
  have h := (registry_sound_iff listedAlive).mpr hmeets listedAlive [] s (List.append_nil _).symm hs
  exact ⟨s, hs, h.1, L, hL, of_decide_eq_true hspecs, h.2 0 L hL⟩

/-- **A deleted spec comes back in part.**  It is deleted after the SMEMBERS of a listing, and a runner that
has it from an older listing writes its next run: the hash of the two times is no member of the set, and the
listing returns a spec without an ID. -/
theorem deleted_spec_revived :
    ∃ s, run step Sys.init [.write (.upsert { id := "s", every := 1000000000, nextRunAt := 1000000000 }),
        .smembers 0, .write (.delete "s"), .write (.updateNextRun "s" 2000000000 1000000000),
        .hgetall 0] = some s ∧
      "s" ∉ s.reg.all ∧ s.reg.db.hget (recurringKey "s") "next_run_at" = some "2000000000" ∧
      s.reg.db.hget (recurringKey "s") "id" = none ∧
      ∃ L, s.lists 0 = some L ∧ L.ids = [] ∧ L.specs.map RecurringSpec.id = [""] := by
  refine ⟨_, rfl, ?_, ?_, ?_, _, rfl, ?_, ?_⟩
  all_goals decide +kernel

end GS.Redis.Registry
