import GoSchedule.MemStore.Refine

/-!
# Who holds the claimed jobs

`H q` lists the jobs of the queue `q` that somebody holds, wherever they are.  `Ledger s H` says
that the held jobs are exactly the claimed records of the store `s`, each held once.

* `Ledger.perm`      it does not matter where a job is held;
* `Ledger.claim`     `ClaimDue` adds the batch that it returns;
* `Ledger.release`   a store call that ends the claim of a held job takes it out;
* `Ledger.edit`      a store call on a record that is not claimed leaves `H` alone.

A held copy is equal to the record, so the store decides by the same fields as its holder.
-/

namespace GS
open Mem

/-- `j` is a claimed record of the queue `q` -/
def Mem.Store.Claimed (s : Mem.Store) (q : String) (j : Job) : Prop :=
  s.jobs j.id = some j ∧ j.state = stateClaimed ∧ j.queue = q

structure Ledger (s : Mem.Store) (H : String → List Job) : Prop where
  inv : Inv s
  nodup : ∀ q, (H q).Nodup
  mem : ∀ q j, j ∈ H q ↔ s.Claimed q j

section
variable {s s' : Mem.Store} {H H' : String → List Job}

theorem Ledger.new : Ledger Mem.Store.new fun _ => [] where
  inv := new_inv
  nodup := fun _ => List.nodup_nil
  mem := fun _ j => by
    have h : Mem.Store.new.jobs j.id = none := rfl
    simp [Mem.Store.Claimed, h]

theorem Ledger.perm (l : Ledger s H) (h : ∀ q, (H q).Perm (H' q)) : Ledger s H' where
  inv := l.inv
  nodup := fun q => (h q).nodup_iff.mp (l.nodup q)
  mem := fun q j => (h q).mem_iff.symm.trans (l.mem q j)

/-- a held job is known by its ID -/
theorem Ledger.eq_of_id (l : Ledger s H) {q q' : String} {a b : Job} (ha : a ∈ H q) (hb : b ∈ H q')
    (h : a.id = b.id) : a = b := by
  have h1 := ((l.mem q a).mp ha).1
  rw [h, ((l.mem q' b).mp hb).1] at h1
  exact (Option.some.inj h1).symm

/-- one record is written, and is not claimed afterwards -/
theorem Ledger.write (l : Ledger s H) {id : JobID} {r : Option Job} (v : Inv s')
    (hjobs : s'.jobs = Function.update s.jobs id r) (hr : ∀ j, r = some j → j.state ≠ stateClaimed)
    (hn : ∀ q, (H' q).Nodup) (hm : ∀ q j, j ∈ H' q ↔ j ∈ H q ∧ j.id ≠ id) : Ledger s' H' where
  inv := v
  nodup := hn
  mem := fun q j => by
    rw [hm, l.mem]
    unfold Mem.Store.Claimed
    rw [hjobs]
    by_cases h : j.id = id
    · rw [h, Function.update_self]
      exact ⟨fun h' => absurd rfl h'.2, fun h' => absurd h'.2.1 (hr j h'.1)⟩
    · rw [Function.update_of_ne h]
      exact ⟨fun h' => h'.1, fun h' => ⟨h', h⟩⟩

theorem Ledger.edit (l : Ledger s H) {id : JobID} {r : Option Job} (v : Inv s')
    (hjobs : s'.jobs = Function.update s.jobs id r) (hr : ∀ j, r = some j → j.state ≠ stateClaimed)
    (hold : ∀ j, s.jobs id = some j → j.state ≠ stateClaimed) : Ledger s' H := by
  refine l.write v hjobs hr l.nodup (fun q j => ⟨fun h => ⟨h, fun e => ?_⟩, fun h => h.1⟩)
  obtain ⟨h1, h2, _⟩ := (l.mem q j).mp h
  exact hold j (e ▸ h1) h2

theorem Ledger.release (l : Ledger s H) {q : String} {j : Job} {R : List Job} {r : Option Job}
    (hH : (H q).Perm (j :: R)) (v : Inv s') (hjobs : s'.jobs = Function.update s.jobs j.id r)
    (hr : ∀ j, r = some j → j.state ≠ stateClaimed) : Ledger s' (Function.update H q R) := by
  have hnd := List.nodup_cons.mp (hH.nodup_iff.mp (l.nodup q))
  have hj : j ∈ H q := hH.mem_iff.mpr List.mem_cons_self
  refine l.write v hjobs hr (fun q' => ?_) (fun q' k => ?_)
  · by_cases h : q' = q
    · rw [h, Function.update_self]
      exact hnd.2
    · rw [Function.update_of_ne h]
      exact l.nodup q'
  · by_cases h : q' = q
    · rw [h, Function.update_self, hH.mem_iff, List.mem_cons]
      constructor
      · intro hk
        refine ⟨Or.inr hk, fun e => ?_⟩
        have hk' : k ∈ H q := hH.mem_iff.mpr (List.mem_cons_of_mem _ hk)
        exact hnd.1 (l.eq_of_id hk' hj e ▸ hk)
      · intro ⟨hk, hne⟩
        exact hk.resolve_left fun e => hne (e ▸ rfl)
    · rw [Function.update_of_ne h]
      refine ⟨fun hk => ⟨hk, fun e => h ?_⟩, fun hk => hk.1⟩
      have hkj := l.eq_of_id hk hj e
      rw [← ((l.mem q' k).mp hk).2.2, hkj, ((l.mem q j).mp hj).2.2]

theorem Ledger.claim (l : Ledger s H) {q : String} {now : Time} {n : Int} {w : String} {lu : Time}
    {L : List Job} (v : Inv s') (B : Batch s.jobs q now n w lu L s'.jobs) :
    Ledger s' (Function.update H q (L.map (Store.markClaimed now w lu) ++ H q)) := by
  have hfree : ∀ q' k, k ∈ H q' → ∀ j ∈ L, j.id ≠ k.id := by
    intro q' k hk j hj e
    obtain ⟨h1, h2, _⟩ := (l.mem q' k).mp hk
    have h3 := (B.mem j hj).1
    rw [e, h1] at h3
    have h4 := (B.mem j hj).2.1
    rw [← Option.some.inj h3, h2] at h4
    exact absurd h4 (by decide)
  have hout : ∀ q' k, k ∈ H q' → s'.jobs k.id = some k := fun q' k hk => by
    rw [B.eq_out k.id (fun j hj => hfree q' k hk j hj)]
    exact ((l.mem q' k).mp hk).1
  have hin : ∀ j ∈ L, s'.Claimed q (Store.markClaimed now w lu j) := fun j hj =>
    ⟨B.eq_in j hj, rfl, (B.mem j hj).2.2.1⟩
  -- a record that is claimed after the call was claimed before it, or is in the batch
  have hback : ∀ q' k, s'.Claimed q' k →
      k ∈ H q' ∨ q' = q ∧ k ∈ L.map (Store.markClaimed now w lu) := by
    intro q' k ⟨h1, h2, h3⟩
    by_cases hk : ∃ j ∈ L, j.id = k.id
    · obtain ⟨j, hj, e⟩ := hk
      have h4 := B.eq_in j hj
      rw [e, h1] at h4
      have h5 := Option.some.inj h4
      refine Or.inr ⟨?_, List.mem_map.mpr ⟨j, hj, h5.symm⟩⟩
      rw [← h3, h5]
      exact (B.mem j hj).2.2.1
    · rw [B.eq_out k.id (fun j hj e => hk ⟨j, hj, e⟩)] at h1
      exact Or.inl ((l.mem q' k).mpr ⟨h1, h2, h3⟩)
  refine ⟨v, fun q' => ?_, fun q' k => ?_⟩
  · by_cases h : q' = q
    · rw [h, Function.update_self]
      refine List.nodup_append.mpr ⟨?_, l.nodup q, ?_⟩
      · refine List.Nodup.of_map Job.id ?_
        rw [List.map_map]
        exact B.nodup
      · intro a ha b hb e
        obtain ⟨j, hj, rfl⟩ := List.mem_map.mp ha
        exact hfree q b hb j hj (e ▸ rfl)
    · rw [Function.update_of_ne h]
      exact l.nodup q'
  · by_cases h : q' = q
    · subst h
      rw [Function.update_self, List.mem_append]
      constructor
      · intro hk
        rcases hk with hk | hk
        · obtain ⟨j, hj, rfl⟩ := List.mem_map.mp hk
          exact hin j hj
        · exact ⟨hout q' k hk, ((l.mem q' k).mp hk).2⟩
      · intro hk
        exact (hback q' k hk).symm.imp And.right id
    · rw [Function.update_of_ne h]
      refine ⟨fun hk => ⟨hout q' k hk, ((l.mem q' k).mp hk).2⟩, fun hk => ?_⟩
      exact (hback q' k hk).resolve_right fun h' => h h'.1

end
end GS
