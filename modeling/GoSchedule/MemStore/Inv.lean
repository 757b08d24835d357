import GoSchedule.MemStore.Heap

/-!
# The representation invariant of the in-memory store

* `Inv s`      every entry of a heap is the entry of its job ID, is pending and lies in the heap of
               its own queue; every pending entry of `byID` lies in its heap; every other entry of
               `byID` has index `-1`; every heap is `Ok`;
* `Near s x`   the same but for the entry `x`, which lies in no heap.  The operations pass through
               such states: `Save` after it took the old entry out, `Fail` before the push.

Each operation is a path `Inv → Near → Inv` built from `Inv.near_of_removed`, `Near.setJob`,
`Near.setID_none`, `Near.setID_some`, `Near.push` and `Near.inv`.
-/

namespace GS.Mem
open GoHeap QHeap

structure Inv (s : Store) : Prop where
  id_eq : ∀ {id r}, s.byID id = some r → (s.mem r).job.id = id
  lt_next : ∀ {id r}, s.byID id = some r → r < s.next
  ok : ∀ q, (s.heap q).Ok
  item : ∀ {q r}, r ∈ (s.heap q).items → s.byID (s.mem r).job.id = some r ∧
    (s.mem r).job.state = statePending ∧ (s.mem r).job.queue = q
  pend : ∀ {id r}, s.byID id = some r → (s.mem r).job.state = statePending →
    r ∈ (s.heap (s.mem r).job.queue).items
  rest : ∀ {id r}, s.byID id = some r → (s.mem r).job.state ≠ statePending →
    (s.mem r).index = -1

/-- the invariant but for the entry `x`, which lies in no heap -/
structure Near (s : Store) (x : Ref) : Prop where
  id_eq : ∀ {id r}, s.byID id = some r → (s.mem r).job.id = id
  lt_next : ∀ {id r}, s.byID id = some r → r < s.next
  ok : ∀ q, (s.heap q).Ok
  out : ∀ q, x ∉ (s.heap q).items
  item : ∀ {q r}, r ∈ (s.heap q).items → s.byID (s.mem r).job.id = some r ∧
    (s.mem r).job.state = statePending ∧ (s.mem r).job.queue = q
  pend : ∀ {id r}, s.byID id = some r → r ≠ x → (s.mem r).job.state = statePending →
    r ∈ (s.heap (s.mem r).job.queue).items
  rest : ∀ {id r}, s.byID id = some r → r ≠ x → (s.mem r).job.state ≠ statePending →
    (s.mem r).index = -1

/-! ## reading a store after one heap was replaced -/

theorem heap_setHeap_self (s : Store) (q : String) (h : QHeap) : (s.setHeap q h).heap q = h := by
  unfold Store.heap Store.setHeap
  simp

theorem items_setHeap_ne (s : Store) {q q' : String} (h : QHeap) (hq : q' ≠ q) :
    ((s.setHeap q h).heap q').items = (s.heap q').items := by
  unfold Store.heap Store.setHeap
  simp [hq]

theorem setHeap_setHeap (s : Store) (q : String) (h h' : QHeap) :
    (s.setHeap q h).setHeap q h' = s.setHeap q h' := by
  unfold Store.setHeap
  simp

theorem Ok.congr {h h' : QHeap} (ok : h.Ok) (hitems : h'.items = h.items)
    (hmem : ∀ r ∈ h.items, h'.mem r = h.mem r) : h'.Ok := by
  have hget : ∀ a, h'.get a = h.get a := fun a => by unfold QHeap.get; rw [hitems]
  have hm : ∀ a, a < h.items.length → h'.mem (h'.get a) = h.mem (h.get a) := fun a ha => by
    rw [hget, hmem _ (get_mem h ha)]
  constructor
  · intro a ha
    rw [hitems] at ha
    rw [hm a ha]
    exact ok.idx a ha
  · intro k hk hkn
    rw [hitems] at hkn
    show jobLess _ _ = false
    rw [hm k hkn, hm _ (by omega)]
    exact ok.ord k hk hkn

theorem Near.inv {s : Store} {x : Ref} (n : Near s x)
    (hx : ∀ id, s.byID id = some x → (s.mem x).job.state ≠ statePending ∧ (s.mem x).index = -1) :
    Inv s where
  id_eq := n.id_eq
  lt_next := n.lt_next
  ok := n.ok
  item := n.item
  pend := by
    intro id r h hp
    by_cases hr : r = x
    · subst hr; exact absurd hp (hx id h).1
    · exact n.pend h hr hp
  rest := by
    intro id r h hp
    by_cases hr : r = x
    · subst hr; exact (hx id h).2
    · exact n.rest h hr hp

theorem Inv.near {s : Store} (v : Inv s) {x : Ref} (hx : ∀ q, x ∉ (s.heap q).items) :
    Near s x where
  id_eq := v.id_eq
  lt_next := v.lt_next
  ok := v.ok
  out := hx
  item := v.item
  pend := fun h _ hp => v.pend h hp
  rest := fun h _ hp => v.rest h hp

/-- an entry of `byID` that is not pending lies in no heap -/
theorem Inv.out {s : Store} (v : Inv s) {x : Ref} (hx : (s.mem x).job.state ≠ statePending)
    (q : String) : x ∉ (s.heap q).items :=
  fun h => hx (v.item h).2.1

/-- no heap holds the ID of the entry that is in no heap -/
theorem Near.id_ne {s : Store} {x r : Ref} (n : Near s x) {q : String}
    (hr : r ∈ (s.heap q).items) {id : JobID} (hid : ∀ y, s.byID id = some y → y = x) :
    (s.mem r).job.id ≠ id := by
  rintro rfl
  exact n.out q (hid r (n.item hr).1 ▸ hr)

/-! ## taking an entry out of its heap -/

theorem Inv.near_of_removed {s : Store} (v : Inv s) {q : String} {x : Ref} {h' : QHeap}
    (hx : x ∈ (s.heap q).items) (rm : Removed (s.heap q) x h') : Near (s.setHeap q h') x := by
  have hq : ∀ {q' r}, r ∈ (s.heap q').items → q' ≠ q → r ∉ (s.heap q).items := by
    intro q' r hr hne hr'
    exact hne ((v.item hr).2.2.symm.trans (v.item hr').2.2)
  have hjob : ∀ r, ((s.setHeap q h').mem r).job = (s.mem r).job := rm.job
  have hoff : ∀ r, r ∉ (s.heap q).items → (s.setHeap q h').mem r = s.mem r := rm.off
  have hsub : ∀ {q' r}, r ∈ ((s.setHeap q h').heap q').items → r ∈ (s.heap q').items ∧ r ≠ x := by
    intro q' r hr
    by_cases hq' : q' = q
    · subst hq'
      rw [heap_setHeap_self] at hr
      exact (rm.mem_iff (v.ok _).idx r).mp hr
    · rw [items_setHeap_ne s h' hq'] at hr
      refine ⟨hr, ?_⟩
      rintro rfl
      exact hq hr hq' hx
  refine ⟨?_, v.lt_next, ?_, ?_, ?_, ?_, ?_⟩
  · intro id r hr
    rw [hjob]
    exact v.id_eq hr
  · intro q'
    by_cases hq' : q' = q
    · subst hq'
      rw [heap_setHeap_self]
      exact rm.ok
    · exact Ok.congr (v.ok q') (items_setHeap_ne s h' hq') (fun r hr => hoff r (hq hr hq'))
  · intro q' hr
    exact (hsub hr).2 rfl
  · intro q' r hr
    rw [hjob]
    exact v.item (hsub hr).1
  · intro id r hr hne hp
    rw [hjob] at hp ⊢
    have h1 := v.pend hr hp
    by_cases hq' : (s.mem r).job.queue = q
    · rw [hq', heap_setHeap_self]
      rw [hq'] at h1
      exact (rm.mem_iff (v.ok _).idx r).mpr ⟨h1, hne⟩
    · rw [items_setHeap_ne s h' hq']
      exact h1
  · intro id r hr hne hp
    rw [hjob] at hp
    have h1 : r ∉ (s.heap q).items := v.out hp q
    rw [hoff r h1]
    exact v.rest hr hp

/-- the position an entry of `byID` records is its position in the heap of its queue -/
theorem Inv.position {s : Store} (v : Inv s) {q : String} {x : Ref} (hx : x ∈ (s.heap q).items) :
    0 ≤ (s.mem x).index ∧ (s.mem x).index.toNat < (s.heap q).items.length ∧
      (s.heap q).get (s.mem x).index.toNat = x := by
  obtain ⟨i, hi, e⟩ := exists_get (s.heap q) hx
  have h1 : (s.mem ((s.heap q).get i)).index = i := (v.ok q).idx i hi
  rw [e] at h1
  rw [h1, Int.toNat_natCast]
  exact ⟨Int.natCast_nonneg i, hi, e⟩

/-- `Save` and `Cancel` take the entry of an ID out of its heap, if it is in one -/
theorem Inv.unlink {s : Store} (v : Inv s) {id : JobID} {x : Ref} (hid : s.byID id = some x) :
    Near (s.unlink id) x ∧ (s.unlink id).byID = s.byID ∧ (s.unlink id).next = s.next ∧
      (∀ r, ((s.unlink id).mem r).job = (s.mem r).job) ∧
      (∀ r, (∀ q, r ∉ (s.heap q).items) → (s.unlink id).mem r = s.mem r) ∧
      (s.unlink id).recurring = s.recurring := by
  unfold Store.unlink
  rw [hid]
  by_cases hp : (s.mem x).job.state = statePending
  · have hx := v.pend hid hp
    obtain ⟨h0, hlt, hget⟩ := v.position hx
    have rm := (hremove_spec (v.ok (s.mem x).job.queue) hlt).1
    rw [hget] at rm
    dsimp only
    rw [if_pos h0]
    exact ⟨v.near_of_removed hx rm, rfl, rfl, rm.job, fun r hr => rm.off r (hr _), rfl⟩
  · have h1 := v.rest hid hp
    dsimp only
    rw [if_neg (by rw [h1]; decide)]
    exact ⟨v.near (v.out hp), rfl, rfl, fun _ => rfl, fun _ _ => rfl, rfl⟩

/-! ## writes to one entry and to `byID` -/

theorem mem_setJob_self (s : Store) (r : Ref) (f : Job → Job) :
    (s.setJob r f).mem r = ⟨f (s.mem r).job, (s.mem r).index⟩ := by
  simp [Store.setJob]

theorem mem_setJob_ne (s : Store) {r x : Ref} (f : Job → Job) (h : x ≠ r) :
    (s.setJob r f).mem x = s.mem x := by
  simp [Store.setJob, h]

theorem Near.setJob {s : Store} {x : Ref} (n : Near s x) {f : Job → Job}
    (hf : ∀ j, (f j).id = j.id) : Near (s.setJob x f) x := by
  have hne : ∀ {q r}, r ∈ (s.heap q).items → (s.setJob x f).mem r = s.mem r := by
    intro q r hr
    refine mem_setJob_ne s f ?_
    rintro rfl
    exact n.out q hr
  refine ⟨?_, n.lt_next, ?_, n.out, ?_, ?_, ?_⟩
  · intro id r hr
    by_cases h : r = x
    · subst h
      rw [mem_setJob_self]
      exact (hf _).trans (n.id_eq hr)
    · rw [mem_setJob_ne s f h]
      exact n.id_eq hr
  · exact fun q => Ok.congr (n.ok q) rfl (fun r hr => hne hr)
  · intro q r hr
    rw [hne hr]
    exact n.item hr
  · intro id r hr h hp
    rw [mem_setJob_ne s f h] at hp ⊢
    exact n.pend hr h hp
  · intro id r hr h hp
    rw [mem_setJob_ne s f h] at hp ⊢
    exact n.rest hr h hp

theorem byID_setID_self (s : Store) (id : JobID) (r : Option Ref) : (s.setID id r).byID id = r := by
  simp [Store.setID]

theorem byID_setID_ne (s : Store) {id id' : JobID} (r : Option Ref) (h : id' ≠ id) :
    (s.setID id r).byID id' = s.byID id' := by
  simp [Store.setID, h]

/-- deleting the ID of the entry that is in no heap -/
theorem Near.setID_none {s : Store} {x : Ref} (n : Near s x) {id : JobID}
    (hid : s.byID id = some x) : Inv (s.setID id none) := by
  have hback : ∀ {id' r}, (s.setID id none).byID id' = some r → s.byID id' = some r ∧ r ≠ x := by
    intro id' r hr
    by_cases h : id' = id
    · subst h
      rw [byID_setID_self] at hr
      cases hr
    · rw [byID_setID_ne s none h] at hr
      refine ⟨hr, ?_⟩
      rintro rfl
      exact h ((n.id_eq hr).symm.trans (n.id_eq hid))
  refine ⟨fun h => n.id_eq (hback h).1, fun h => n.lt_next (hback h).1, n.ok, ?_, ?_, ?_⟩
  · intro q r hr
    refine ⟨?_, (n.item hr).2⟩
    show (s.setID id none).byID (s.mem r).job.id = some r
    rw [byID_setID_ne s none (n.id_ne hr (fun y hy => Option.some.inj (hy.symm.trans hid)))]
    exact (n.item hr).1
  · exact fun h hp => n.pend (hback h).1 (hback h).2 hp
  · exact fun h hp => n.rest (hback h).1 (hback h).2 hp

/-- pointing an ID at an entry `e` that no ID has; `x` is the entry the ID had, if any -/
theorem Near.setID_some {s : Store} {x e : Ref} (n : Near s x) {id : JobID}
    (hid : ∀ y, s.byID id = some y → y = x) (hx : ∀ id', s.byID id' = some x → id' = id)
    (he : (s.mem e).job.id = id) (hout : ∀ q, e ∉ (s.heap q).items) (hlt : e < s.next) :
    Near (s.setID id (some e)) e := by
  have hback : ∀ {id' r}, (s.setID id (some e)).byID id' = some r → r ≠ e →
      s.byID id' = some r ∧ r ≠ x := by
    intro id' r hr hne
    by_cases h : id' = id
    · subst h
      rw [byID_setID_self] at hr
      exact absurd (Option.some.inj hr).symm hne
    · rw [byID_setID_ne s _ h] at hr
      refine ⟨hr, ?_⟩
      rintro rfl
      exact h (hx id' hr)
  refine ⟨?_, ?_, n.ok, hout, ?_, ?_, ?_⟩
  · intro id' r hr
    by_cases h : id' = id
    · subst h
      rw [byID_setID_self] at hr
      cases hr
      exact he
    · rw [byID_setID_ne s _ h] at hr
      exact n.id_eq hr
  · intro id' r hr
    by_cases h : r = e
    · subst h; exact hlt
    · exact n.lt_next (hback hr h).1
  · intro q r hr
    refine ⟨?_, (n.item hr).2⟩
    show (s.setID id (some e)).byID (s.mem r).job.id = some r
    rw [byID_setID_ne s _ (n.id_ne hr hid)]
    exact (n.item hr).1
  · exact fun hr h hp => n.pend (hback hr h).1 (hback hr h).2 hp
  · exact fun hr h hp => n.rest (hback hr h).1 (hback hr h).2 hp

/-! ## putting an entry into its heap -/

theorem Near.push {s : Store} {x : Ref} (n : Near s x)
    (hid : s.byID (s.mem x).job.id = some x) (hp : (s.mem x).job.state = statePending) :
    Inv (s.heapPush (s.mem x).job.queue x) := by
  generalize hq : (s.mem x).job.queue = q
  have pu := hpush_spec (n.ok q) (n.out q)
  unfold Store.heapPush
  generalize hpush heapI (s.heap q) x = h' at pu ⊢
  have hjob : ∀ r, ((s.setHeap q h').mem r).job = (s.mem r).job := pu.job
  have hoff : ∀ r, r ≠ x → r ∉ (s.heap q).items → (s.setHeap q h').mem r = s.mem r := pu.off
  have hdis : ∀ {q' r}, r ∈ (s.heap q').items → q' ≠ q → r ≠ x ∧ r ∉ (s.heap q).items := by
    intro q' r hr hne
    refine ⟨?_, fun hr' => hne ((n.item hr).2.2.symm.trans (n.item hr').2.2)⟩
    rintro rfl
    exact n.out q' hr
  have hsub : ∀ {q' r}, r ∈ ((s.setHeap q h').heap q').items → r ∈ (s.heap q').items ∨
      (r = x ∧ q' = q) := by
    intro q' r hr
    by_cases hq' : q' = q
    · subst hq'
      rw [heap_setHeap_self, pu.perm.mem_iff, List.mem_cons] at hr
      exact hr.elim (fun h => Or.inr ⟨h, rfl⟩) Or.inl
    · rw [items_setHeap_ne s h' hq'] at hr
      exact Or.inl hr
  refine ⟨?_, n.lt_next, ?_, ?_, ?_, ?_⟩
  · intro id r hr
    rw [hjob]
    exact n.id_eq hr
  · intro q'
    by_cases hq' : q' = q
    · subst hq'
      rw [heap_setHeap_self]
      exact pu.ok
    · exact Ok.congr (n.ok q') (items_setHeap_ne s h' hq')
        (fun r hr => hoff r (hdis hr hq').1 (hdis hr hq').2)
  · intro q' r hr
    rw [hjob]
    rcases hsub hr with h | ⟨rfl, rfl⟩
    · exact n.item h
    · exact ⟨hid, hp, hq⟩
  · intro id r hr hp'
    rw [hjob] at hp' ⊢
    by_cases hrx : r = x
    · subst hrx
      rw [hq, heap_setHeap_self, pu.perm.mem_iff]
      exact List.mem_cons_self
    · have h1 := n.pend hr hrx hp'
      by_cases hq' : (s.mem r).job.queue = q
      · rw [hq', heap_setHeap_self, pu.perm.mem_iff]
        rw [hq'] at h1
        exact List.mem_cons_of_mem _ h1
      · rw [items_setHeap_ne s h' hq']
        exact h1
  · intro id r hr hp'
    rw [hjob] at hp'
    have hrx : r ≠ x := by
      rintro rfl
      exact hp' hp
    rw [hoff r hrx (fun h => hp' (n.item h).2.1)]
    exact n.rest hr hrx hp'

/-! ## the operations -/

theorem new_inv : Inv Store.new where
  id_eq := fun h => by cases h
  lt_next := fun h => by cases h
  ok := fun q => ⟨fun i hi => absurd hi (Nat.not_lt_zero i),
    fun k _ hk => absurd hk (Nat.not_lt_zero k)⟩
  item := fun h => by cases h
  pend := fun h => by cases h
  rest := fun h => by cases h

theorem Inv.alloc {s : Store} (v : Inv s) (j : Job) :
    Inv (s.alloc j) ∧ (∀ r, r ≠ s.next → (s.alloc j).mem r = s.mem r) ∧
      (s.alloc j).mem s.next = ⟨j, -1⟩ := by
  have hne : ∀ r, r ≠ s.next → (s.alloc j).mem r = s.mem r := fun r h => by simp [Store.alloc, h]
  have hid : ∀ {id r}, s.byID id = some r → (s.alloc j).mem r = s.mem r := fun h =>
    hne _ (ne_of_lt (v.lt_next h))
  have hit : ∀ {q r}, r ∈ (s.heap q).items → (s.alloc j).mem r = s.mem r := fun h =>
    hid (v.item h).1
  refine ⟨⟨?_, ?_, ?_, ?_, ?_, ?_⟩, hne, by simp [Store.alloc]⟩
  · intro id r hr
    rw [hid hr]
    exact v.id_eq hr
  · exact fun hr => Nat.lt_succ_of_lt (v.lt_next hr)
  · exact fun q => Ok.congr (v.ok q) rfl (fun r hr => hit hr)
  · intro q r hr
    rw [hit hr]
    exact v.item hr
  · intro id r hr hp
    rw [hid hr] at hp ⊢
    exact v.pend hr hp
  · intro id r hr hp
    rw [hid hr] at hp ⊢
    exact v.rest hr hp

end GS.Mem
