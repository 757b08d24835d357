import GoSchedule.MemStore.Basic

/-!
# The heap calls on one queue

What `heap.Push`, `heap.Pop`, `heap.Remove` and `heap.Fix` do to a `QHeap`: the slice is a
permutation of what it should be, every entry of the slice knows its position, the jobs in memory
are untouched and so is every entry outside the slice.

* `QHeap.Ok`       every entry of the slice knows its position, and the slice is in heap order;
* `Moved h₀ h`     `h` came from `h₀` by exchanges (`swap` keeps it, hence both sifts do);
* `hpush_spec`, `hpop_spec`, `hremove_spec`, `hfix_spec`   the four calls.
-/

set_option linter.unusedSectionVars false

namespace GS.Mem
open GoHeap

namespace QHeap

theorem setIndex_job (m : Ref → Entry) (r : Ref) (i : Int) (x : Ref) :
    (setIndex m r i x).job = (m x).job := by
  unfold setIndex
  by_cases h : x = r
  · subst h; simp
  · simp [h]

theorem setIndex_self (m : Ref → Entry) (r : Ref) (i : Int) : (setIndex m r i r).index = i := by
  simp [setIndex]

theorem setIndex_ne (m : Ref → Entry) {r x : Ref} (i : Int) (h : x ≠ r) :
    setIndex m r i x = m x := by
  simp [setIndex, h]

theorem get_eq (h : QHeap) {i : Nat} (hi : i < h.items.length) : h.get i = h.items[i] :=
  List.getD_eq_getElem _ _ hi

theorem get_mem (h : QHeap) {i : Nat} (hi : i < h.items.length) : h.get i ∈ h.items := by
  rw [get_eq h hi]; exact List.getElem_mem hi

theorem exists_get (h : QHeap) {r : Ref} (hr : r ∈ h.items) :
    ∃ i, i < h.items.length ∧ h.get i = r := by
  obtain ⟨i, hi, e⟩ := List.mem_iff_getElem.mp hr
  exact ⟨i, hi, by rw [get_eq h hi, e]⟩

theorem swap_length (h : QHeap) (i j : Nat) : (h.swap i j).items.length = h.items.length := by
  simp [swap]

theorem swap_get (h : QHeap) (i j : Nat) {a : Nat} (ha : a < h.items.length) :
    (h.swap i j).get a = h.get (Equiv.swap i j a) := by
  show ((h.items.set i (h.get j)).set j (h.get i)).getD a 0 = _
  rw [List.getD_eq_getElem _ _ (by simpa using ha), List.getElem_set]
  by_cases haj : j = a
  · subst haj; simp
  · rw [if_neg haj, List.getElem_set]
    by_cases hai : i = a
    · subst hai; simp
    · rw [if_neg hai, Equiv.swap_apply_of_ne_of_ne (Ne.symm hai) (Ne.symm haj), get_eq h ha]

theorem swap_perm (h : QHeap) {i j : Nat} (hi : i < h.items.length) (hj : j < h.items.length) :
    (h.swap i j).items.Perm h.items := by
  show ((h.items.set i (h.get j)).set j (h.get i)).Perm h.items
  rw [get_eq h hi, get_eq h hj]
  exact List.set_set_perm hi hj

theorem swap_job (h : QHeap) (i j : Nat) (r : Ref) :
    ((h.swap i j).mem r).job = (h.mem r).job := by
  show (setIndex (setIndex h.mem (h.get j) i) (h.get i) j r).job = _
  rw [setIndex_job, setIndex_job]

theorem push_get (h : QHeap) (r : Ref) {a : Nat} (ha : a < h.items.length) :
    (h.push r).get a = h.get a := by
  have ha' : a < (h.push r).items.length := by
    show a < (h.items ++ [r]).length
    rw [List.length_append]; omega
  rw [get_eq _ ha', get_eq _ ha]
  exact List.getElem_append_left ha

theorem pop_get (h : QHeap) {a : Nat} (ha : a < h.items.length - 1) :
    h.pop.1.get a = h.get a := by
  have ha' : a < h.items.dropLast.length := by rw [List.length_dropLast]; exact ha
  rw [get_eq h (by omega)]
  show h.items.dropLast.getD a 0 = _
  rw [List.getD_eq_getElem _ _ ha', List.getElem_dropLast]

end QHeap

open QHeap

/-- the methods of `queueHeap` are what the heap package asks for -/
theorem heapI_lawful : Lawful heapI where
  asymm := fun _ _ _ h => jobLess_asymm h
  trans := fun _ _ _ _ h1 h2 => jobLess_trans h1 h2
  len_swap := fun h i j => swap_length h i j
  less_swap := by
    intro h i j a b hi hj ha hb
    show jobLess ((h.swap i j).mem ((h.swap i j).get a)).job
      ((h.swap i j).mem ((h.swap i j).get b)).job = jobLess _ _
    rw [swap_job, swap_job, swap_get h i j ha, swap_get h i j hb]
  len_push := by
    intro h r
    show (h.items ++ [r]).length = h.items.length + 1
    simp
  less_push := by
    intro h r a b ha hb
    show jobLess ((h.push r).mem ((h.push r).get a)).job
      ((h.push r).mem ((h.push r).get b)).job = jobLess _ _
    rw [push_get h r ha, push_get h r hb]
    show jobLess (setIndex h.mem r _ _).job (setIndex h.mem r _ _).job = _
    rw [setIndex_job, setIndex_job]
  len_pop := fun h => List.length_dropLast
  less_pop := by
    intro h a b ha hb
    show jobLess (h.pop.1.mem (h.pop.1.get a)).job (h.pop.1.mem (h.pop.1.get b)).job = jobLess _ _
    rw [pop_get h ha, pop_get h hb]
    show jobLess (setIndex h.mem _ _ _).job (setIndex h.mem _ _ _).job = _
    rw [setIndex_job, setIndex_job]

/-- every entry of the slice knows its position -/
def Indexed (h : QHeap) : Prop := ∀ i, i < h.items.length → (h.mem (h.get i)).index = i

/-- the heap invariant of one queue -/
structure QHeap.Ok (h : QHeap) : Prop where
  idx : Indexed h
  ord : Ord heapI h h.items.length

theorem Indexed.inj {h : QHeap} (hx : Indexed h) {i j : Nat} (hi : i < h.items.length)
    (hj : j < h.items.length) (e : h.get i = h.get j) : i = j := by
  have h1 := hx i hi
  rw [e, hx j hj] at h1
  exact_mod_cast h1.symm

theorem Indexed.nodup {h : QHeap} (hx : Indexed h) : h.items.Nodup := by
  rw [List.nodup_iff_injective_getElem]
  intro i j e
  exact Fin.ext (hx.inj i.isLt j.isLt (by rw [get_eq h i.isLt, get_eq h j.isLt]; exact e))

/-- `h` came from `h₀` by exchanges -/
structure Moved (h₀ h : QHeap) : Prop where
  perm : h.items.Perm h₀.items
  job : ∀ r, (h.mem r).job = (h₀.mem r).job
  off : ∀ r, r ∉ h₀.items → h.mem r = h₀.mem r
  idx : Indexed h

theorem Moved.refl {h : QHeap} (hx : Indexed h) : Moved h h :=
  ⟨List.Perm.refl _, fun _ => rfl, fun _ _ => rfl, hx⟩

theorem Moved.length {h₀ h : QHeap} (m : Moved h₀ h) : h.items.length = h₀.items.length :=
  m.perm.length_eq

theorem Moved.swap {h₀ h : QHeap} (m : Moved h₀ h) {i j : Nat} (hi : i < h.items.length)
    (hj : j < h.items.length) : Moved h₀ (h.swap i j) where
  perm := (swap_perm h hi hj).trans m.perm
  job := fun r => by rw [swap_job]; exact m.job r
  off := by
    intro r hr
    have hne : ∀ k, k < h.items.length → r ≠ h.get k := by
      rintro k hk rfl
      exact hr (m.perm.mem_iff.mp (get_mem h hk))
    show setIndex (setIndex h.mem (h.get j) i) (h.get i) j r = _
    rw [setIndex_ne _ _ (hne i hi), setIndex_ne _ _ (hne j hj)]
    exact m.off r hr
  idx := by
    intro a ha
    rw [swap_length] at ha
    rw [swap_get h i j ha]
    show (setIndex (setIndex h.mem (h.get j) i) (h.get i) j _).index = _
    by_cases haj : a = j
    · subst haj
      rw [Equiv.swap_apply_right, setIndex_self]
    · by_cases hai : a = i
      · subst hai
        have hne : h.get j ≠ h.get a := fun e => haj (m.idx.inj hj hi e).symm
        rw [Equiv.swap_apply_left, setIndex_ne _ _ hne, setIndex_self]
      · have h1 : h.get a ≠ h.get i := fun e => hai (m.idx.inj ha hi e)
        have h2 : h.get a ≠ h.get j := fun e => haj (m.idx.inj ha hj e)
        rw [Equiv.swap_apply_of_ne_of_ne hai haj, setIndex_ne _ _ h1, setIndex_ne _ _ h2]
        exact m.idx a ha

/-! ## Push -/

/-- the outcome of `heap.Push` of the entry `e` -/
structure Pushed (h : QHeap) (e : Ref) (h' : QHeap) : Prop where
  ok : h'.Ok
  perm : h'.items.Perm (e :: h.items)
  job : ∀ r, (h'.mem r).job = (h.mem r).job
  off : ∀ r, r ≠ e → r ∉ h.items → h'.mem r = h.mem r

theorem Indexed.push {h : QHeap} (hx : Indexed h) {e : Ref} (he : e ∉ h.items) :
    Indexed (h.push e) := by
  intro i hi
  have hi' : i < h.items.length + 1 := by
    have h1 : i < (h.items ++ [e]).length := hi
    rwa [List.length_append] at h1
  show (setIndex h.mem e h.items.length _).index = i
  by_cases hlt : i < h.items.length
  · have hne : h.get i ≠ e := fun e' => he (e' ▸ get_mem h hlt)
    rw [push_get h e hlt, setIndex_ne _ _ hne]
    exact hx i hlt
  · have ei : i = h.items.length := by omega
    subst ei
    have eg : (h.push e).get h.items.length = e := by
      rw [get_eq _ hi]
      exact List.getElem_concat_length rfl _
    rw [eg, setIndex_self]

theorem hpush_spec {h : QHeap} (ok : h.Ok) {e : Ref} (he : e ∉ h.items) :
    Pushed h e (hpush heapI h e) := by
  have hx := ok.idx.push he
  have hlen : (h.push e).items.length = h.items.length + 1 := heapI_lawful.len_push h e
  have m : Moved (h.push e) (hpush heapI h e) := by
    refine (upLoop_keep (I := heapI) (n := h.items.length + 1)
      (P := fun t => Moved (h.push e) t) (fun t i j hi hj mt => ?_) _ ?_ (Moved.refl hx))
    · have hl : t.items.length = h.items.length + 1 := by rw [mt.length, hlen]
      exact mt.swap (by omega) (by omega)
    · show (h.push e).items.length - 1 < _
      omega
  have hperm : (h.push e).items.Perm (e :: h.items) := List.perm_append_singleton e h.items
  refine ⟨⟨m.idx, ?_⟩, m.perm.trans hperm, fun r => ?_, fun r hr hr' => ?_⟩
  · have h1 := hpush_ord heapI_lawful e ok.ord
    rw [m.length, hlen]
    exact h1
  · rw [m.job]; exact setIndex_job _ _ _ _
  · rw [m.off r (fun hm => ?_)]
    · exact setIndex_ne _ _ hr
    · rcases List.mem_cons.mp (hperm.mem_iff.mp hm) with h1 | h1
      · exact hr h1
      · exact hr' h1

/-! ## Pop and Remove -/

/-- the outcome of `heap.Pop` or `heap.Remove` when it returns the entry `e` -/
structure Removed (h : QHeap) (e : Ref) (h' : QHeap) : Prop where
  ok : h'.Ok
  perm : (e :: h'.items).Perm h.items
  job : ∀ r, (h'.mem r).job = (h.mem r).job
  off : ∀ r, r ∉ h.items → h'.mem r = h.mem r
  gone : (h'.mem e).index = -1

theorem Removed.not_mem {h h' : QHeap} {e : Ref} (r : Removed h e h') (hx : Indexed h) :
    e ∉ h'.items :=
  (List.nodup_cons.mp (r.perm.symm.nodup hx.nodup)).1

theorem Removed.mem_iff {h h' : QHeap} {e : Ref} (r : Removed h e h') (hx : Indexed h) (x : Ref) :
    x ∈ h'.items ↔ x ∈ h.items ∧ x ≠ e := by
  rw [← r.perm.mem_iff, List.mem_cons]
  constructor
  · intro hx'
    exact ⟨Or.inr hx', fun e' => r.not_mem hx (e' ▸ hx')⟩
  · rintro ⟨h1 | h1, h2⟩
    · exact absurd h1 h2
    · exact h1

/-- dropping the last position after some exchanges -/
theorem Moved.pop {h₀ h : QHeap} (m : Moved h₀ h) {e : Ref} (hpos : 0 < h₀.items.length)
    (he : h.get (h₀.items.length - 1) = e)
    (ord : Ord heapI h.pop.1 (h₀.items.length - 1)) : Removed h₀ e h.pop.1 ∧ h.pop.2 = e := by
  have hlen := m.length
  have he2 : h.get (h.items.length - 1) = e := by rw [hlen]; exact he
  have hne : h.items ≠ [] := fun e0 => by rw [e0] at hlen; simp at hlen; omega
  have hlast : h.items.getLast hne = e := by
    rw [← he2, get_eq h (by omega), List.getLast_eq_getElem]
  have hcat : h.items.dropLast ++ [e] = h.items := by
    rw [← hlast]; exact List.dropLast_concat_getLast hne
  have hmem : h.pop.1.mem = setIndex h.mem e (-1) := by
    show setIndex h.mem (h.get (h.items.length - 1)) (-1) = _
    rw [he2]
  have hnd : e ∉ h.items.dropLast := by
    have h1 := m.idx.nodup
    rw [← hcat] at h1
    exact fun h2 => (List.disjoint_of_nodup_append h1) h2 (List.mem_singleton.mpr rfl)
  have hmem₀ : e ∈ h₀.items := by
    rw [← m.perm.mem_iff, ← he2]; exact get_mem h (by omega)
  refine ⟨⟨⟨?_, ?_⟩, ?_, ?_, ?_, ?_⟩, he2⟩
  · intro i hi
    have hi' : i < h.items.length - 1 := by
      have h1 : i < h.items.dropLast.length := hi
      rwa [List.length_dropLast] at h1
    have h2 : h.get i ≠ e := by
      rw [← pop_get h hi']
      exact fun e' => hnd (e' ▸ get_mem h.pop.1 hi)
    rw [hmem, pop_get h hi', setIndex_ne _ _ h2]
    exact m.idx i (by omega)
  · have h1 : h.pop.1.items.length = h₀.items.length - 1 := by
      show h.items.dropLast.length = _
      rw [List.length_dropLast, hlen]
    rw [h1]
    exact ord
  · refine List.Perm.trans ?_ m.perm
    conv_rhs => rw [← hcat]
    exact (List.perm_append_singleton e _).symm
  · intro r; rw [hmem, setIndex_job]; exact m.job r
  · intro r hr
    have h1 : r ≠ e := by rintro rfl; exact hr hmem₀
    rw [hmem, setIndex_ne _ _ h1]
    exact m.off r hr
  · rw [hmem]; exact setIndex_self _ _ _

/-- exchanges below `n` keep what stands at `n` -/
theorem swap_keep_last {h₀ t : QHeap} {n i j : Nat} {e : Ref} (hn : h₀.items.length = n + 1)
    (hi : i < n) (hj : j < n) (mt : Moved h₀ t ∧ t.get n = e) :
    Moved h₀ (t.swap i j) ∧ (t.swap i j).get n = e := by
  have hl : t.items.length = n + 1 := by rw [mt.1.length, hn]
  refine ⟨mt.1.swap (by omega) (by omega), ?_⟩
  rw [swap_get t i j (by omega),
    Equiv.swap_apply_of_ne_of_ne (by omega) (by omega)]
  exact mt.2

theorem hpop_spec {h : QHeap} (ok : h.Ok) (hpos : 0 < h.items.length) :
    Removed h (h.get 0) (hpop heapI h).1 ∧ (hpop heapI h).2 = h.get 0 := by
  obtain ⟨n, hn⟩ : ∃ n, h.items.length = n + 1 := ⟨h.items.length - 1, by omega⟩
  have hord : Ord heapI (hpop heapI h).1 n := by
    have h1 := hpop_ord heapI_lawful ok.ord
    have h2 : heapI.len h - 1 = n := by show h.items.length - 1 = n; omega
    rwa [h2] at h1
  have h1 : heapI.len h - 1 = n := by show h.items.length - 1 = n; omega
  have start : Moved h (h.swap 0 n) ∧ (h.swap 0 n).get n = h.get 0 := by
    refine ⟨(Moved.refl ok.idx).swap (by omega) (by omega), ?_⟩
    rw [swap_get h _ _ (by omega), Equiv.swap_apply_right]
  have m := downLoop_keep (I := heapI) (n := n) (P := fun t => Moved h t ∧ t.get n = h.get 0)
    (fun t i j hi hj mt => swap_keep_last hn hi hj mt) n (i := 0) start
  unfold hpop at hord ⊢
  rw [h1] at hord ⊢
  exact m.1.pop hpos (by rw [hn]; exact m.2) (by rw [hn]; exact hord)

theorem hremove_spec {h : QHeap} (ok : h.Ok) {i : Nat} (hi : i < h.items.length) :
    Removed h (h.get i) (hremove heapI h i).1 ∧ (hremove heapI h i).2 = h.get i := by
  obtain ⟨n, hn⟩ : ∃ n, h.items.length = n + 1 := ⟨h.items.length - 1, by omega⟩
  have h1 : heapI.len h - 1 = n := by show h.items.length - 1 = n; omega
  have hord : Ord heapI (hremove heapI h i).1 n := by
    have h2 := hremove_ord heapI_lawful (s := h) hi ok.ord
    rwa [h1] at h2
  unfold hremove at hord ⊢
  rw [h1] at hord ⊢
  by_cases hlast : n = i
  · rw [if_pos hlast] at hord ⊢
    subst hlast
    exact (Moved.refl ok.idx).pop (by omega) (by rw [hn]; rfl) (by rw [hn]; exact hord)
  · rw [if_neg hlast] at hord ⊢
    have start : Moved h (h.swap i n) ∧ (h.swap i n).get n = h.get i := by
      refine ⟨(Moved.refl ok.idx).swap (by omega) (by omega), ?_⟩
      rw [swap_get h _ _ (by omega), Equiv.swap_apply_right]
    have m := sift_keep (I := heapI) (n := n) (P := fun t => Moved h t ∧ t.get n = h.get i)
      (fun t a b ha hb mt => swap_keep_last hn ha hb mt) (i := i) (by omega) start
    exact m.1.pop (by omega) (by rw [hn]; exact m.2) (by rw [hn]; exact hord)

/-! ## Fix -/

/-- `heap.Fix` after the job of the entry at position `i` was rewritten: `h` is the heap before,
`h'` the heap after the write -/
theorem hfix_spec {h h' : QHeap} (ok : h.Ok) {i : Nat} (hi : i < h.items.length)
    (hitems : h'.items = h.items) (hidx : ∀ r, (h'.mem r).index = (h.mem r).index)
    (hjob : ∀ r, r ≠ h.get i → (h'.mem r).job = (h.mem r).job) :
    Moved h' (hfix heapI h' i) ∧ (hfix heapI h' i).Ok := by
  have hget : ∀ a, h'.get a = h.get a := fun a => by unfold QHeap.get; rw [hitems]
  have hx : Indexed h' := by
    intro a ha
    rw [hget, hidx]
    exact ok.idx a (by rw [← hitems]; exact ha)
  have hlen : heapI.len h' = heapI.len h := congrArg List.length hitems
  have m : Moved h' (hfix heapI h' i) := by
    refine sift_keep (I := heapI) (P := fun t => Moved h' t) (fun t a b ha hb mt => ?_) ?_
      (Moved.refl hx)
    · exact mt.swap (by rw [mt.length]; exact ha) (by rw [mt.length]; exact hb)
    · rw [hlen]; exact hi
  refine ⟨m, m.idx, ?_⟩
  rw [m.length, hitems]
  refine hfix_ord heapI_lawful (s := h) hi hlen ok.ord (fun a b ha hb hai hbi => ?_)
  show jobLess _ _ = jobLess _ _
  rw [hget, hget, hjob _ (fun e => hai (ok.idx.inj ha hi e)),
    hjob _ (fun e => hbi (ok.idx.inj hb hi e))]

end GS.Mem
