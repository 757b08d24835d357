import GoSchedule.MemStore.Inv

/-!
# The loop of `ClaimDue`

The loop pops the top of the heap while it is due.  `claim_step` is one round; `claimLoop_spec`
says what a whole loop does, in terms of the list `taken` of the popped entries:

* they come out in claim order, and no entry that stays is before one of them;
* they are due, and exactly their jobs are rewritten;
* the loop stops because `n` jobs are out, because the heap is empty, or because the top of what
  is left is not due.
-/

namespace GS.Mem
open GoHeap QHeap Store

section
variable {s : Store} {q : String}

theorem setJob_self (h : QHeap) (x : Ref) (f : Job → Job) :
    (h.setJob x f).mem x = ⟨f (h.mem x).job, (h.mem x).index⟩ := by
  simp [QHeap.setJob]

theorem setJob_ne (h : QHeap) {x r : Ref} (f : Job → Job) (hr : r ≠ x) :
    (h.setJob x f).mem r = h.mem r := by
  simp [QHeap.setJob, hr]

/-- one round of the loop -/
theorem claim_step (now : Time) (w : String) (lu : Time) {h : QHeap} (v : Inv (s.setHeap q h))
    (hpos : 0 < h.items.length) :
    Inv (s.setHeap q ((hpop heapI h).1.setJob (h.get 0) (markClaimed now w lu))) ∧
      (h.get 0 :: (hpop heapI h).1.items).Perm h.items ∧
      (∀ r, ((hpop heapI h).1.mem r).job = (h.mem r).job) := by
  have hh : (s.setHeap q h).heap q = h := heap_setHeap_self s q h
  have ok : h.Ok := by rw [← hh]; exact v.ok q
  have rm := (hpop_spec ok hpos).1
  have hx : h.get 0 ∈ h.items := get_mem h hpos
  refine ⟨?_, rm.perm, rm.job⟩
  have nr : Near ((s.setHeap q h).setHeap q (hpop heapI h).1) (h.get 0) :=
    v.near_of_removed (by rw [hh]; exact hx) (by rw [hh]; exact rm)
  rw [setHeap_setHeap] at nr
  have nj := nr.setJob (f := markClaimed now w lu) (fun _ => rfl)
  have e : (s.setHeap q (hpop heapI h).1).setJob (h.get 0) (markClaimed now w lu)
      = s.setHeap q ((hpop heapI h).1.setJob (h.get 0) (markClaimed now w lu)) := rfl
  rw [e] at nj
  have hself := setJob_self (hpop heapI h).1 (h.get 0) (markClaimed now w lu)
  refine nj.inv (fun id _ => ⟨?_, ?_⟩)
  · show (((hpop heapI h).1.setJob (h.get 0) (markClaimed now w lu)).mem (h.get 0)).job.state ≠ _
    rw [hself]
    show stateClaimed ≠ statePending
    decide
  · show (((hpop heapI h).1.setJob (h.get 0) (markClaimed now w lu)).mem (h.get 0)).index = -1
    rw [hself]
    exact rm.gone

/-- the top of a heap is not after any entry of it -/
theorem top_le {h : QHeap} (ok : h.Ok) {r : Ref} (hr : r ∈ h.items) :
    jobLess (h.mem r).job (h.mem (h.get 0)).job = false := by
  obtain ⟨i, hi, rfl⟩ := exists_get h hr
  exact root_le heapI_lawful ok.ord i hi

/-- what the loop did to the heap `h` when it popped the entries `taken` -/
structure Taken (now : Time) (n : Int) (w : String) (lu : Time) (out : Nat) (h h' : QHeap)
    (taken : List Ref) : Prop where
  perm : (taken ++ h'.items).Perm h.items
  job_in : ∀ r ∈ taken, (h'.mem r).job = markClaimed now w lu (h.mem r).job
  job_out : ∀ r, r ∉ taken → (h'.mem r).job = (h.mem r).job
  due : ∀ r ∈ taken, (h.mem r).job.runAt ≤ now
  sorted : taken.Pairwise fun a b => jobLess (h.mem b).job (h.mem a).job = false
  before : ∀ a ∈ taken, ∀ b ∈ h'.items, jobLess (h.mem b).job (h.mem a).job = false
  le : (out : Int) ≤ n → (out + taken.length : Int) ≤ n
  stop : n ≤ (out + taken.length : Int) ∨ h'.items = [] ∨
    ∃ b ∈ h'.items, now < (h.mem b).job.runAt ∧
      ∀ r ∈ h'.items, jobLess (h.mem r).job (h.mem b).job = false

theorem claimLoop_spec (now : Time) (n : Int) (w : String) (lu : Time) (f : Nat) {h : QHeap}
    (hf : h.items.length ≤ f) (v : Inv (s.setHeap q h)) (out : List Job) :
    ∃ taken : List Ref, Inv (s.setHeap q (claimLoop now n w lu f h out).1) ∧
      Taken now n w lu out.length h (claimLoop now n w lu f h out).1 taken ∧
      (claimLoop now n w lu f h out).2
        = out ++ taken.map fun r => markClaimed now w lu (h.mem r).job := by
  induction f generalizing h out with
  | zero =>
    have e : h.items = [] := List.length_eq_zero_iff.mp (by omega)
    refine ⟨[], v, ⟨?_, ?_, ?_, ?_, ?_, ?_, ?_, Or.inr (Or.inl e)⟩, by simp [claimLoop]⟩
    all_goals simp [claimLoop]
  | succ f ih =>
    have stopped : (n ≤ (out.length : Int) ∨ h.items = [] ∨
        ∃ b ∈ h.items, now < (h.mem b).job.runAt ∧
          ∀ r ∈ h.items, jobLess (h.mem r).job (h.mem b).job = false) →
        Taken now n w lu out.length h h [] := by
      intro hs
      refine ⟨?_, ?_, ?_, ?_, ?_, ?_, ?_, by simpa using hs⟩
      all_goals simp
    unfold claimLoop
    by_cases hc : (out.length : Int) < n ∧ 0 < h.items.length
    · rw [if_pos hc]
      dsimp only
      have ok : h.Ok := by
        rw [← heap_setHeap_self s q h]; exact v.ok q
      have hx : h.get 0 ∈ h.items := get_mem h hc.2
      by_cases hd : now < (h.mem (h.get 0)).job.runAt
      · rw [if_pos hd]
        exact ⟨[], v, stopped (Or.inr (Or.inr ⟨_, hx, hd, fun r hr => top_le ok hr⟩)), by simp⟩
      · rw [if_neg hd]
        obtain ⟨v1, hperm, hjob⟩ := claim_step now w lu v hc.2
        have hlen : ((hpop heapI h).1.setJob (h.get 0) (markClaimed now w lu)).items.length ≤ f := by
          have h1 := hperm.length_eq
          rw [List.length_cons] at h1
          show (hpop heapI h).1.items.length ≤ f
          omega
        have htop : (((hpop heapI h).1.setJob (h.get 0) (markClaimed now w lu)).mem (h.get 0)).job
            = markClaimed now w lu (h.mem (h.get 0)).job := by
          rw [setJob_self, hjob]
        rw [htop]
        obtain ⟨taken, v2, T, hout⟩ := ih hlen v1
          (out ++ [markClaimed now w lu (h.mem (h.get 0)).job])
        have hnd : (h.get 0 :: (hpop heapI h).1.items).Nodup := hperm.symm.nodup ok.idx.nodup
        have hin : ∀ r ∈ taken, r ≠ h.get 0 ∧ r ∈ h.items := by
          intro r hr
          have h1 : r ∈ (hpop heapI h).1.items := T.perm.mem_iff.mp (List.mem_append_left _ hr)
          refine ⟨?_, hperm.mem_iff.mp (List.mem_cons_of_mem _ h1)⟩
          rintro rfl
          exact (List.nodup_cons.mp hnd).1 h1
        have hleft : ∀ r, r ∈ (claimLoop now n w lu f
            ((hpop heapI h).1.setJob (h.get 0) (markClaimed now w lu))
            (out ++ [markClaimed now w lu (h.mem (h.get 0)).job])).1.items →
            r ≠ h.get 0 ∧ r ∈ h.items := by
          intro r hr
          have h1 : r ∈ (hpop heapI h).1.items := T.perm.mem_iff.mp (List.mem_append_right _ hr)
          refine ⟨?_, hperm.mem_iff.mp (List.mem_cons_of_mem _ h1)⟩
          rintro rfl
          exact (List.nodup_cons.mp hnd).1 h1
        have hjob' : ∀ r, r ≠ h.get 0 →
            (((hpop heapI h).1.setJob (h.get 0) (markClaimed now w lu)).mem r).job = (h.mem r).job := by
          intro r hr
          rw [setJob_ne _ _ hr, hjob]
        have hlen2 : (out ++ [markClaimed now w lu (h.mem (h.get 0)).job]).length
            = out.length + 1 := by simp
        refine ⟨h.get 0 :: taken, v2, ⟨?_, ?_, ?_, ?_, ?_, ?_, ?_, ?_⟩, ?_⟩
        · exact (List.Perm.cons _ T.perm).trans hperm
        · intro r hr
          rcases List.mem_cons.mp hr with rfl | hr'
          · rw [T.job_out _ (fun h1 => (hin _ h1).1 rfl), htop]
          · rw [T.job_in r hr', hjob' r (hin r hr').1]
        · intro r hr
          rw [List.mem_cons, not_or] at hr
          rw [T.job_out r hr.2, hjob' r hr.1]
        · intro r hr
          rcases List.mem_cons.mp hr with rfl | hr'
          · exact not_lt.mp hd
          · have h1 := T.due r hr'
            rwa [hjob' r (hin r hr').1] at h1
        · refine List.pairwise_cons.mpr ⟨fun r hr => top_le ok (hin r hr).2, ?_⟩
          refine T.sorted.imp_of_mem (fun {a b} ha hb hab => ?_)
          rwa [hjob' a (hin a ha).1, hjob' b (hin b hb).1] at hab
        · intro a ha b hb
          rcases List.mem_cons.mp ha with rfl | ha'
          · exact top_le ok (hleft b hb).2
          · have h1 := T.before a ha' b hb
            rwa [hjob' a (hin a ha').1, hjob' b (hleft b hb).1] at h1
        · intro _
          have h1 := T.le (by rw [hlen2]; push_cast; omega)
          rw [hlen2] at h1
          push_cast at h1 ⊢
          rw [List.length_cons]
          push_cast
          omega
        · rw [List.length_cons]
          rcases T.stop with h1 | h1 | ⟨b, hb, h1, h2⟩
          · rw [hlen2] at h1
            push_cast at h1 ⊢
            exact Or.inl (by omega)
          · exact Or.inr (Or.inl h1)
          · refine Or.inr (Or.inr ⟨b, hb, ?_, fun r hr => ?_⟩)
            · rwa [hjob' b (hleft b hb).1] at h1
            · have h3 := h2 r hr
              rwa [hjob' b (hleft b hb).1, hjob' r (hleft r hr).1] at h3
        · have hmap : (taken.map fun r => markClaimed now w lu
              (((hpop heapI h).1.setJob (h.get 0) (markClaimed now w lu)).mem r).job)
              = taken.map fun r => markClaimed now w lu (h.mem r).job :=
            List.map_congr_left fun r hr => by simp only [hjob' r (hin r hr).1]
          rw [hout, hmap, List.append_assoc, List.map_cons]
          rfl
    · rw [if_neg hc]
      refine ⟨[], v, stopped ?_, by simp⟩
      rcases not_and_or.mp hc with h1 | h1
      · exact Or.inl (not_lt.mp h1)
      · exact Or.inr (Or.inl (List.length_eq_zero_iff.mp (by omega)))

end
end GS.Mem
