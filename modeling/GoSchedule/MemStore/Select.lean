import GoSchedule.MemStore.Refine

/-!
# Which jobs `ClaimDue` selects

The SQL stores select the pending jobs of the queue with `run_at <= now`, order them by priority
and `run_at`, and take the first `n`: `SelectsFirst`.  The in-memory store pops its heap, which is
ordered by priority first, and stops at the first top that is not due.  A job that is not due can
so stand before due jobs of lower priority and hide them.

`claimDue_selectsFirst_iff`: the two selections agree in exactly the states that are `Unblocked`:
every pending job that is not due has either no due job of lower priority behind it, or `n` due
jobs of at least its priority before it.  `blocked_withholds` is a store where they differ.
-/

namespace GS.Mem
open Store

/-- the jobs a claim may take -/
def Store.Due (s : Store) (q : String) (now : Time) (j : Job) : Prop :=
  s.Pending q j ∧ j.runAt ≤ now

/-- `out` is what `ORDER BY priority DESC, run_at ASC LIMIT n` over the due jobs gives, for some
order among jobs of equal priority and `run_at` -/
def SelectsFirst (s : Store) (q : String) (now : Time) (n : Nat) (w : String) (lu : Time)
    (out : List Job) : Prop :=
  ∃ D : List Job, D.Nodup ∧ (∀ j, j ∈ D ↔ s.Due q now j) ∧
    D.Pairwise ClaimLE ∧ out = (D.take n).map (markClaimed now w lu)

/-- no job that is not due hides one of the first `n` due jobs -/
def Unblocked (s : Store) (q : String) (now : Time) (n : Nat) : Prop :=
  ∀ b, s.Pending q b → now < b.runAt →
    (∀ a, s.Due q now a → b.priority ≤ a.priority) ∨
    ∃ A : List Job, A.Nodup ∧ n ≤ A.length ∧ ∀ a ∈ A, s.Due q now a ∧ b.priority ≤ a.priority

section
variable {s : Store} {q : String} {now : Time} {n : Nat} {w : String} {lu : Time} {L : List Job}
  {m' : JobID → Option Job} (B : Batch s.jobs q now n w lu L m')
include B

theorem Batch.due {j : Job} (hj : j ∈ L) : s.Due q now j :=
  ⟨⟨(B.mem j hj).1, (B.mem j hj).2.1, (B.mem j hj).2.2.1⟩, (B.mem j hj).2.2.2⟩

theorem Batch.nodup_jobs : L.Nodup := List.Nodup.of_map _ B.nodup

omit B in
/-- a due job before a job that is not due, or after it with lower priority -/
theorem priority_lt_of_not_before {a b : Job} (ha : a.runAt ≤ now) (hb : now < b.runAt)
    (h : jobLess a b = false) : a.priority < b.priority := by
  obtain ⟨h1, h2⟩ := (jobLess_false_iff a b).mp h
  exact UInt8.lt_of_le_of_ne h1 fun e => lt_irrefl _ (lt_of_lt_of_le hb (le_trans (h2 e) ha))

/-- the batch is the whole selection if the loop was not stopped by a job that is not due -/
theorem Batch.selects_of_rest {R : List Job} (hR : R.Nodup)
    (hmem : ∀ j, j ∈ R ↔ s.Due q now j ∧ j ∉ L)
    (hsort : R.Pairwise ClaimLE) (hlen : L.length = n ∨ R = []) :
    SelectsFirst s q now n w lu (L.map (markClaimed now w lu)) := by
  refine ⟨L ++ R, ?_, ?_, ?_, ?_⟩
  · refine List.nodup_append.mpr ⟨B.nodup_jobs, hR, fun a ha b hb e => ?_⟩
    subst e
    exact ((hmem a).mp hb).2 ha
  · intro j
    rw [List.mem_append, hmem]
    constructor
    · rintro (h | h)
      · exact B.due h
      · exact h.1
    · intro h
      by_cases hj : j ∈ L
      · exact Or.inl hj
      · exact Or.inr ⟨h, hj⟩
  · refine List.pairwise_append.mpr ⟨B.sorted, hsort, fun a ha b hb => ?_⟩
    obtain ⟨⟨⟨h1, h2, h3⟩, _⟩, h4⟩ := (hmem b).mp hb
    exact B.before a ha b h1 h2 h3 h4
  · rcases hlen with h | h
    · rw [← h, List.take_left]
    · rw [h, List.append_nil, List.take_of_length_le]
      have h1 := B.le
      omega

/-- the loop ran to its limit: all of the batch stands before the job that is not due -/
theorem Batch.priority_le {b : Job} (hb : s.Pending q b) (hd : now < b.runAt) {a : Job}
    (ha : a ∈ L) : b.priority ≤ a.priority := by
  have hbL : b ∉ L := fun h => not_lt.mpr (B.mem b h).2.2.2 hd
  exact ((jobLess_false_iff b a).mp (B.before a ha b hb.1 hb.2.1 hb.2.2 hbL)).1

end

theorem Inv.exists_pending {s : Store} (v : Inv s) (q : String) :
    ∃ P : List Job, P.Nodup ∧ ∀ j, j ∈ P ↔ s.Pending q j := by
  refine ⟨(s.heap q).items.map fun r => (s.mem r).job, ?_, ?_⟩
  · refine (v.ok q).idx.nodup.map_on (fun a ha b hb e => ?_)
    have h1 := (v.item ha).1
    rw [e, (v.item hb).1] at h1
    exact (Option.some.inj h1).symm
  · intro j
    rw [List.mem_map]
    constructor
    · rintro ⟨r, hr, rfl⟩
      exact ⟨jobs_eq_some.mpr ⟨r, (v.item hr).1, rfl⟩, (v.item hr).2⟩
    · rintro ⟨h1, h2, h3⟩
      exact v.exists_item h1 h2 h3

/-- **The selection of `ClaimDue` is the first `n` due jobs exactly in the unblocked states.** -/
theorem claimDue_selectsFirst_iff (ops : List Op) (q : String) (now : Time) (n : Nat) (w : String)
    (lu : Time) : ∃ s' out, (runOps ops).claimDue q now n w lu = some (s', out) ∧
      (SelectsFirst (runOps ops) q now n w lu out ↔ Unblocked (runOps ops) q now n) := by
  have v := runOps_inv ops
  generalize runOps ops = s at v
  obtain ⟨s', L, e, _, B, _⟩ := claimDue_spec v q now (Int.natCast_nonneg n) w lu
  refine ⟨s', _, e, ?_, ?_⟩
  · rintro ⟨D, hD, hmem, hsort, hout⟩ b hb hd
    have hlen : L.length = min n D.length := by
      have h1 := congrArg List.length hout
      rwa [List.length_map, List.length_map, List.length_take] at h1
    rcases Nat.lt_or_ge L.length n with hlt | hge
    · refine Or.inl (fun a ha => B.priority_le hb hd ?_)
      have hsub : D.length ≤ L.length := by omega
      have hperm : L.Perm D := (List.subperm_of_subset B.nodup_jobs
        (fun j hj => (hmem j).mpr (B.due hj))).perm_of_length_le hsub
      exact hperm.mem_iff.mpr ((hmem a).mpr ha)
    · exact Or.inr ⟨L, B.nodup_jobs, hge, fun a ha => ⟨B.due ha, B.priority_le hb hd ha⟩⟩
  · intro hu
    obtain ⟨P, hP, hPmem⟩ := v.exists_pending q
    have hR : ∀ j, j ∈ (P.filter fun j => j.runAt ≤ now ∧ j ∉ L).insertionSort ClaimLE ↔
        s.Due q now j ∧ j ∉ L := by
      intro j
      rw [List.mem_insertionSort, List.mem_filter, hPmem, decide_eq_true_eq, ← and_assoc]
      exact Iff.rfl
    refine B.selects_of_rest ((List.perm_insertionSort _ _).nodup_iff.mpr (hP.filter _)) hR
      (List.pairwise_insertionSort _ _) ?_
    rcases B.stop with h | h | ⟨b, h1, h2, h3, hd, hmin⟩
    · exact Or.inl (by exact_mod_cast h)
    · refine Or.inr (List.eq_nil_iff_forall_not_mem.mpr (fun j hj => ?_))
      obtain ⟨⟨⟨a1, a2, a3⟩, _⟩, hjL⟩ := (hR j).mp hj
      exact hjL (h j a1 a2 a3)
    · have hlow : ∀ j, s.Due q now j → j ∉ L → j.priority < b.priority := fun j hj hjL =>
        priority_lt_of_not_before hj.2 hd (hmin j hj.1.1 hj.1.2.1 hj.1.2.2 hjL)
      rcases hu b ⟨h1, h2, h3⟩ hd with h | ⟨A, hA, hn, hAmem⟩
      · refine Or.inr (List.eq_nil_iff_forall_not_mem.mpr (fun j hj => ?_))
        obtain ⟨hdue, hjL⟩ := (hR j).mp hj
        exact absurd (hlow j hdue hjL) (UInt8.not_lt.mpr (h j hdue))
      · have hsub : A ⊆ L := by
          intro a ha
          by_contra haL
          exact absurd (hlow a (hAmem a ha).1 haL) (UInt8.not_lt.mpr (hAmem a ha).2)
        have h4 := (List.subperm_of_subset hA hsub).length_le
        have h5 := B.le
        exact Or.inl (by omega)

/-- a critical job for later and a low one that is due -/
def blocked : List Op :=
  [.save { id := "later", queue := "default", priority := priorityCritical, runAt := 100 },
   .save { id := "due", queue := "default", priority := priorityLow, runAt := 5 }]

/-- with the two jobs of `blocked`, a claim of one job at time `10` returns none -/
theorem blocked_withholds :
    ((runOps blocked).claimDue "default" 10 1 "w" 20).map Prod.snd = some [] ∧
      ¬ SelectsFirst (runOps blocked) "default" 10 1 "w" 20 [] := by
  refine ⟨by decide, ?_⟩
  rintro ⟨D, _, hmem, _, hout⟩
  have h1 : ({ id := "due", queue := "default", priority := priorityLow, runAt := 5 } : Job) ∈ D :=
    (hmem _).mpr ⟨⟨by decide, by decide, by decide⟩, by decide⟩
  cases D with
  | nil => exact absurd h1 List.not_mem_nil
  | cons a D => simp at hout

end GS.Mem
