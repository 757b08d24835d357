import GoSchedule.Lib.Slice
import GoSchedule.Lib.Stable
import GoSchedule.MemStore.Basic
import GoSchedule.Postgres.Tx

/-!
# The order of a batch that the Postgres store has claimed

`RETURNING` gives the rows of an update in any order, so `ClaimDue` sorts them again: an insertion sort
in place, two nested loops over a slice.

* `sortJobs`    the loops, with every index checked and a bound on the rounds of each;
* `Hole`        the inner loop: what it has passed stands one place further to the right, and the place
  that became free is at `k + 1`;
* `sortJobs_eq` **the loops end, inside the slice, with the list that `sort.SliceStable` gives**: a batch
  from the Postgres store has the order that the memstore gives it;
* `returned_agree`   whatever the order of the rows, the batch has the same priorities and times in the
  same places.
-/

namespace GS.Postgres
open Slice Stable

/-! ## the loops -/

/-- the variables of the inner loop -/
structure Shift where
  js : List Job
  k : Int

/-- `k >= 0 && jobLess(j, js[k])` -/
def shiftCond (j : Job) (s : Shift) : Except Fault Bool :=
  if 0 ≤ s.k then do
    return jobLess j (← get s.js s.k)
  else .ok false

def shiftBody (s : Shift) : Except Fault Shift := do
  let js ← put s.js (s.k + 1) (← get s.js s.k)
  return ⟨js, s.k - 1⟩

/-- the variables of the outer loop -/
structure Pass where
  js : List Job
  i : Int

def passCond (s : Pass) : Except Fault Bool := .ok (decide (s.i < s.js.length))

def passBody (fuel : Nat) (s : Pass) : Except Fault Pass := do
  let j ← get s.js s.i
  let r ← loop (shiftCond j) shiftBody fuel ⟨s.js, s.i - 1⟩
  let js ← put r.js (r.k + 1) j
  return ⟨js, s.i + 1⟩

def sortJobs (fuel : Nat) (js : List Job) : Except Fault (List Job) := do
  let s ← loop passCond (passBody fuel) fuel ⟨js, 1⟩
  return s.js

/-! ## the inner loop -/

/-- `j` comes from behind the sorted part `P`, and belongs before the part `B` of it -/
def Hole (j : Job) (P R : List Job) (s : Shift) : Prop :=
  ∃ A B c, P = A ++ B ∧ s.js = A ++ c :: (B ++ R) ∧ s.k = A.length - 1 ∧ ∀ b ∈ B, ¬ ClaimLE b j

theorem get_at_k {A R : List Job} {a : Job} {s : Shift} (hjs : s.js = (A ++ [a]) ++ R)
    (hk : s.k = (A ++ [a]).length - 1) : s.k = A.length ∧ get s.js s.k = .ok a := by
  have hk' : s.k = A.length := by
    rw [hk, List.length_append, List.length_singleton]
    omega
  exact ⟨hk', get_eq_ok (by rw [hjs, List.append_assoc]; rfl) hk'⟩

theorem shiftCond_eq {A R : List Job} {a : Job} {s : Shift} (j : Job)
    (hjs : s.js = (A ++ [a]) ++ R) (hk : s.k = (A ++ [a]).length - 1) :
    shiftCond j s = .ok (jobLess j a) := by
  obtain ⟨hk', hget⟩ := get_at_k hjs hk
  rw [shiftCond, if_pos (by omega), hget]
  rfl

theorem shiftBody_eq {A R : List Job} {a c : Job} {s : Shift}
    (hjs : s.js = (A ++ [a]) ++ c :: R) (hk : s.k = (A ++ [a]).length - 1) :
    shiftBody s = .ok ⟨A ++ a :: a :: R, A.length - 1⟩ := by
  obtain ⟨hk', hget⟩ := get_at_k hjs hk
  have hput : put s.js (s.k + 1) a = .ok ((A ++ [a]) ++ a :: R) := put_eq_ok hjs (by omega)
  rw [shiftBody, hget]
  show (put s.js (s.k + 1) a >>= _) = _
  rw [hput, hk', List.append_assoc]
  rfl

theorem shift_round {j : Job} {P R : List Job} (s : Shift) (h : Hole j P R s) :
    shiftCond j s = .ok false ∨ shiftCond j s = .ok true ∧
      ∃ t, shiftBody s = .ok t ∧ Hole j P R t ∧ (t.k + 1).toNat < (s.k + 1).toNat := by
  obtain ⟨A, B, c, hP, hjs, hk, hB⟩ := h
  rcases List.eq_nil_or_concat' A with rfl | ⟨A, a, rfl⟩
  · exact Or.inl (if_neg (by rw [hk]; decide))
  · rw [shiftCond_eq j hjs hk]
    cases hless : jobLess j a with
    | false => exact Or.inl rfl
    | true =>
      have haB : ∀ b ∈ a :: B, ¬ ClaimLE b j := by
        intro b hb
        rcases List.mem_cons.mp hb with rfl | hb
        · exact fun hle => absurd (hless.symm.trans hle) (by decide)
        · exact hB b hb
      refine Or.inr ⟨rfl, _, shiftBody_eq hjs hk, ⟨A, a :: B, a, ?_, rfl, rfl, haB⟩, ?_⟩
      · rw [hP, List.append_assoc]
        rfl
      · show ((A.length : Int) - 1 + 1).toNat < (s.k + 1).toNat
        rw [hk, List.length_append, List.length_singleton]
        omega

/-- where the inner loop ends, what stands left of the free place may stand before `j` -/
theorem last_le_of_cond_false {j : Job} {A R : List Job} {s : Shift} (hjs : s.js = A ++ R)
    (hk : s.k = A.length - 1) (h : shiftCond j s = .ok false) : ∀ a ∈ A.getLast?, ClaimLE a j := by
  rcases List.eq_nil_or_concat' A with rfl | ⟨A, a, rfl⟩
  · simp
  · rw [shiftCond_eq j hjs hk] at h
    intro x hx
    rw [List.getLast?_concat] at hx
    rw [← Option.some.inj hx]
    exact Except.ok.inj h

/-! ## the outer loop -/

/-- one insertion: `j` is taken from `P ++ j :: R` and put in its place in `P` -/
theorem passBody_eq {fuel : Nat} {l P R : List Job} {j : Job} {s : Pass}
    (hP : StableSort ClaimLE l P) (hjs : s.js = P ++ j :: R) (hi : s.i = P.length)
    (hfuel : P.length ≤ fuel) :
    ∃ P', passBody fuel s = .ok ⟨P' ++ R, s.i + 1⟩ ∧ StableSort ClaimLE (l ++ [j]) P' := by
  have hget : get s.js s.i = .ok j := get_eq_ok hjs hi
  have hstart : Hole j P R ⟨s.js, s.i - 1⟩ :=
    ⟨P, [], j, (List.append_nil P).symm, hjs, by rw [hi], by simp⟩
  have hrounds : ((⟨s.js, s.i - 1⟩ : Shift).k + 1).toNat ≤ fuel := by
    show (s.i - 1 + 1).toNat ≤ fuel
    omega
  obtain ⟨t, hloop, ⟨A, B, c, hAB, htjs, htk, hB⟩, hfalse⟩ :=
    loop_total (fun s : Shift => (s.k + 1).toNat) shift_round hstart hrounds
  have hput : put t.js (t.k + 1) j = .ok (A ++ j :: (B ++ R)) := put_eq_ok htjs (by omega)
  refine ⟨A ++ j :: B, ?_, ?_⟩
  · rw [passBody, hget]
    show (loop (shiftCond j) shiftBody fuel ⟨s.js, s.i - 1⟩ >>= _) = _
    rw [hloop]
    show (put t.js (t.k + 1) j >>= _) = _
    rw [hput, List.append_assoc]
    rfl
  · rw [hAB] at hP
    exact hP.snoc (last_le_of_cond_false htjs htk hfalse) hB

/-- the part that is done is sorted, the rest is as it came; an empty slice has nothing at 1 -/
def Sorting (js : List Job) (s : Pass) : Prop :=
  ∃ l P R, js = l ++ R ∧ s.js = P ++ R ∧ StableSort ClaimLE l P ∧ P.length ≤ s.i ∧
    (R ≠ [] → s.i = P.length)

theorem sorting_start (js : List Job) : Sorting js ⟨js, 1⟩ := by
  cases js with
  | nil => exact ⟨[], [], [], rfl, rfl, stableSort_nil, by decide, fun h => absurd rfl h⟩
  | cons j js => exact ⟨[j], [j], js, rfl, rfl, stableSort_singleton j, le_refl _, fun _ => rfl⟩

theorem pass_round {fuel : Nat} {js : List Job} (hfuel : js.length ≤ fuel) (s : Pass)
    (h : Sorting js s) :
    passCond s = .ok false ∨ passCond s = .ok true ∧
      ∃ t, passBody fuel s = .ok t ∧ Sorting js t ∧
        (t.js.length - t.i).toNat < (s.js.length - s.i).toNat := by
  by_cases hi : s.i < s.js.length
  · obtain ⟨l, P, R, hjs, hsjs, hP, hle, hR⟩ := h
    cases R with
    | nil =>
      rw [hsjs, List.append_nil] at hi
      omega
    | cons j R =>
      have hiP : s.i = P.length := hR (List.cons_ne_nil j R)
      have hlen : P.length ≤ fuel := by
        rw [hP.perm.length_eq]
        rw [hjs, List.length_append] at hfuel
        omega
      obtain ⟨P', hbody, hP'⟩ := passBody_eq hP hsjs hiP hlen
      have hPlen : P'.length = P.length + 1 := by
        rw [hP'.perm.length_eq, List.length_append, List.length_singleton, hP.perm.length_eq]
      refine Or.inr ⟨by rw [passCond, decide_eq_true hi], _, hbody, ?_, ?_⟩
      · refine ⟨l ++ [j], P', R, ?_, rfl, hP', ?_, fun _ => ?_⟩
        · rw [hjs, List.append_assoc]
          rfl
        · show (P'.length : Int) ≤ s.i + 1
          omega
        · show s.i + 1 = P'.length
          omega
      · rw [hsjs]
        simp only [List.length_append, List.length_cons, hPlen]
        omega
  · exact Or.inl (by rw [passCond, decide_eq_false hi])

theorem sortJobs_stable {fuel : Nat} {js : List Job} (hfuel : js.length ≤ fuel) :
    ∃ out, sortJobs fuel js = .ok out ∧ StableSort ClaimLE js out := by
  have hrounds : (((⟨js, 1⟩ : Pass).js.length : Int) - (⟨js, 1⟩ : Pass).i).toNat ≤ fuel := by
    show ((js.length : Int) - 1).toNat ≤ fuel
    omega
  obtain ⟨t, hloop, ⟨l, P, R, hjs, htjs, hP, _, hR⟩, hfalse⟩ :=
    loop_total (fun s : Pass => (s.js.length - s.i).toNat) (pass_round hfuel) (sorting_start js) hrounds
  have hend : ¬ t.i < t.js.length := of_decide_eq_false (Except.ok.inj hfalse)
  -- the index is behind the slice, so nothing is left
  obtain rfl : R = [] := by
    by_contra hne
    have hpos := List.length_pos_of_ne_nil hne
    rw [hR hne, htjs, List.length_append] at hend
    omega
  refine ⟨P, ?_, ?_⟩
  · rw [sortJobs, hloop, ← List.append_nil P, ← htjs]
    rfl
  · rw [hjs, List.append_nil]
    exact hP

/-! ## what a claim returns -/

theorem sliceStable_stable (js : List Job) : StableSort ClaimLE js (Mem.Store.sliceStable js) :=
  stableSort_insertionSort js

/-- **`sortJobs` is `sort.SliceStable`.** -/
theorem sortJobs_eq {fuel : Nat} {js : List Job} (hfuel : js.length ≤ fuel) :
    sortJobs fuel js = .ok (Mem.Store.sliceStable js) := by
  obtain ⟨out, hout, hs⟩ := sortJobs_stable hfuel
  rw [hout, hs.unique (sliceStable_stable js)]

/-- neither of the two is less -/
def jobTied (a b : Job) : Bool := !jobLess a b && !jobLess b a

theorem jobTied_eq (a b : Job) : jobTied a b = decide (Tied ClaimLE a b) := by
  rw [Bool.eq_iff_iff, decide_eq_true_iff, jobTied, Bool.and_eq_true, Bool.not_eq_true',
    Bool.not_eq_true']
  exact and_comm

/-- **The sort ends inside the slice, for every slice**: with the same jobs, ordered by priority and then
by time, and with ties as they came. -/
theorem sortJobs_correct (js : List Job) :
    ∃ out, (∀ fuel, sortJobs (js.length + fuel) js = .ok out) ∧ out.Perm js ∧
      out.Pairwise (fun a b =>
        b.priority < a.priority ∨ a.priority = b.priority ∧ a.runAt ≤ b.runAt) ∧
      ∀ j, out.filter (jobTied j) = js.filter (jobTied j) := by
  have h := sliceStable_stable js
  refine ⟨Mem.Store.sliceStable js, fun fuel => sortJobs_eq (Nat.le_add_right _ _), h.perm, ?_,
    fun j => ?_⟩
  · refine h.sorted.imp fun {a b} hab => ?_
    obtain ⟨hle, htime⟩ := (jobLess_false_iff b a).mp hab
    rcases UInt8.lt_or_eq_of_le hle with hlt | e
    · exact Or.inl hlt
    · exact Or.inr ⟨e.symm, htime e⟩
  · rw [funext (jobTied_eq j)]
    exact h.stable j

/-- what the order of a batch looks at -/
def claimKey (j : Job) : Priority × Time := (j.priority, j.runAt)

def KeyLE (x y : Priority × Time) : Prop := y.1 ≤ x.1 ∧ (y.1 = x.1 → x.2 ≤ y.2)

theorem keyLE_of_claimLE {a b : Job} (h : ClaimLE a b) : KeyLE (claimKey a) (claimKey b) :=
  (jobLess_false_iff b a).mp h

theorem keyLE_antisymm {x y : Priority × Time} (hxy : KeyLE x y) (hyx : KeyLE y x) : x = y := by
  have e : x.1 = y.1 := UInt8.le_antisymm hyx.1 hxy.1
  exact Prod.ext e (le_antisymm (hxy.2 e.symm) (hyx.2 e))

theorem sliceStable_keys {js js' : List Job} (h : js.Perm js') :
    (Mem.Store.sliceStable js).map claimKey = (Mem.Store.sliceStable js').map claimKey := by
  have hs := sliceStable_stable js
  have hs' := sliceStable_stable js'
  have hperm := (hs.perm.trans (h.trans hs'.perm.symm)).map claimKey
  exact hperm.eq_of_pairwise (fun x y _ _ => keyLE_antisymm)
    (hs.sorted.map claimKey fun _ _ => keyLE_of_claimLE)
    (hs'.sorted.map claimKey fun _ _ => keyLE_of_claimLE)

/-- the rows of `RETURNING`, in the order in which they come -/
def returned (s : Tx.Sys) (order : List JobID) : List Job := order.filterMap s.table.row

/-- **A batch does not depend on the order of its rows**, but for ties. -/
theorem returned_agree (s : Tx.Sys) {order order' : List JobID} (h : order.Perm order') {fuel : Nat}
    (hfuel : order.length ≤ fuel) :
    ∃ out out', sortJobs fuel (returned s order) = .ok out ∧
      sortJobs fuel (returned s order') = .ok out' ∧ out.map claimKey = out'.map claimKey := by
  have hlen : (returned s order).length ≤ fuel := le_trans (List.length_filterMap_le _ _) hfuel
  have hlen' : (returned s order').length ≤ fuel :=
    le_trans (List.length_filterMap_le _ _) (h.length_eq ▸ hfuel)
  exact ⟨_, _, sortJobs_eq hlen, sortJobs_eq hlen', sliceStable_keys (h.filterMap _)⟩

end GS.Postgres
