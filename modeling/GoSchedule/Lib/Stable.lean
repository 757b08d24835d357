import Mathlib

/-!
# Stable sorting by a total preorder

Elements may be equal in the order without being equal.  A stable sort keeps those in the order in which
they came.

* `Tied r a b`   neither of the two stands strictly before the other;
* `StableSort r l out`   `out` is `l`, sorted, with every class of ties in its order;
* `StableSort.snoc`     one more element, behind everything that may stand before it;
* `StableSort.unique`   **a list has one stable sort**;
* `stableSort_insertionSort`   and `List.insertionSort` computes it.
-/

namespace Stable

section
variable {α : Type*} {r : α → α → Prop}

/-- in a sorted list the last element stands for all -/
theorem le_of_le_getLast [IsTrans α r] {A : List α} {j : α} (hs : A.Pairwise r)
    (hlast : ∀ a ∈ A.getLast?, r a j) : ∀ a ∈ A, r a j := by
  rcases List.eq_nil_or_concat' A with rfl | ⟨A, x, rfl⟩
  · simp
  · have hx : r x j := hlast x (by simp)
    intro a ha
    rcases List.mem_append.mp ha with ha | ha
    · exact Trans.trans ((List.pairwise_append.mp hs).2.2 a ha x (by simp)) hx
    · rw [List.mem_singleton.mp ha]
      exact hx

/-- a first element may stand before all others -/
theorem le_of_head_sorted [Std.Total r] {x y : α} {xs : List α} (hs : (x :: xs).Pairwise r)
    (hy : y ∈ x :: xs) : r x y := by
  rcases List.mem_cons.mp hy with rfl | hy
  · exact (Std.Total.total y y).elim id id
  · exact List.rel_of_pairwise_cons hs hy

variable (r)

def Tied (a b : α) : Prop := r a b ∧ r b a

variable [DecidableRel r]

instance (a : α) : DecidablePred (Tied r a) := fun _ => inferInstanceAs (Decidable (_ ∧ _))

structure StableSort (l out : List α) : Prop where
  perm : out.Perm l
  sorted : out.Pairwise r
  stable : ∀ a, out.filter (Tied r a ·) = l.filter (Tied r a ·)

variable {r}

theorem stableSort_nil : StableSort r [] [] := ⟨.nil, .nil, fun _ => rfl⟩

theorem stableSort_singleton (j : α) : StableSort r [j] [j] :=
  ⟨.refl _, List.pairwise_singleton _ _, fun _ => rfl⟩

/-- the new element comes after its ties -/
theorem filter_snoc [IsTrans α r] {l A B : List α} {j : α} (a : α)
    (h : (A ++ B).filter (Tied r a ·) = l.filter (Tied r a ·)) (hB : ∀ b ∈ B, ¬ r b j) :
    (A ++ j :: B).filter (Tied r a ·) = (l ++ [j]).filter (Tied r a ·) := by
  rw [List.filter_append, List.filter_append, ← h, List.filter_append]
  by_cases hj : Tied r a j
  · have hnone : B.filter (Tied r a ·) = [] := by
      rw [List.filter_eq_nil_iff]
      intro b hb htied
      exact hB b hb (Trans.trans (of_decide_eq_true htied).2 hj.1)
    simp [hj, hnone]
  · simp [hj]

theorem StableSort.snoc [Std.Total r] [IsTrans α r] {l A B : List α} {j : α}
    (h : StableSort r l (A ++ B)) (hA : ∀ a ∈ A.getLast?, r a j) (hB : ∀ b ∈ B, ¬ r b j) :
    StableSort r (l ++ [j]) (A ++ j :: B) where
  perm := calc
    (A ++ j :: B).Perm (j :: (A ++ B)) := List.perm_middle
    _ |>.Perm (j :: l) := h.perm.cons j
    _ |>.Perm (l ++ [j]) := (List.perm_append_singleton j l).symm
  sorted := by
    obtain ⟨hsA, hsB, hAB⟩ := List.pairwise_append.mp h.sorted
    have hAj := le_of_le_getLast hsA hA
    have hjB : ∀ b ∈ B, r j b := fun b hb => (Std.Total.total j b).resolve_right (hB b hb)
    refine List.pairwise_append.mpr ⟨hsA, List.pairwise_cons.mpr ⟨hjB, hsB⟩, fun a ha b hb => ?_⟩
    rcases List.mem_cons.mp hb with rfl | hb
    · exact hAj a ha
    · exact hAB a ha b hb
  stable a := filter_snoc a (h.stable a) hB

/-- the first elements are ties, and so they are equal -/
theorem eq_of_ties [Std.Total r] {out out' : List α} (hperm : out.Perm out')
    (hs : out.Pairwise r) (hs' : out'.Pairwise r)
    (hties : ∀ a, out.filter (Tied r a ·) = out'.filter (Tied r a ·)) : out = out' := by
  induction out generalizing out' with
  | nil => exact hperm.nil_eq
  | cons x xs ih =>
    cases out' with
    | nil => exact hperm.eq_nil
    | cons y ys =>
      have hxx : Tied r x x :=
        ⟨le_of_head_sorted hs List.mem_cons_self, le_of_head_sorted hs List.mem_cons_self⟩
      have hxy : Tied r x y :=
        ⟨le_of_head_sorted hs (hperm.mem_iff.mpr List.mem_cons_self),
          le_of_head_sorted hs' (hperm.mem_iff.mp List.mem_cons_self)⟩
      have e := hties x
      rw [List.filter_cons_of_pos (by simpa using hxx),
        List.filter_cons_of_pos (by simpa using hxy)] at e
      obtain rfl : x = y := (List.cons.inj e).1
      congr 1
      refine ih hperm.cons_inv hs.of_cons hs'.of_cons fun a => ?_
      have e := hties a
      rw [List.filter_cons, List.filter_cons] at e
      split at e
      · exact (List.cons.inj e).2
      · exact e

theorem StableSort.unique [Std.Total r] {l out out' : List α} (h : StableSort r l out)
    (h' : StableSort r l out') : out = out' :=
  eq_of_ties (h.perm.trans h'.perm.symm) h.sorted h'.sorted fun a =>
    (h.stable a).trans (h'.stable a).symm

theorem stableSort_insertionSort [Std.Total r] [IsTrans α r] (l : List α) :
    StableSort r l (l.insertionSort r) where
  perm := List.perm_insertionSort r l
  sorted := List.pairwise_insertionSort r l
  stable a := by
    -- the ties of `a` are a sorted part of the list, and there are as many afterwards
    have hties : (l.filter (Tied r a ·)).Pairwise r := by
      refine List.pairwise_iff_forall_sublist.mpr fun {x y} hxy => ?_
      have hx := of_decide_eq_true (List.mem_filter.mp (hxy.subset (by simp : x ∈ [x, y]))).2
      have hy := of_decide_eq_true (List.mem_filter.mp (hxy.subset (by simp : y ∈ [x, y]))).2
      exact Trans.trans hx.2 hy.1
    have hsub := (List.sublist_insertionSort hties List.filter_sublist).filter (Tied r a ·)
    rw [List.filter_filter] at hsub
    simp only [Bool.and_self] at hsub
    have hlen := ((List.perm_insertionSort r l).filter (Tied r a ·)).length_eq
    exact (hsub.eq_of_length hlen.symm).symm

end
end Stable
