import Mathlib

/-!
# A list of slots, one of which is written

A pool is a list of slots, `f` says what a slot holds.  When the slot `i` goes from `w` to `w'`:

* `filterMap_set_perm`, `flatMap_set_perm`   what the pool holds changes by what `w` and `w'` hold;
* `countP_set`, `sum_set`   and so do the number of slots that meet a test and the sum of weights;
* `mem_set_of_ne`        every other value stays in the list;
* `not_nodup_of_slots`   two different slots that hold the same thing hold it twice.

`countP_of_ne` is about a list without duplicates whose members are tested by another test, which says
something else about one of them.
-/

namespace Slots

section
variable {α β : Type*} {l : List α} {i : Nat} {w : α}

theorem exists_set (h : l[i]? = some w) :
    ∃ A B, l = A ++ w :: B ∧ ∀ w', l.set i w' = A ++ w' :: B := by
  obtain ⟨hi, rfl⟩ := List.getElem?_eq_some_iff.mp h
  refine ⟨l.take i, l.drop (i + 1), ?_, fun w' => ?_⟩
  · rw [← List.drop_eq_getElem_cons hi, List.take_append_drop]
  · exact List.set_eq_take_append_cons_drop.trans (if_pos hi)

theorem filterMap_set_perm (f : α → Option β) (h : l[i]? = some w) (w' : α) :
    ((f w).toList ++ (l.set i w').filterMap f).Perm ((f w').toList ++ l.filterMap f) := by
  obtain ⟨A, B, e, e'⟩ := exists_set h
  have hsplit : ∀ v, (A ++ v :: B).filterMap f = A.filterMap f ++ ((f v).toList ++ B.filterMap f) := by
    intro v
    rw [List.filterMap_append, List.filterMap_cons]
    cases f v <;> rfl
  have hmove : ∀ X Y P Q : List β, (X ++ (P ++ (Y ++ Q))).Perm (X ++ (Y ++ (P ++ Q))) :=
    fun X Y P Q => (List.perm_append_comm_assoc P Y Q).append_left X
  rw [e' w', e, hsplit, hsplit]
  exact (hmove _ _ _ _).trans ((List.perm_append_comm_assoc _ _ _).trans (hmove _ _ _ _).symm)

theorem flatMap_set_perm (f : α → List β) (h : l[i]? = some w) (w' : α) :
    (f w ++ (l.set i w').flatMap f).Perm (f w' ++ l.flatMap f) := by
  obtain ⟨A, B, e, e'⟩ := exists_set h
  have hmove : ∀ X Y P Q : List β, (X ++ (P ++ (Y ++ Q))).Perm (X ++ (Y ++ (P ++ Q))) :=
    fun X Y P Q => (List.perm_append_comm_assoc P Y Q).append_left X
  rw [e' w', e, List.flatMap_append, List.flatMap_append, List.flatMap_cons, List.flatMap_cons]
  exact (hmove _ _ _ _).trans ((List.perm_append_comm_assoc _ _ _).trans (hmove _ _ _ _).symm)

theorem countP_set (p : α → Bool) (h : l[i]? = some w) (w' : α) :
    (l.set i w').countP p + (if p w then 1 else 0) = l.countP p + (if p w' then 1 else 0) := by
  obtain ⟨A, B, e, e'⟩ := exists_set h
  rw [e' w', e, List.countP_append, List.countP_append, List.countP_cons, List.countP_cons]
  omega

theorem sum_set (f : α → Nat) (h : l[i]? = some w) (w' : α) :
    ((l.set i w').map f).sum + f w = (l.map f).sum + f w' := by
  obtain ⟨A, B, e, e'⟩ := exists_set h
  rw [e' w', e]
  simp only [List.map_append, List.map_cons, List.sum_append, List.sum_cons]
  omega

theorem countP_of_ne {a : α} {p p' : α → Bool} (hn : l.Nodup) (ha : a ∈ l)
    (h : ∀ b, b ≠ a → p' b = p b) :
    l.countP p' + (if p a then 1 else 0) = l.countP p + (if p' a then 1 else 0) := by
  obtain ⟨A, B, rfl⟩ := List.append_of_mem ha
  obtain ⟨_, hB, hAB⟩ := List.nodup_append.mp hn
  have hA : A.countP p' = A.countP p := List.countP_congr fun b hb => by
    rw [h b fun e => hAB b hb a List.mem_cons_self e]
  have hB' : B.countP p' = B.countP p := List.countP_congr fun b hb => by
    rw [h b fun e => (List.nodup_cons.mp hB).1 (e ▸ hb)]
  rw [List.countP_append, List.countP_append, List.countP_cons, List.countP_cons, hA, hB']
  omega

theorem mem_set_of_ne (h : l[i]? = some w) {x : α} (hx : x ∈ l) (hne : x ≠ w) (w' : α) :
    x ∈ l.set i w' := by
  obtain ⟨A, B, e, e'⟩ := exists_set h
  rw [e' w']
  rw [e] at hx
  simp only [List.mem_append, List.mem_cons] at hx ⊢
  rcases hx with hx | hx | hx
  · exact Or.inl hx
  · exact absurd hx hne
  · exact Or.inr (Or.inr hx)

theorem mem_set_self (h : l[i]? = some w) (w' : α) : w' ∈ l.set i w' := by
  obtain ⟨A, B, _, e'⟩ := exists_set h
  simp [e' w']

theorem not_nodup_of_slots {f : α → Option β} (h : l[i]? = some w) {x : α} (hx : x ∈ l)
    (hne : x ≠ w) {b : β} (hw : f w = some b) (hb : f x = some b) :
    ¬ (l.filterMap f).Nodup := by
  obtain ⟨A, B, e, _⟩ := exists_set h
  intro hn
  rw [e, List.filterMap_append, List.filterMap_cons, hw] at hn
  have hperm : (A.filterMap f ++ b :: B.filterMap f).Perm
      (b :: (A.filterMap f ++ B.filterMap f)) := List.perm_middle
  have hnot : b ∉ A.filterMap f ++ B.filterMap f :=
    (List.nodup_cons.mp (hperm.nodup_iff.mp hn)).1
  apply hnot
  rw [e] at hx
  simp only [List.mem_append, List.mem_cons, List.mem_filterMap] at hx ⊢
  rcases hx with hx | hx | hx
  · exact Or.inl ⟨x, hx, hb⟩
  · exact absurd hx hne
  · exact Or.inr ⟨x, hx, hb⟩

end
end Slots
