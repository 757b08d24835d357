import GoSchedule.Lib.Keyed
import GoSchedule.Lib.RowLock

/-!
# Where the values of a state come from

A state shows a set of values, and `f` is a tag of a value.

* `Inherits f N S S'`   every tag that `S'` shows is one that `S` shows, or one of `N`;
* `Inherits.forall`     so what holds of the tags of `S` and of those of `N` holds of the tags of `S'`;
* `of_subset`, `of_keeps`, `of_new`, `map_if`, `Inherits.image`   how a set of values can change;
* `values m`            the values of a map, with `values_update` and `values_map`;
* `rows_delete`, `rows_upsert`   the statements on a table with a primary key;
* `Tagged f T`          in a table with row locks, what a transaction is going to write has the tag of the
  row that it found; every operation keeps that, and `commit` inherits by it.
-/

namespace Inherit

section
variable {α β γ κ : Type*} {f : α → β} {N : Set β} {S S' : Set α}

def Inherits (f : α → β) (N : Set β) (S S' : Set α) : Prop := ∀ x ∈ S', f x ∈ f '' S ∪ N

theorem Inherits.forall {P : β → Prop} (h : Inherits f N S S') (hS : ∀ x ∈ S, P (f x))
    (hN : ∀ c ∈ N, P c) : ∀ x ∈ S', P (f x) := by
  intro x hx
  rcases h x hx with ⟨y, hy, e⟩ | hn
  · rw [← e]
    exact hS y hy
  · exact hN (f x) hn

theorem of_subset (h : S' ⊆ S) : Inherits f N S S' :=
  fun _ hx => Or.inl (Set.mem_image_of_mem f (h hx))

/-- every value is an old one, with its tag -/
theorem of_keeps (h : ∀ x ∈ S', ∃ y ∈ S, f y = f x) : Inherits f N S S' := fun x hx => Or.inl (h x hx)

/-- or it has the tag of the new one -/
theorem of_new (h : ∀ x ∈ S', x ∈ S ∨ f x ∈ N) : Inherits f N S S' := by
  intro x hx
  rcases h x hx with hx | hn
  · exact Or.inl (Set.mem_image_of_mem f hx)
  · exact Or.inr hn

/-- the values as another type shows them -/
theorem Inherits.image {f' : γ → β} {g : γ → α} {R R' : Set γ} (h : Inherits f' N R R')
    (hg : ∀ r, f (g r) = f' r) : Inherits f N (g '' R) (g '' R') := by
  intro x hx
  obtain ⟨r, hr, rfl⟩ := hx
  rcases h r hr with ⟨y, hy, e⟩ | hn
  · exact Or.inl ⟨g y, Set.mem_image_of_mem g hy, (hg y).trans (e.trans (hg r).symm)⟩
  · rw [hg r]
    exact Or.inr hn

/-- the values of a list, changed where they meet `p`; also the rows after an UPDATE -/
theorem map_if {l : List α} {p : α → Prop} [DecidablePred p] {g : α → α} (h : ∀ x, f (g x) = f x) :
    Inherits f N {x | x ∈ l} {x | x ∈ l.map fun x => if p x then g x else x} := by
  refine of_keeps fun x hx => ?_
  obtain ⟨y, hy, rfl⟩ := List.mem_map.mp hx
  refine ⟨y, hy, ?_⟩
  split
  · exact (h y).symm
  · rfl

/-! ## maps -/

def values (m : κ → Option α) : Set α := {x | ∃ k, m k = some x}

variable {m m' : κ → Option α}

theorem values_update [DecidableEq κ] {k : κ} {o : Option α}
    (h : ∀ x, o = some x → f x ∈ f '' values m ∪ N) :
    Inherits f N (values m) (values (Function.update m k o)) := by
  intro x hx
  obtain ⟨i, hi⟩ := hx
  by_cases e : i = k
  · subst e
    rw [Function.update_self] at hi
    exact h x hi
  · rw [Function.update_of_ne e] at hi
    exact Or.inl ⟨x, ⟨i, hi⟩, rfl⟩

/-- a map whose values are changed key by key, and keep their tags -/
theorem values_map (h : ∀ k x, m' k = some x → ∃ y, m k = some y ∧ f y = f x) :
    Inherits f N (values m) (values m') := by
  refine of_keeps fun x hx => ?_
  obtain ⟨k, hk⟩ := hx
  obtain ⟨y, hy, e⟩ := h k x hk
  exact ⟨y, ⟨k, hy⟩, e⟩

/-! ## tables with a primary key -/

variable {key : α → κ} {T : Keyed key}

theorem rows_delete {p : α → Bool} : Inherits f N {x | x ∈ T.rows} {x | x ∈ (T.delete p).rows} :=
  of_subset fun _ hx => List.mem_of_mem_filter hx

theorem rows_upsert [DecidableEq κ] {x : α} {merge : α → α} {hm : ∀ y, key (merge y) = key y} (hx : f x ∈ N)
    (h : ∀ y, key y = key x → f (merge y) ∈ N) :
    Inherits f N {y | y ∈ T.rows} {y | y ∈ (T.upsert x merge hm).rows} := by
  refine of_new fun y hy => ?_
  unfold Keyed.upsert at hy
  split at hy
  · rcases List.mem_append.mp hy with hy | hy
    · exact Or.inl hy
    · rw [List.mem_singleton.mp hy]
      exact Or.inr hx
  · obtain ⟨z, hz, rfl⟩ := List.mem_map.mp hy
    split
    · rename_i e
      exact Or.inr (h z (of_decide_eq_true e))
    · exact Or.inl hz

end

/-! ## tables with row locks -/

section
open RowLock
variable {α β κ : Type*} [DecidableEq κ] {f : α → β} {N : Set β} {T T' : Table κ α}

def Tagged (f : α → β) (T : Table κ α) : Prop :=
  ∀ k i v, T.lock k = some (i, some v) → ∃ x, T.row k = some x ∧ f x = f v

theorem tagged_update {i : Nat} {k : κ} {p : α → Bool} {g : α → Option α} {was : Option α}
    (ht : Tagged f T) (h : T.update i k p g = some (T', was))
    (hg : ∀ x y, g x = some y → f x = f y) : Tagged f T' ∧ T'.row = T.row := by
  rcases Table.update_spec h with ⟨rfl, _⟩ | ⟨x, hx, _, _, _, rfl⟩
  · exact ⟨ht, rfl⟩
  · refine ⟨fun k' i' v hv => ?_, rfl⟩
    by_cases e : k' = k
    · subst e
      change Function.update T.lock k' _ k' = _ at hv
      rw [Function.update_self] at hv
      exact ⟨x, hx, hg x v (congrArg Prod.snd (Option.some.inj hv))⟩
    · change Function.update T.lock k _ k' = _ at hv
      rw [Function.update_of_ne e] at hv
      exact ht k' i' v hv

/-- a statement that is a transaction of its own changes a row that is not locked -/
theorem tagged_row {k : κ} {o : Option α} (ht : Tagged f T) (hl : T.lock k = none) :
    Tagged f { T with row := Function.update T.row k o } := by
  intro k' i v hv
  have e : k' ≠ k := by
    intro e
    rw [e] at hv
    cases hl.symm.trans hv
  obtain ⟨x, hx, hf⟩ := ht k' i v hv
  exact ⟨x, (Function.update_of_ne e ..).trans hx, hf⟩

theorem tagged_exec {k : κ} {p : α → Bool} {g : α → Option α} (ht : Tagged f T)
    (h : T.exec k p g = some T') (hg : ∀ x y, g x = some y → f x = f y) :
    Tagged f T' ∧ Inherits f N (values T.row) (values T'.row) := by
  rcases Table.exec_spec h with rfl | ⟨x, hx, _, hl, rfl⟩
  · exact ⟨ht, of_subset subset_rfl⟩
  · exact ⟨tagged_row ht hl, values_update fun y hy => Or.inl ⟨x, ⟨k, hx⟩, hg x y hy⟩⟩

theorem tagged_put {k : κ} {x : α} (ht : Tagged f T) (hl : T.lock k = none) (hx : f x ∈ N) :
    Tagged f (T.put k x) ∧ Inherits f N (values T.row) (values (T.put k x).row) := by
  refine ⟨tagged_row ht hl, values_update fun y hy => Or.inr ?_⟩
  rw [← Option.some.inj hy]
  exact hx

omit [DecidableEq κ] in
theorem tagged_mapRows {g : κ → α → α} (ht : Tagged f T) (hg : ∀ k x, f (g k x) = f x) :
    Tagged f (T.mapRows g) ∧ Inherits f N (values T.row) (values (T.mapRows g).row) := by
  constructor
  · intro k i v hv
    obtain ⟨x, hx, hf⟩ := ht k i v hv
    exact ⟨g k x, congrArg (Option.map (g k)) hx, (hg k x).trans hf⟩
  · refine values_map fun k x hx => ?_
    obtain ⟨y, hy, rfl⟩ := Option.map_eq_some_iff.mp hx
    exact ⟨y, hy, (hg k y).symm⟩

/-- a lock that is given up says nothing any more -/
theorem tagged_unlock {k : κ} {o : Option α} (ht : Tagged f T) :
    Tagged f ⟨Function.update T.row k o, Function.update T.lock k none⟩ := by
  intro k' i v hv
  change Function.update T.lock k none k' = _ at hv
  by_cases e : k' = k
  · subst e
    rw [Function.update_self] at hv
    cases hv
  · rw [Function.update_of_ne e] at hv
    obtain ⟨x, hx, hf⟩ := ht k' i v hv
    exact ⟨x, (Function.update_of_ne e ..).trans hx, hf⟩

theorem tagged_commit (ht : Tagged f T) (i : Nat) (k : κ) :
    Tagged f (T.commit i k) ∧ Inherits f N (values T.row) (values (T.commit i k).row) := by
  rcases T.commit_spec i k with ⟨e, _⟩ | ⟨v, hv, e⟩
  · rw [e]
    exact ⟨ht, of_subset subset_rfl⟩
  · rw [e]
    refine ⟨tagged_unlock ht, values_update fun y hy => Or.inl ?_⟩
    subst hy
    obtain ⟨x, hx, hf⟩ := ht k i y hv
    exact ⟨x, ⟨k, hx⟩, hf⟩

theorem tagged_rollback (ht : Tagged f T) (i : Nat) (k : κ) :
    Tagged f (T.rollback i k) ∧ (T.rollback i k).row = T.row := by
  rcases T.rollback_spec i k with e | ⟨v, hv, e⟩
  · rw [e]
    exact ⟨ht, rfl⟩
  · rw [e]
    refine ⟨?_, rfl⟩
    have h := tagged_unlock (k := k) (o := T.row k) ht
    rw [Function.update_eq_self] at h
    exact h

end
end Inherit
