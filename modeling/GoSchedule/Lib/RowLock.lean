import Mathlib

/-!
# A table with row locks

A table keeps for each key the row that was committed last, and for a row that an open transaction has
written the number of the transaction and the version that it would commit.  Statements read committed
rows, and a statement that would write a locked row waits.

* `update T i k p f`   the transaction `i` writes `f` to the row of `k` if the row meets `p`: `none` if
  it has to wait, else the new table and the row that was affected;
* `exec T k p f`       the same as a transaction of its own;
* `put T k x`, `mapRows T f`   an upsert and a statement on many rows, as transactions of their own;
* `commit T i k`, `rollback T i k`   the transaction ends, with its write of `k` or without it.
-/

namespace RowLock

structure Table (κ ν : Type*) where
  row : κ → Option ν
  lock : κ → Option (Nat × Option ν)

namespace Table

section
variable {κ ν : Type*} [DecidableEq κ]

def empty : Table κ ν := ⟨fun _ => none, fun _ => none⟩

def update (T : Table κ ν) (i : Nat) (k : κ) (p : ν → Bool) (f : ν → Option ν) :
    Option (Table κ ν × Option ν) :=
  match T.row k with
  | none => some (T, none)
  | some x =>
    if p x then
      match T.lock k with
      | none => some ({ T with lock := Function.update T.lock k (some (i, f x)) }, some x)
      | some _ => none
    else some (T, none)

def exec (T : Table κ ν) (k : κ) (p : ν → Bool) (f : ν → Option ν) : Option (Table κ ν) :=
  match T.row k with
  | none => some T
  | some x =>
    if p x then
      match T.lock k with
      | none => some { T with row := Function.update T.row k (f x) }
      | some _ => none
    else some T

def put (T : Table κ ν) (k : κ) (x : ν) : Table κ ν :=
  { T with row := Function.update T.row k (some x) }

def mapRows (T : Table κ ν) (f : κ → ν → ν) : Table κ ν :=
  { T with row := fun k => (T.row k).map (f k) }

def commit (T : Table κ ν) (i : Nat) (k : κ) : Table κ ν :=
  match T.lock k with
  | some (o, v) =>
    if o = i then ⟨Function.update T.row k v, Function.update T.lock k none⟩ else T
  | none => T

def rollback (T : Table κ ν) (i : Nat) (k : κ) : Table κ ν :=
  match T.lock k with
  | some (o, _) => if o = i then { T with lock := Function.update T.lock k none } else T
  | none => T

variable {T T' : Table κ ν} {i : Nat} {k : κ} {p : ν → Bool} {f : ν → Option ν} {was : Option ν}

/-- a statement touches nothing, or locks the row that it found -/
theorem update_spec (h : T.update i k p f = some (T', was)) :
    T' = T ∧ was = none ∧ (∀ x, T.row k = some x → p x = false) ∨
      ∃ x, T.row k = some x ∧ p x = true ∧ T.lock k = none ∧ was = some x ∧
        T' = { T with lock := Function.update T.lock k (some (i, f x)) } := by
  unfold update at h
  split at h
  · rename_i hr
    cases h
    exact Or.inl ⟨rfl, rfl, fun x hx => by rw [hr] at hx; cases hx⟩
  · rename_i x hr
    split at h
    · rename_i hp
      split at h
      · rename_i hl
        cases h
        exact Or.inr ⟨x, hr, hp, hl, rfl, rfl⟩
      · cases h
    · rename_i hp
      cases h
      refine Or.inl ⟨rfl, rfl, fun y hy => ?_⟩
      rw [hr] at hy
      rw [← Option.some.inj hy]
      exact Bool.not_eq_true _ ▸ hp

/-- and so does one that is a transaction of its own -/
theorem exec_spec (h : T.exec k p f = some T') :
    T' = T ∨ ∃ x, T.row k = some x ∧ p x = true ∧ T.lock k = none ∧
      T' = { T with row := Function.update T.row k (f x) } := by
  unfold exec at h
  split at h
  · cases h
    exact Or.inl rfl
  · rename_i x hr
    split at h
    · rename_i hp
      split at h
      · rename_i hl
        cases h
        exact Or.inr ⟨x, hr, hp, hl, rfl⟩
      · cases h
    · cases h
      exact Or.inl rfl

/-- a commit touches nothing, or writes the version that the transaction had locked -/
theorem commit_spec (T : Table κ ν) (i : Nat) (k : κ) :
    T.commit i k = T ∧ (∀ v, T.lock k ≠ some (i, v)) ∨
      ∃ v, T.lock k = some (i, v) ∧
        T.commit i k = ⟨Function.update T.row k v, Function.update T.lock k none⟩ := by
  unfold commit
  split
  · rename_i o v hl
    split
    · rename_i e
      subst e
      exact Or.inr ⟨v, hl, rfl⟩
    · rename_i e
      refine Or.inl ⟨rfl, fun v' h => e ?_⟩
      rw [hl] at h
      exact congrArg Prod.fst (Option.some.inj h)
  · rename_i hl
    exact Or.inl ⟨rfl, fun v' h => by rw [hl] at h; cases h⟩

theorem rollback_spec (T : Table κ ν) (i : Nat) (k : κ) :
    T.rollback i k = T ∨
      ∃ v, T.lock k = some (i, v) ∧
        T.rollback i k = { T with lock := Function.update T.lock k none } := by
  unfold rollback
  split
  · rename_i o v hl
    split
    · rename_i e
      subst e
      exact Or.inr ⟨v, hl, rfl⟩
    · exact Or.inl rfl
  · exact Or.inl rfl

/-- after a rollback the transaction has no lock on the row -/
theorem rollback_free (T : Table κ ν) (i : Nat) (k : κ) (v : Option ν) :
    (T.rollback i k).lock k ≠ some (i, v) := by
  intro h
  unfold rollback at h
  split at h
  · rename_i o w hl
    split at h
    · change Function.update T.lock k none k = _ at h
      rw [Function.update_self] at h
      cases h
    · rename_i e
      rw [hl] at h
      exact e (congrArg Prod.fst (Option.some.inj h))
  · rename_i hl
    rw [hl] at h
    cases h

end
end Table
end RowLock
