import Mathlib

/-!
# Values that expire

A map whose entries have an end.  A value is there until then, and it can be replaced before that only by
an owner that holds it.

* `get m now k`   the value of a key at a time;
* `set m k v e`   the value `v` until `e`, whatever was there;
* `acquire m now k v e`   takes the key for `v` until `e`, if nobody else has it;
* `acquire_refused`   until its end an entry keeps everybody else out, and nothing is changed;
* `acquire_expired`   from then on everybody gets it.
-/

structure Expiring (κ ν τ : Type*) where
  entry : κ → Option (ν × τ)

namespace Expiring

section
variable {κ ν τ : Type*} [DecidableEq κ] [LinearOrder τ]

def empty : Expiring κ ν τ := ⟨fun _ => none⟩

def get (m : Expiring κ ν τ) (now : τ) (k : κ) : Option ν :=
  (m.entry k).bind fun p => if now < p.2 then some p.1 else none

def set (m : Expiring κ ν τ) (k : κ) (v : ν) (e : τ) : Expiring κ ν τ :=
  ⟨Function.update m.entry k (some (v, e))⟩

def acquire [DecidableEq ν] (m : Expiring κ ν τ) (now : τ) (k : κ) (v : ν) (e : τ) :
    Expiring κ ν τ × Bool :=
  if m.get now k = none ∨ m.get now k = some v then (m.set k v e, true) else (m, false)

variable {m : Expiring κ ν τ} {k : κ} {v : ν} {e : τ} {now : τ}

omit [DecidableEq κ] in
theorem get_of_lt (h : m.entry k = some (v, e)) (ht : now < e) : m.get now k = some v := by
  unfold get
  rw [h]
  exact if_pos ht

omit [DecidableEq κ] in
theorem get_of_le (h : m.entry k = some (v, e)) (ht : e ≤ now) : m.get now k = none := by
  unfold get
  rw [h]
  exact if_neg (not_lt.mpr ht)

variable [DecidableEq ν]

/-- an acquire changes the entry of its own key only -/
theorem entry_acquire_ne {i : κ} (h : i ≠ k) : (m.acquire now k v e).1.entry i = m.entry i := by
  unfold acquire
  split
  · exact Function.update_of_ne h _ _
  · rfl

theorem entry_acquire (h : (m.acquire now k v e).2 = true) :
    (m.acquire now k v e).1.entry k = some (v, e) := by
  unfold acquire at h ⊢
  split at h
  · next hfree =>
    rw [if_pos hfree]
    exact Function.update_self _ _ _
  · cases h

theorem acquire_refused (h : m.entry k = some (v, e)) (ht : now < e) {w : ν} (hw : w ≠ v) (e' : τ) :
    m.acquire now k w e' = (m, false) := by
  refine if_neg ?_
  rw [get_of_lt h ht]
  intro hfree
  rcases hfree with hfree | hfree
  · cases hfree
  · exact hw (Option.some.inj hfree).symm

theorem acquire_expired (h : m.entry k = some (v, e)) (ht : e ≤ now) (w : ν) (e' : τ) :
    (m.acquire now k w e').2 = true := by
  unfold acquire
  rw [if_pos (Or.inl (get_of_le h ht))]

end
end Expiring
