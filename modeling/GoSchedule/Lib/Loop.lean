import Mathlib

/-!
# A loop that runs until its variable passes a test

`for !stop(x) { x = f(x) }` as a function of a fuel, and when it comes to an end.

* `loop f stop n x`   the value at which the loop stops, `none` if `n` rounds are not enough;
* `Halts f stop x`    some number of rounds is enough;
* `loop_keep`         what every round keeps holds at the end;
* `halts_of_measure`  it halts if every round keeps `I` and lowers a measure;
* `not_halts_of_trap` it does not halt if `I` holds at the start, is kept, and excludes the exit.
-/

namespace Loop

section
variable {α : Type*} (f : α → α) (stop : α → Bool)

def loop : Nat → α → Option α
  | 0, x => if stop x then some x else none
  | n + 1, x => if stop x then some x else loop n (f x)

def Halts (x : α) : Prop := ∃ n y, loop f stop n x = some y

variable {f stop}

theorem loop_stop {n : Nat} {x : α} (h : stop x = true) : loop f stop n x = some x := by
  cases n <;> simp [loop, h]

theorem loop_succ {n : Nat} {x : α} (h : stop x = false) :
    loop f stop (n + 1) x = loop f stop n (f x) := by
  simp [loop, h]

/-- more rounds change nothing -/
theorem loop_mono {m n : Nat} (hmn : m ≤ n) {x y : α} (h : loop f stop m x = some y) :
    loop f stop n x = some y := by
  induction m generalizing n x with
  | zero =>
    obtain ⟨hs, e⟩ := Option.ite_none_right_eq_some.mp h
    rw [loop_stop hs]
    exact e
  | succ m ih =>
    obtain ⟨n, rfl⟩ : ∃ n', n = n' + 1 := ⟨n - 1, by omega⟩
    cases hs : stop x with
    | true =>
      rw [loop_stop hs] at h ⊢
      exact h
    | false =>
      rw [loop_succ hs] at h ⊢
      exact ih (Nat.le_of_succ_le_succ hmn) h

/-- the value the loop ends with has passed the test -/
theorem loop_sound {n : Nat} {x y : α} (h : loop f stop n x = some y) : stop y = true := by
  induction n generalizing x with
  | zero =>
    cases hs : stop x <;> simp [loop, hs] at h
    exact h ▸ hs
  | succ n ih =>
    cases hs : stop x with
    | true =>
      rw [loop_stop hs] at h
      exact Option.some.inj h ▸ hs
    | false =>
      rw [loop_succ hs] at h
      exact ih h

/-- what every round keeps holds where the loop ends -/
theorem loop_keep {P : α → Prop} (hf : ∀ x, P x → P (f x)) {n : Nat} {x y : α} (hx : P x)
    (h : loop f stop n x = some y) : P y := by
  induction n generalizing x with
  | zero =>
    obtain ⟨_, e⟩ := Option.ite_none_right_eq_some.mp h
    exact Option.some.inj e ▸ hx
  | succ n ih =>
    cases hs : stop x with
    | true =>
      rw [loop_stop hs] at h
      exact Option.some.inj h ▸ hx
    | false =>
      rw [loop_succ hs] at h
      exact ih (hf x hx) h

theorem halts_of_stop {x : α} (h : stop x = true) : Halts f stop x := ⟨0, x, loop_stop h⟩

theorem halts_of_next {x : α} (h : stop x = false) (hn : Halts f stop (f x)) : Halts f stop x := by
  obtain ⟨n, y, e⟩ := hn
  exact ⟨n + 1, y, by rw [loop_succ h, e]⟩

/-- **The loop ends** if every round that does not stop keeps `I` and lowers `m`. -/
theorem halts_of_measure {I : α → Prop} (m : α → Nat)
    (h : ∀ x, I x → stop x = false → I (f x) ∧ m (f x) < m x) {x : α} (hx : I x) :
    Halts f stop x := by
  induction hk : m x using Nat.strong_induction_on generalizing x with
  | _ k ih =>
    cases hs : stop x with
    | true => exact halts_of_stop hs
    | false =>
      obtain ⟨h1, h2⟩ := h x hx hs
      exact halts_of_next hs (ih _ (hk ▸ h2) h1 rfl)

/-- **The loop never ends** if `I` is kept by every round and excludes the exit. -/
theorem not_halts_of_trap {I : α → Prop} (h : ∀ x, I x → stop x = false ∧ I (f x)) {x : α}
    (hx : I x) : ¬ Halts f stop x := by
  rintro ⟨n, y, e⟩
  induction n generalizing x with
  | zero => simp [loop, (h x hx).1] at e
  | succ n ih =>
    rw [loop_succ (h x hx).1] at e
    exact ih (h x hx).2 e

end
end Loop
