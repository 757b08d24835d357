import Mathlib

/-!
# Histories of calls, and simulation

A component is a relation `step s o r t`: the call `o` in the state `s` can return `r` and leave the
state `t`.  A history is the list of calls with their results, the oldest first.

* `Runs step s h t`        the history `h` leads from `s` to `t`;
* `Runs.keep`              what every call keeps, every history keeps;
* `Runs.of_snoc`, `Runs.split`, `Runs.of_cons`   a history in parts;
* `Runs.map`               a history under other names;
* `Simulates R stepC stepA`   in related states, what `stepC` can do `stepA` can do too, with the same
  result, and the states stay related;
* `Runs.simulate`          then every history of the one is a history of the other.
-/

namespace Sim

section
variable {σ τ ω ρ : Type*}

inductive Runs (step : σ → ω → ρ → σ → Prop) (s : σ) : List (ω × ρ) → σ → Prop
  | nil : Runs step s [] s
  | snoc {h : List (ω × ρ)} {t u : σ} {o : ω} {r : ρ} (hr : Runs step s h t) (hs : step t o r u) :
      Runs step s (h ++ [(o, r)]) u

variable {step : σ → ω → ρ → σ → Prop}

/-- **Invariants of histories**: `P` may speak of the history so far. -/
theorem Runs.keep {P : List (ω × ρ) → σ → Prop}
    (hstep : ∀ h t o r u, P h t → step t o r u → P (h ++ [(o, r)]) u) {s t : σ}
    {h : List (ω × ρ)} (hs : P [] s) (hr : Runs step s h t) : P h t := by
  induction hr with
  | nil => exact hs
  | snoc _ hu ih => exact hstep _ _ _ _ _ ih hu

theorem Runs.eq_of_nil {s t : σ} (hr : Runs step s [] t) : t = s := by
  generalize hl : [] = l at hr
  cases hr with
  | nil => rfl
  | snoc => exact absurd hl (by simp)

theorem Runs.of_snoc {s u : σ} {h : List (ω × ρ)} {e : ω × ρ} (hr : Runs step s (h ++ [e]) u) :
    ∃ t, Runs step s h t ∧ step t e.1 e.2 u := by
  generalize hl : h ++ [e] = l at hr
  cases hr with
  | nil => exact absurd hl (by simp)
  | snoc hr hs =>
    obtain ⟨h1, h2⟩ := List.append_inj' hl rfl
    obtain rfl := (List.cons.inj h2).1
    subst h1
    exact ⟨_, hr, hs⟩

theorem Runs.split {s u : σ} {h h' : List (ω × ρ)} (hr : Runs step s (h ++ h') u) :
    ∃ t, Runs step s h t ∧ Runs step t h' u := by
  induction h' using List.reverseRecOn generalizing u with
  | nil =>
    rw [List.append_nil] at hr
    exact ⟨u, hr, .nil⟩
  | append_singleton h' e ih =>
    rw [← List.append_assoc] at hr
    obtain ⟨v, hv, hs⟩ := hr.of_snoc
    obtain ⟨t, ht, hu⟩ := ih hv
    exact ⟨t, ht, .snoc hu hs⟩

theorem Runs.of_cons {s u : σ} {h : List (ω × ρ)} {e : ω × ρ} (hr : Runs step s (e :: h) u) :
    ∃ t, step s e.1 e.2 t ∧ Runs step t h u := by
  obtain ⟨t, ht, hu⟩ := Runs.split (h := [e]) hr
  obtain ⟨v, hv, hs⟩ := Runs.of_snoc (h := []) ht
  rw [hv.eq_of_nil] at hs
  exact ⟨t, hs, hu⟩

/-- calls and results under other names -/
theorem Runs.map {ω' ρ' : Type*} {f : ω → ω'} {g : ρ → ρ'} {stepA : σ → ω' → ρ' → σ → Prop} {s t : σ}
    {h : List (ω × ρ)} (hr : Runs (fun s o r t => stepA s (f o) (g r) t) s h t) :
    Runs stepA s (h.map (Prod.map f g)) t := by
  induction hr with
  | nil => exact .nil
  | snoc _ hs ih =>
    rw [List.map_append]
    exact .snoc ih hs

/-- the relation `R` carries every call of `stepC` over to `stepA` -/
def Simulates (R : σ → τ → Prop) (stepC : σ → ω → ρ → σ → Prop) (stepA : τ → ω → ρ → τ → Prop) :
    Prop :=
  ∀ s a o r t, R s a → stepC s o r t → ∃ b, stepA a o r b ∧ R t b

/-- **Simulation**: every history of the concrete component is one of the abstract component. -/
theorem Runs.simulate {R : σ → τ → Prop} {stepA : τ → ω → ρ → τ → Prop}
    (hsim : Simulates R step stepA) {s t : σ} {a : τ} (hR : R s a) {h : List (ω × ρ)}
    (hr : Runs step s h t) : ∃ b, Runs stepA a h b ∧ R t b := by
  induction hr with
  | nil => exact ⟨a, .nil, hR⟩
  | snoc _ hs ih =>
    obtain ⟨b, hb, hRb⟩ := ih
    obtain ⟨c, hc, hRc⟩ := hsim _ _ _ _ _ hRb hs
    exact ⟨c, .snoc hb hc, hRc⟩

end
end Sim
