import Mathlib

/-!
# Runs of a labelled step function

A system is a function `step : σ → ℓ → Option σ`: the label `a` says who moves and with which
outcome, `none` says that the move is not possible.

* `run step s l`       the state after the moves `l`, `none` if one of them is not possible;
* `Meets step C s l`   every move of `l` is made in a state where `C` holds of it: `meets_iff`;
* `run_keep`           what every step (that meets `C`) keeps, every run (that meets `C`) keeps;
* `run_flatMap`        a system each of whose steps is a run of another one.
-/

namespace Trans

section
variable {σ ℓ : Type*} (step : σ → ℓ → Option σ)

def run : σ → List ℓ → Option σ
  | s, [] => some s
  | s, a :: l => (step s a).bind fun t => run t l

/-- the condition `C` on a move, read in the state before it, along a whole run -/
def Meets (C : σ → ℓ → Prop) : σ → List ℓ → Prop
  | _, [] => True
  | s, a :: l => C s a ∧ ∀ t, step s a = some t → Meets C t l

instance Meets.decidable (C : σ → ℓ → Prop) [∀ s a, Decidable (C s a)] :
    ∀ s l, Decidable (Meets step C s l)
  | _, [] => isTrue trivial
  | s, a :: l =>
    match h : step s a with
    | none => decidable_of_iff (C s a)
        ⟨fun hc => ⟨hc, fun t ht => by rw [h] at ht; cases ht⟩, And.left⟩
    | some t =>
      have := Meets.decidable C t l
      decidable_of_iff (C s a ∧ Meets step C t l)
        ⟨fun hc => ⟨hc.1, fun u hu => by rw [← Option.some.inj (h.symm.trans hu)]; exact hc.2⟩,
          fun hc => ⟨hc.1, hc.2 t h⟩⟩

variable {step}

theorem run_cons {s t : σ} {a : ℓ} {l : List ℓ} :
    run step s (a :: l) = some t ↔ ∃ u, step s a = some u ∧ run step u l = some t :=
  Option.bind_eq_some_iff

theorem run_append {s t : σ} {l l' : List ℓ} :
    run step s (l ++ l') = some t ↔ ∃ u, run step s l = some u ∧ run step u l' = some t := by
  induction l generalizing s with
  | nil => simp [run]
  | cons a l ih =>
    rw [List.cons_append, run_cons]
    constructor
    · rintro ⟨u, hu, h⟩
      obtain ⟨v, hv, h'⟩ := ih.mp h
      exact ⟨v, run_cons.mpr ⟨u, hu, hv⟩, h'⟩
    · rintro ⟨v, hv, h'⟩
      obtain ⟨u, hu, h⟩ := run_cons.mp hv
      exact ⟨u, hu, ih.mpr ⟨v, h, h'⟩⟩

theorem Meets.append {C : σ → ℓ → Prop} {s t : σ} {l l' : List ℓ} (hm : Meets step C s (l ++ l'))
    (h : run step s l = some t) : Meets step C s l ∧ Meets step C t l' := by
  induction l generalizing s with
  | nil => cases h; exact ⟨trivial, hm⟩
  | cons a l ih =>
    obtain ⟨u, hu, h⟩ := run_cons.mp h
    obtain ⟨h1, h2⟩ := ih (hm.2 u hu) h
    refine ⟨⟨hm.1, fun v hv => ?_⟩, h2⟩
    obtain rfl := Option.some.inj (hu.symm.trans hv)
    exact h1

/-- a condition along a run is one on every move and the state in which it is made -/
theorem meets_iff {C : σ → ℓ → Prop} {s : σ} {l : List ℓ} : Meets step C s l ↔
    ∀ l₁ a l₂ t, l = l₁ ++ a :: l₂ → run step s l₁ = some t → C t a := by
  constructor
  · intro hm l₁ a l₂ t e h
    exact ((e ▸ hm).append h).2.1
  · intro h
    induction l generalizing s with
    | nil => trivial
    | cons a l ih =>
      refine ⟨h [] a l s rfl rfl, fun t ht => ih fun l₁ b l₂ u e hu => ?_⟩
      exact h (a :: l₁) b l₂ u (congrArg (a :: ·) e) (run_cons.mpr ⟨t, ht, hu⟩)

theorem meets_of_forall {C : σ → ℓ → Prop} {s : σ} {l : List ℓ} (h : ∀ a ∈ l, ∀ s, C s a) :
    Meets step C s l := by
  refine meets_iff.mpr fun l₁ a l₂ t e _ => h a ?_ t
  rw [e]
  exact List.mem_append_right _ List.mem_cons_self

theorem Meets.and_forall {C : σ → ℓ → Prop} {D : ℓ → Prop} {s : σ} {l : List ℓ}
    (hm : Meets step C s l) (h : ∀ a ∈ l, D a) : Meets step (fun s a => C s a ∧ D a) s l := by
  refine meets_iff.mpr fun l₁ a l₂ t e ht => ⟨meets_iff.mp hm l₁ a l₂ t e ht, h a ?_⟩
  rw [e]
  exact List.mem_append_right _ List.mem_cons_self

/-- **Invariants of conditional runs.** -/
theorem run_keep_of {C : σ → ℓ → Prop} {P : σ → Prop}
    (hstep : ∀ s a t, P s → C s a → step s a = some t → P t) {s t : σ} {l : List ℓ}
    (hm : Meets step C s l) (hs : P s) (h : run step s l = some t) : P t := by
  induction l generalizing s with
  | nil => cases h; exact hs
  | cons a l ih =>
    obtain ⟨u, hu, h⟩ := run_cons.mp h
    exact ih (hm.2 u hu) (hstep s a u hs hm.1 hu) h

/-- **Invariants of all runs.** -/
theorem run_keep {P : σ → Prop} (hstep : ∀ s a t, P s → step s a = some t → P t)
    {s t : σ} {l : List ℓ} (hs : P s) (h : run step s l = some t) : P t := by
  induction l generalizing s with
  | nil => cases h; exact hs
  | cons a l ih =>
    obtain ⟨u, hu, h⟩ := run_cons.mp h
    exact ih (hstep s a u hs hu) h

/-- **Projection of runs.** -/
theorem run_flatMap {σ' ℓ' : Type*} {step' : σ' → ℓ' → Option σ'} {f : σ → σ'} {g : ℓ → List ℓ'}
    (hstep : ∀ s a t, step s a = some t → run step' (f s) (g a) = some (f t)) {s t : σ} {l : List ℓ}
    (h : run step s l = some t) : run step' (f s) (l.flatMap g) = some (f t) := by
  induction l generalizing s with
  | nil => cases h; rfl
  | cons a l ih =>
    obtain ⟨u, hu, h⟩ := run_cons.mp h
    exact run_append.mpr ⟨f u, hstep s a u hu, ih h⟩

end
end Trans
