import GoSchedule.Lib.Run

/-!
# Moves that spend and moves that pay

* `total step w s l`   the weights `w` of the moves of a run, added up;
* `amortize`           if every move spends at most what it takes from a reserve and what it pays in,
  then so does every run.  The reserve is read from an abstract state that the moves keep (`R`).
-/

namespace Trans

section
variable {σ ℓ β : Type*} (step : σ → ℓ → Option σ)

def total (w : σ → ℓ → Nat) : σ → List ℓ → Nat
  | _, [] => 0
  | s, a :: l => w s a + ((step s a).map fun t => total w t l).getD 0

variable {step}

theorem total_cons (w : σ → ℓ → Nat) {s t : σ} {a : ℓ} (l : List ℓ) (h : step s a = some t) :
    total step w s (a :: l) = w s a + total step w t l := by
  show w s a + ((step s a).map fun t => total step w t l).getD 0 = _
  rw [h]
  rfl

/-- a system in which every move is possible runs on -/
theorem exists_run (h : ∀ s a, ∃ t, step s a = some t) (s : σ) (l : List ℓ) :
    ∃ t, run step s l = some t := by
  induction l generalizing s with
  | nil => exact ⟨s, rfl⟩
  | cons a l ih =>
    obtain ⟨u, hu⟩ := h s a
    obtain ⟨t, ht⟩ := ih u
    exact ⟨t, run_cons.mpr ⟨u, hu, ht⟩⟩

theorem amortize {C : σ → ℓ → Prop} {R : σ → β → Prop} {reserve : β → Nat} {spent paid : σ → ℓ → Nat}
    (hstep : ∀ s a t x, R s x → C s a → step s a = some t →
      ∃ y, R t y ∧ spent s a + reserve y ≤ reserve x + paid s a)
    {s t : σ} {l : List ℓ} {x : β} (hx : R s x) (hm : Meets step C s l) (h : run step s l = some t) :
    ∃ y, R t y ∧ total step spent s l + reserve y ≤ reserve x + total step paid s l := by
  induction l generalizing s x with
  | nil =>
    obtain rfl := Option.some.inj h
    exact ⟨x, hx, by simp [total]⟩
  | cons a l ih =>
    obtain ⟨u, hu, h⟩ := run_cons.mp h
    obtain ⟨y, hy, hle⟩ := hstep s a u x hx hm.1 hu
    obtain ⟨z, hz, hle'⟩ := ih hy (hm.2 u hu) h
    refine ⟨z, hz, ?_⟩
    rw [total_cons spent l hu, total_cons paid l hu]
    omega

end
end Trans
