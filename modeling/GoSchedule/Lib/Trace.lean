import GoSchedule.Lib.Run

/-!
# What a run puts out

* `run_snoc`        a run with one more move;
* `run_induct`      induction over a run from its start: what is said may speak of the moves so far;
* `outputs w s l`   what the moves of a run put out, in order; `w` says what a move puts out in the
  state in which it is made.
-/

namespace Trans

section
variable {σ ℓ β : Type*} (step : σ → ℓ → Option σ)

def outputs (w : σ → ℓ → List β) : σ → List ℓ → List β
  | _, [] => []
  | s, a :: l => w s a ++ ((step s a).map fun t => outputs w t l).getD []

variable {step}

theorem run_snoc {s t : σ} {l : List ℓ} {a : ℓ} :
    run step s (l ++ [a]) = some t ↔ ∃ u, run step s l = some u ∧ step u a = some t := by
  rw [run_append]
  refine exists_congr fun u => and_congr_right fun _ => ?_
  rw [run_cons]
  constructor
  · rintro ⟨v, hv, e⟩
    exact Option.some.inj e ▸ hv
  · intro h
    exact ⟨t, h, rfl⟩

theorem run_induct {s₀ : σ} {P : List ℓ → σ → Prop} (h0 : P [] s₀)
    (hstep : ∀ l s a t, run step s₀ l = some s → P l s → step s a = some t → P (l ++ [a]) t)
    {l : List ℓ} {t : σ} (h : run step s₀ l = some t) : P l t := by
  induction l using List.reverseRecOn generalizing t with
  | nil =>
    obtain rfl := Option.some.inj h
    exact h0
  | append_singleton l a ih =>
    obtain ⟨u, hu, ht⟩ := run_snoc.mp h
    exact hstep l u a t hu (ih hu) ht

theorem outputs_snoc (w : σ → ℓ → List β) {s t : σ} {l : List ℓ} (a : ℓ)
    (h : run step s l = some t) : outputs step w s (l ++ [a]) = outputs step w s l ++ w t a := by
  induction l generalizing s with
  | nil =>
    obtain rfl := Option.some.inj h
    show w s a ++ ((step s a).map fun _ => []).getD [] = w s a
    cases step s a <;> simp
  | cons b l ih =>
    obtain ⟨u, hu, h⟩ := run_cons.mp h
    show w s b ++ ((step s b).map fun t => outputs step w t (l ++ [a])).getD [] =
      w s b ++ ((step s b).map fun t => outputs step w t l).getD [] ++ w t a
    rw [hu, Option.map_some, Option.map_some, Option.getD_some, Option.getD_some, ih h,
      List.append_assoc]

end
end Trans
