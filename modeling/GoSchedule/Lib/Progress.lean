import GoSchedule.Lib.Run

/-!
# Runs that make progress

* `exists_run_of_progress`   if every state has a move that lowers a measure, as long as it is not
  zero, then a run of at most that many moves brings it to zero;
* `length_le_of_lowers`   if every move lowers it, then no run is longer.

The moves can be chosen from a class (`I`), and the states can be kept in an invariant (`P`).
-/

namespace Trans

section
variable {σ ℓ : Type*} {step : σ → ℓ → Option σ}

theorem exists_run_of_progress {P : σ → Prop} {I : ℓ → Prop} {μ : σ → Nat}
    (hstep : ∀ s, P s → 0 < μ s → ∃ a t, I a ∧ step s a = some t ∧ P t ∧ μ t < μ s)
    {s : σ} (hs : P s) :
    ∃ l t, (∀ a ∈ l, I a) ∧ l.length ≤ μ s ∧ run step s l = some t ∧ P t ∧ μ t = 0 := by
  induction hn : μ s using Nat.strong_induction_on generalizing s with
  | _ n ih =>
    subst hn
    by_cases h0 : μ s = 0
    · exact ⟨[], s, fun _ h => absurd h List.not_mem_nil, Nat.zero_le _, rfl, hs, h0⟩
    · obtain ⟨a, u, ha, hu, hPu, hlt⟩ := hstep s hs (Nat.pos_of_ne_zero h0)
      obtain ⟨l, t, hl, hle, hrun, hPt, h0t⟩ := ih (μ u) hlt hPu rfl
      refine ⟨a :: l, t, fun b hb => ?_, ?_, run_cons.mpr ⟨u, hu, hrun⟩, hPt, h0t⟩
      · rcases List.mem_cons.mp hb with rfl | hb
        · exact ha
        · exact hl b hb
      · rw [List.length_cons]
        omega

theorem length_le_of_lowers {P : σ → Prop} {I : ℓ → Prop} {μ : σ → Nat}
    (hstep : ∀ s a t, P s → I a → step s a = some t → P t ∧ μ t < μ s)
    {s t : σ} {l : List ℓ} (hl : ∀ a ∈ l, I a) (hs : P s) (h : run step s l = some t) :
    P t ∧ l.length + μ t ≤ μ s := by
  induction l generalizing s with
  | nil =>
    cases h
    exact ⟨hs, (Nat.zero_add _).le⟩
  | cons a l ih =>
    obtain ⟨u, hu, h⟩ := run_cons.mp h
    obtain ⟨hPu, hlt⟩ := hstep s a u hs (hl a List.mem_cons_self) hu
    obtain ⟨hPt, hle⟩ := ih (fun b hb => hl b (List.mem_cons_of_mem _ hb)) hPu h
    refine ⟨hPt, ?_⟩
    rw [List.length_cons]
    omega

end
end Trans
