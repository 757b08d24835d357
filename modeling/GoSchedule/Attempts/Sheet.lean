import GoSchedule.Lib.Budget
import GoSchedule.Types

/-!
# What a store keeps of the attempts of a job

Every store keeps the state of a job, the attempts that have failed and the most that there may be.

* `Sheet`   these three columns;  `none` is a job that is not stored;
* `Move o c r o'`   all that a call does to them, with the number of claims and of recoveries;
* `reserve`   the claims that are left: a pending job can be claimed for each attempt left, one that is
  claimed has used one of them;
* `claims_le`   **a job that was saved with no attempt is claimed at most as often as it may be tried,
  and once more for each recovery**, in any system whose steps are such moves.
-/

namespace GS.Attempts
open Trans

structure Sheet where
  state : State
  attempt : Int
  maxAttempts : Int
deriving DecidableEq, Repr

namespace Sheet

def into (c : Sheet) (st : State) : Sheet := { c with state := st }

def retried (c : Sheet) : Sheet := { c with state := statePending, attempt := c.attempt + 1 }

end Sheet

inductive Move : Option Sheet → Nat → Nat → Option Sheet → Prop
  | same (o : Option Sheet) : Move o 0 0 o
  | gone (o : Option Sheet) : Move o 0 0 none
  | claim {c : Sheet} (h : c.state = statePending) : Move (some c) 1 0 (some (c.into stateClaimed))
  | retry {c : Sheet} (h : c.state = stateClaimed)
      (hlt : ¬ (0 < c.maxAttempts ∧ c.maxAttempts ≤ c.attempt + 1)) :
      Move (some c) 0 0 (some c.retried)
  | recover {c : Sheet} (h : c.state = stateClaimed) :
      Move (some c) 0 1 (some (c.into statePending))

/-- an attempt is left -/
def Open (o : Option Sheet) : Prop :=
  ∀ c, o = some c → 0 < c.maxAttempts ∧ c.attempt < c.maxAttempts

def reserve : Option Sheet → Nat
  | none => 0
  | some c =>
    if c.state = statePending then (c.maxAttempts - c.attempt).toNat
    else (c.maxAttempts - c.attempt - 1).toNat

theorem reserve_pending {c : Sheet} (h : c.state = statePending) :
    reserve (some c) = (c.maxAttempts - c.attempt).toNat := if_pos h

theorem reserve_claimed {c : Sheet} (h : c.state = stateClaimed) :
    reserve (some c) = (c.maxAttempts - c.attempt - 1).toNat := by
  refine if_neg ?_
  rw [h]
  decide

theorem reserve_le (c : Sheet) : reserve (some c) ≤ (c.maxAttempts - c.attempt).toNat := by
  unfold reserve
  dsimp only
  split
  · exact le_rfl
  · omega

/-- a move spends at most what it takes from the reserve and what a recovery pays in -/
theorem Move.pays {o o' : Option Sheet} {n r : Nat} (h : Move o n r o') (ho : Open o) :
    Open o' ∧ n + reserve o' ≤ reserve o + r := by
  cases h with
  | same => exact ⟨ho, by omega⟩
  | gone => exact ⟨fun _ e => (nomatch e), by simp [reserve]⟩
  | claim h =>
    rename_i c
    obtain ⟨h0, hlt⟩ := ho c rfl
    refine ⟨fun c' e => ?_, ?_⟩
    · rw [← Option.some.inj e]
      exact ⟨h0, hlt⟩
    · rw [reserve_pending h, reserve_claimed (c := c.into stateClaimed) rfl]
      show 1 + (c.maxAttempts - c.attempt - 1).toNat ≤ _
      omega
  | retry h hlast =>
    rename_i c
    obtain ⟨h0, _⟩ := ho c rfl
    have hlt : c.attempt + 1 < c.maxAttempts := by
      by_contra hle
      exact hlast ⟨h0, not_lt.mp hle⟩
    refine ⟨fun c' e => ?_, ?_⟩
    · rw [← Option.some.inj e]
      exact ⟨h0, hlt⟩
    · rw [reserve_claimed h, reserve_pending (c := c.retried) rfl]
      show 0 + (c.maxAttempts - (c.attempt + 1)).toNat ≤ _
      omega
  | recover h =>
    rename_i c
    refine ⟨fun c' e => ?_, ?_⟩
    · rw [← Option.some.inj e]
      exact ho c rfl
    · rw [reserve_claimed h, reserve_pending (c := c.into statePending) rfl]
      show 0 + (c.maxAttempts - c.attempt).toNat ≤ _
      omega

section
variable {σ ℓ : Type*} {step : σ → ℓ → Option σ} {C : σ → ℓ → Prop} {R : σ → Option Sheet → Prop}
  {claims recoveries : σ → ℓ → Nat}

/-- **The number of claims**, in a system that keeps such a sheet. -/
theorem claims_le
    (hstep : ∀ s a t o, R s o → Open o → C s a → step s a = some t →
      ∃ o', R t o' ∧ Move o (claims s a) (recoveries s a) o')
    {s t : σ} {l : List ℓ} {c : Sheet} (hs : R s (some c)) (h0 : c.attempt = 0)
    (hmax : 0 < c.maxAttempts) (hm : Meets step C s l) (h : run step s l = some t) :
    total step claims s l ≤ c.maxAttempts.toNat + total step recoveries s l := by
  have hopen : Open (some c) := by
    intro c' e
    rw [← Option.some.inj e]
    exact ⟨hmax, by omega⟩
  have hpay : ∀ s a t o, (R s o ∧ Open o) → C s a → step s a = some t →
      ∃ o', (R t o' ∧ Open o') ∧ claims s a + reserve o' ≤ reserve o + recoveries s a := by
    intro s a t o ho hC hst
    obtain ⟨o', hR, hmove⟩ := hstep s a t o ho.1 ho.2 hC hst
    obtain ⟨hopen', hle⟩ := hmove.pays ho.2
    exact ⟨o', ⟨hR, hopen'⟩, hle⟩
  obtain ⟨o', _, hle⟩ := amortize hpay ⟨hs, hopen⟩ hm h
  have hres := reserve_le c
  rw [h0, Int.sub_zero] at hres
  omega

end
end GS.Attempts
