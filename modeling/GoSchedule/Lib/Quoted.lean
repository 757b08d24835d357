import Mathlib

/-!
# Text between delimiters, with the delimiter doubled inside

* `doubled d s`   `s` with every `d` written twice;  `quoted d s`   the same between two `d`;
* `scan d t`      reads one quoted text from the front of `t`: a doubled `d` stands for one, a single `d`
  ends the text.  The result is what was read, and what is left;
* `scan_eq_some_iff`   **a text is read from `t` exactly if `t` starts with that text in quotes**, and no
  further `d` follows.
-/

namespace Quoted

section
variable {α : Type*} [DecidableEq α] (d : α)

def doubled (s : List α) : List α := s.flatMap fun c => if c = d then [d, d] else [c]

def quoted (s : List α) : List α := d :: (doubled d s ++ [d])

/-- what follows the opening delimiter -/
def scanBody : List α → Option (List α × List α)
  | [] => none
  | [c] => if c = d then some ([], []) else none
  | c :: c' :: cs =>
    if c = d then
      if c' = d then (scanBody cs).map (Prod.map (c :: ·) id) else some ([], c' :: cs)
    else (scanBody (c' :: cs)).map (Prod.map (c :: ·) id)

def scan : List α → Option (List α × List α)
  | [] => none
  | c :: cs => if c = d then scanBody d cs else none

variable {d}

theorem doubled_cons_self (s : List α) : doubled d (d :: s) = d :: d :: doubled d s := by
  simp [doubled]

theorem doubled_cons_of_ne {c : α} (h : c ≠ d) (s : List α) :
    doubled d (c :: s) = c :: doubled d s := by
  simp [doubled, h]

/-- a doubled delimiter is one of the text -/
theorem scanBody_doubled (cs : List α) :
    scanBody d (d :: d :: cs) = (scanBody d cs).map (Prod.map (d :: ·) id) := by
  rw [scanBody, if_pos rfl, if_pos rfl]

/-- a single one ends it -/
theorem scanBody_single {rest : List α} (h : rest.head? ≠ some d) :
    scanBody d (d :: rest) = some ([], rest) := by
  cases rest with
  | nil => rw [scanBody, if_pos rfl]
  | cons c cs =>
    have hc : c ≠ d := fun e => h (by rw [e]; rfl)
    rw [scanBody, if_pos rfl, if_neg hc]

theorem scanBody_of_ne {c : α} (h : c ≠ d) (cs : List α) :
    scanBody d (c :: cs) = (scanBody d cs).map (Prod.map (c :: ·) id) := by
  cases cs with
  | nil => exact if_neg h
  | cons c' cs => rw [scanBody, if_neg h]

theorem scanBody_complete (s : List α) {rest : List α} (h : rest.head? ≠ some d) :
    scanBody d (doubled d s ++ d :: rest) = some (s, rest) := by
  induction s with
  | nil => exact scanBody_single h
  | cons c s ih =>
    by_cases hc : c = d
    · rw [hc, doubled_cons_self, List.cons_append, List.cons_append, scanBody_doubled, ih]
      rfl
    · rw [doubled_cons_of_ne hc, List.cons_append, scanBody_of_ne hc, ih]
      rfl

theorem scanBody_sound {t s rest : List α} (h : scanBody d t = some (s, rest)) :
    t = doubled d s ++ d :: rest ∧ rest.head? ≠ some d := by
  -- along the recursion of the scanner, which reads one character or a doubled delimiter
  induction t using scanBody.induct d generalizing s with
  | case1 => cases h
  | case2 =>
    rw [scanBody_single (by simp)] at h
    cases h
    exact ⟨rfl, by simp⟩
  | case3 c hc =>
    rw [scanBody, if_neg hc] at h
    cases h
  | case4 cs ih =>
    rw [scanBody_doubled] at h
    obtain ⟨⟨s', rest'⟩, hscan, e⟩ := Option.map_eq_some_iff.mp h
    cases e
    obtain ⟨ht, hr⟩ := ih hscan
    rw [doubled_cons_self, ht]
    exact ⟨rfl, hr⟩
  | case5 c cs hc =>
    have hne : (c :: cs).head? ≠ some d := fun e => hc (Option.some.inj e)
    rw [scanBody_single hne] at h
    cases h
    exact ⟨rfl, hne⟩
  | case6 c c' cs hc ih =>
    rw [scanBody_of_ne hc] at h
    obtain ⟨⟨s', rest'⟩, hscan, e⟩ := Option.map_eq_some_iff.mp h
    cases e
    obtain ⟨ht, hr⟩ := ih hscan
    rw [doubled_cons_of_ne hc, ht]
    exact ⟨rfl, hr⟩

/-- **Reading is the inverse of quoting.** -/
theorem scan_eq_some_iff {t s rest : List α} :
    scan d t = some (s, rest) ↔ t = quoted d s ++ rest ∧ rest.head? ≠ some d := by
  have hquoted : quoted d s ++ rest = d :: (doubled d s ++ d :: rest) := by
    simp [quoted]
  rw [hquoted]
  constructor
  · intro h
    cases t with
    | nil => cases h
    | cons c cs =>
      obtain ⟨hc, h⟩ := Option.ite_none_right_eq_some.mp h
      obtain ⟨ht, hr⟩ := scanBody_sound h
      exact ⟨by rw [hc, ht], hr⟩
  · intro h
    obtain ⟨rfl, hr⟩ := h
    rw [scan, if_pos rfl]
    exact scanBody_complete s hr

end
end Quoted
