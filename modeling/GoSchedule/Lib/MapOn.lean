import Mathlib

/-!
# Maps changed at the keys of a list

A loop over a list of keys that changes one entry of a map at each of them.

* `mapOn T f ks`   the map `T` with `f` applied to the entries of `ks`: `mapOn_of_mem`,
  `mapOn_of_not_mem`, `mapOn_some`;
* `foldl_mapOn`    if each pass of the loop takes a concrete state that stands for `T` to one that
  stands for `T` with one entry changed, then the whole loop takes it to one that stands for
  `mapOn T f ks`.
-/

namespace MapOn

section
variable {κ ν σ β : Type*} [DecidableEq κ]

def mapOn (T : κ → Option ν) (f : ν → ν) (ks : List κ) : κ → Option ν :=
  fun k => if k ∈ ks then (T k).map f else T k

theorem mapOn_of_mem {T : κ → Option ν} {k : κ} {x : ν} {ks : List κ} (hT : T k = some x) (f : ν → ν)
    (h : k ∈ ks) : mapOn T f ks k = some (f x) := by
  rw [mapOn, if_pos h, hT]
  rfl

theorem mapOn_of_not_mem {k : κ} {ks : List κ} (T : κ → Option ν) (f : ν → ν) (h : k ∉ ks) :
    mapOn T f ks k = T k := if_neg h

theorem mapOn_some {T : κ → Option ν} {f : ν → ν} {ks : List κ} {k : κ} {y : ν}
    (h : mapOn T f ks k = some y) : ∃ x, T k = some x ∧ (y = x ∨ y = f x) := by
  unfold mapOn at h
  split at h
  · obtain ⟨x, hx, e⟩ := Option.map_eq_some_iff.mp h
    exact ⟨x, hx, Or.inr e.symm⟩
  · exact ⟨y, h, Or.inl rfl⟩

theorem mapOn_nil (T : κ → Option ν) (f : ν → ν) : mapOn T f [] = T := by
  funext k
  simp [mapOn]

theorem mapOn_cons {T : κ → Option ν} {f : ν → ν} {k : κ} {ks : List κ} {x : ν}
    (hT : T k = some x) (hk : k ∉ ks) :
    mapOn (Function.update T k (some (f x))) f ks = mapOn T f (k :: ks) := by
  funext i
  unfold mapOn
  by_cases h : i = k
  · subst h
    simp [hk, hT]
  · simp [h]

/-- **Loops over keys**: `key b` is the key that the pass `b` works on, `ok b x` what the pass needs
of its entry. -/
theorem foldl_mapOn {I : σ → (κ → Option ν) → Prop} {f : ν → ν} {act : σ → β → σ} {key : β → κ}
    {ok : β → ν → Prop}
    (hstep : ∀ s T b x, I s T → T (key b) = some x → ok b x →
      I (act s b) (Function.update T (key b) (some (f x))))
    {bs : List β} {s : σ} {T : κ → Option ν} (hI : I s T) (hn : (bs.map key).Nodup)
    (h : ∀ b ∈ bs, ∃ x, T (key b) = some x ∧ ok b x) :
    I (bs.foldl act s) (mapOn T f (bs.map key)) := by
  induction bs generalizing s T with
  | nil =>
    rw [List.map_nil, mapOn_nil]
    exact hI
  | cons b bs ih =>
    rw [List.map_cons] at hn ⊢
    obtain ⟨hb, hn⟩ := List.nodup_cons.mp hn
    obtain ⟨x, hT, hok⟩ := h b List.mem_cons_self
    rw [← mapOn_cons hT hb]
    refine ih (hstep s T b x hI hT hok) hn fun c hc => ?_
    have hne : key c ≠ key b := fun e => hb (e ▸ List.mem_map_of_mem hc)
    rw [Function.update_of_ne hne]
    exact h c (List.mem_cons_of_mem _ hc)

end
end MapOn
