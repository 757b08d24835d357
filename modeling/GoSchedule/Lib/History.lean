import Mathlib

/-!
# Histories in which a thing is taken and given back

A history is a list of events, the newest last.  Some events open (`opens e`), some close (`closes e`),
and some are allowed only while nothing is open (`needs e`).

* `isOpen l`    the last event of `l` that opens or closes is one that opens;
* `Guarded l`   every event of `l` that needs it found the thing closed; with `needs = opens`, nothing
  is opened while it is open;
* `Guarded.close_between`   between an opening and an event that needs it closed there is a closing.
-/

namespace History

section
variable {ε : Type*} (opens closes needs : ε → Bool)

def isOpen (l : List ε) : Bool :=
  l.foldl (fun b e => if opens e then true else if closes e then false else b) false

def Guarded (l : List ε) : Prop :=
  ∀ l₁ e l₂, l = l₁ ++ e :: l₂ → needs e = true → isOpen opens closes l₁ = false

variable {opens closes needs}

theorem isOpen_snoc (l : List ε) (e : ε) : isOpen opens closes (l ++ [e]) =
    if opens e then true else if closes e then false else isOpen opens closes l := by
  unfold isOpen
  rw [List.foldl_append]
  rfl

/-- events that neither open nor close change nothing -/
theorem isOpen_append_quiet {l es : List ε} (h : ∀ e ∈ es, opens e = false ∧ closes e = false) :
    isOpen opens closes (l ++ es) = isOpen opens closes l := by
  induction es generalizing l with
  | nil => rw [List.append_nil]
  | cons e es ih =>
    obtain ⟨h1, h2⟩ := h e List.mem_cons_self
    rw [List.append_cons, ih fun e' he' => h e' (List.mem_cons_of_mem _ he'), isOpen_snoc, h1, h2]
    rfl

/-- what was opened stays open until a closing event -/
theorem isOpen_of_opened {l es : List ε} {e : ε} (he : opens e = true)
    (h : ∀ e' ∈ es, closes e' = false) : isOpen opens closes (l ++ e :: es) = true := by
  induction es using List.reverseRecOn with
  | nil => rw [isOpen_snoc, he]; rfl
  | append_singleton es x ih =>
    rw [← List.cons_append, ← List.append_assoc, isOpen_snoc,
      ih fun e' he' => h e' (List.mem_append_left _ he'),
      h x (List.mem_append_right _ List.mem_cons_self)]
    by_cases hx : opens x = true <;> simp [hx]

theorem guarded_nil : Guarded opens closes needs [] := by
  intro l₁ e l₂ h
  exact absurd h.symm (by simp)

theorem Guarded.snoc {l : List ε} {e : ε} (ha : Guarded opens closes needs l)
    (he : needs e = true → isOpen opens closes l = false) : Guarded opens closes needs (l ++ [e]) := by
  intro l₁ x l₂ h hx
  induction l₂ using List.reverseRecOn with
  | nil =>
    obtain ⟨h1, h2⟩ := List.append_inj' h rfl
    rw [← h1]
    exact he ((List.cons.inj h2).1 ▸ hx)
  | append_singleton l₂ y _ =>
    rw [← List.cons_append, ← List.append_assoc] at h
    exact ha l₁ x l₂ (List.append_inj' h rfl).1 hx

theorem Guarded.append_quiet {l es : List ε} (ha : Guarded opens closes needs l)
    (h : ∀ e ∈ es, needs e = false) : Guarded opens closes needs (l ++ es) := by
  induction es generalizing l with
  | nil => rwa [List.append_nil]
  | cons e es ih =>
    rw [List.append_cons]
    refine ih (ha.snoc fun h' => ?_) fun e' he' => h e' (List.mem_cons_of_mem _ he')
    rw [h e List.mem_cons_self] at h'
    cases h'

/-- events that neither open nor close and are let through where the history ends -/
theorem Guarded.append_closed {l es : List ε} (ha : Guarded opens closes needs l)
    (hq : ∀ e ∈ es, opens e = false ∧ closes e = false)
    (h : ∀ e ∈ es, needs e = true → isOpen opens closes l = false) :
    Guarded opens closes needs (l ++ es) := by
  induction es generalizing l with
  | nil => rwa [List.append_nil]
  | cons e es ih =>
    rw [List.append_cons]
    refine ih (ha.snoc (h e List.mem_cons_self)) (fun e' he' => hq e' (List.mem_cons_of_mem _ he'))
      fun e' he' hn => ?_
    rw [isOpen_append_quiet fun x hx => hq x (List.mem_singleton.mp hx ▸ List.mem_cons_self)]
    exact h e' (List.mem_cons_of_mem _ he') hn

theorem Guarded.close_between {l₁ l₂ l₃ : List ε} {a b : ε}
    (h : Guarded opens closes needs (l₁ ++ a :: (l₂ ++ b :: l₃))) (ha : opens a = true)
    (hb : needs b = true) : ∃ e ∈ l₂, closes e = true := by
  by_contra hno
  have h1 : isOpen opens closes (l₁ ++ a :: l₂) = false :=
    h (l₁ ++ a :: l₂) b l₃ (by rw [List.append_assoc, List.cons_append]) hb
  have h2 : isOpen opens closes (l₁ ++ a :: l₂) = true := by
    refine isOpen_of_opened ha fun e he => ?_
    cases hc : closes e with
    | false => rfl
    | true => exact absurd ⟨e, he, hc⟩ hno
  rw [h1] at h2
  cases h2

end
end History
