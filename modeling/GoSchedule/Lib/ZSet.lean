import Mathlib

/-!
# Sorted sets

A set of members with a score each, kept in the order of the scores and, for equal scores, of the
members.  The order and the uniqueness of the members are fields, so that no operation can break
them.

* `score z a`      the score of a member;
* `add`, `rem`     `score_add`, `score_rem` say what they do to every score;
* `rangeByScore`   the members with a score in a range, in order: `mem_rangeByScore`,
  `nodup_rangeByScore`, `before_rangeByScore`, `sorted_rangeByScore`;
* `members`        all members: `mem_members`.
-/

structure ZSet (σ α : Type*) [LinearOrder σ] [LinearOrder α] where
  entries : List (σ × α)
  sorted : entries.Pairwise fun a b => a.1 < b.1 ∨ a.1 = b.1 ∧ a.2 < b.2
  nodup : (entries.map Prod.snd).Nodup

namespace ZSet

section
variable {σ α : Type*} [LinearOrder σ] [LinearOrder α]

/-- the order of two entries with different members -/
def Before (a b : σ × α) : Prop := a.1 < b.1 ∨ a.1 = b.1 ∧ a.2 < b.2

instance (a b : σ × α) : Decidable (Before a b) := inferInstanceAs (Decidable (_ ∨ _))

theorem Before.trans {a b c : σ × α} (h1 : Before a b) (h2 : Before b c) : Before a c := by
  rcases h1 with h1 | ⟨e1, h1⟩
  · rcases h2 with h2 | ⟨e2, _⟩
    · exact Or.inl (lt_trans h1 h2)
    · exact Or.inl (e2 ▸ h1)
  · rcases h2 with h2 | ⟨e2, h2⟩
    · exact Or.inl (e1 ▸ h2)
    · exact Or.inr ⟨e1.trans e2, lt_trans h1 h2⟩

theorem before_of_not {a b : σ × α} (hne : a.2 ≠ b.2) (h : ¬ Before a b) : Before b a := by
  unfold Before at *
  rcases lt_trichotomy a.1 b.1 with h1 | h1 | h1
  · exact absurd (Or.inl h1) h
  · refine Or.inr ⟨h1.symm, lt_of_le_of_ne ?_ hne.symm⟩
    exact not_lt.mp fun h2 => h (Or.inr ⟨h1, h2⟩)
  · exact Or.inl h1

def empty : ZSet σ α := ⟨[], List.Pairwise.nil, List.nodup_nil⟩

def score (z : ZSet σ α) (a : α) : Option σ := (z.entries.find? fun e => e.2 = a).map Prod.fst

omit [LinearOrder σ] in
theorem find_fst_eq_some {l : List (σ × α)} (hn : (l.map Prod.snd).Nodup) {a : α} {s : σ} :
    (l.find? fun e => e.2 = a).map Prod.fst = some s ↔ (s, a) ∈ l := by
  induction l with
  | nil => simp
  | cons e l ih =>
    rw [List.map_cons] at hn
    obtain ⟨h1, h2⟩ := List.nodup_cons.mp hn
    rw [List.find?_cons, List.mem_cons]
    by_cases he : e.2 = a
    · subst he
      simp only [decide_true, Option.map_some, Option.some.injEq]
      constructor
      · intro h
        exact Or.inl (by rw [← h])
      · intro h
        rcases h with h | h
        · rw [← h]
        · exact absurd (List.mem_map.mpr ⟨_, h, rfl⟩) h1
    · simp only [he, decide_false]
      rw [ih h2]
      refine ⟨Or.inr, fun h => h.resolve_left fun h' => he ?_⟩
      rw [← h']

theorem score_eq_some {z : ZSet σ α} {a : α} {s : σ} : z.score a = some s ↔ (s, a) ∈ z.entries :=
  find_fst_eq_some z.nodup

def rem (z : ZSet σ α) (a : α) : ZSet σ α where
  entries := z.entries.filter fun e => e.2 ≠ a
  sorted := z.sorted.sublist List.filter_sublist
  nodup := z.nodup.sublist (List.filter_sublist.map _)

theorem score_rem (z : ZSet σ α) (a b : α) :
    (z.rem a).score b = if b = a then none else z.score b := by
  apply Option.ext
  intro s
  rw [score_eq_some]
  show (s, b) ∈ z.entries.filter (fun e => e.2 ≠ a) ↔ _
  rw [List.mem_filter]
  by_cases h : b = a
  · simp [h]
  · simp [h, score_eq_some]

def insert (e : σ × α) : List (σ × α) → List (σ × α)
  | [] => [e]
  | x :: l => if Before e x then e :: x :: l else x :: insert e l

theorem insert_perm (e : σ × α) (l : List (σ × α)) : (insert e l).Perm (e :: l) := by
  induction l with
  | nil => exact List.Perm.refl _
  | cons x l ih =>
    unfold insert
    split
    · exact List.Perm.refl _
    · exact (ih.cons x).trans (List.Perm.swap e x l)

theorem insert_sorted {e : σ × α} {l : List (σ × α)} (hs : l.Pairwise Before)
    (hne : ∀ x ∈ l, e.2 ≠ x.2) : (insert e l).Pairwise Before := by
  induction l with
  | nil => exact List.pairwise_singleton _ _
  | cons x l ih =>
    obtain ⟨h1, h2⟩ := List.pairwise_cons.mp hs
    unfold insert
    split
    · rename_i h
      refine List.pairwise_cons.mpr ⟨fun y hy => ?_, hs⟩
      rcases List.mem_cons.mp hy with rfl | hy
      · exact h
      · exact h.trans (h1 y hy)
    · rename_i h
      refine List.pairwise_cons.mpr ⟨fun y hy => ?_,
        ih h2 fun y hy => hne y (List.mem_cons_of_mem _ hy)⟩
      rcases List.mem_cons.mp ((insert_perm e l).mem_iff.mp hy) with rfl | hy
      · exact before_of_not (hne x List.mem_cons_self) h
      · exact h1 y hy

theorem not_mem_rem (z : ZSet σ α) (a : α) : a ∉ (z.rem a).entries.map Prod.snd := by
  intro h
  obtain ⟨e, he, rfl⟩ := List.mem_map.mp h
  have h2 := (List.mem_filter.mp he).2
  simp at h2

/-- a member that is there already gets the new score -/
def add (z : ZSet σ α) (s : σ) (a : α) : ZSet σ α where
  entries := insert (s, a) (z.rem a).entries
  sorted := insert_sorted (z.rem a).sorted fun x hx e =>
    not_mem_rem z a (List.mem_map.mpr ⟨x, hx, e.symm⟩)
  nodup := by
    rw [((insert_perm (s, a) (z.rem a).entries).map Prod.snd).nodup_iff]
    exact List.nodup_cons.mpr ⟨not_mem_rem z a, (z.rem a).nodup⟩

theorem score_add (z : ZSet σ α) (s : σ) (a b : α) :
    (z.add s a).score b = if b = a then some s else z.score b := by
  apply Option.ext
  intro t
  rw [score_eq_some]
  show (t, b) ∈ insert (s, a) (z.rem a).entries ↔ _
  rw [(insert_perm _ _).mem_iff, List.mem_cons, ← score_eq_some, score_rem]
  by_cases h : b = a
  · simp [h, eq_comm]
  · simp [h]

/-- the members with a score from `lo` (from the lowest, if there is no `lo`) to `hi` -/
def rangeByScore (z : ZSet σ α) (lo : Option σ) (hi : σ) : List α :=
  (z.entries.filter fun e => (∀ l ∈ lo, l ≤ e.1) ∧ e.1 ≤ hi).map Prod.snd

theorem mem_rangeByScore {z : ZSet σ α} {lo : Option σ} {hi : σ} {a : α} :
    a ∈ z.rangeByScore lo hi ↔ ∃ s, z.score a = some s ∧ (∀ l ∈ lo, l ≤ s) ∧ s ≤ hi := by
  unfold rangeByScore
  rw [List.mem_map]
  constructor
  · intro ⟨e, he, h⟩
    obtain ⟨h1, h2⟩ := List.mem_filter.mp he
    exact ⟨e.1, score_eq_some.mpr (h ▸ h1), of_decide_eq_true h2⟩
  · intro ⟨s, hs, h⟩
    exact ⟨(s, a), List.mem_filter.mpr ⟨score_eq_some.mp hs, decide_eq_true h⟩, rfl⟩

theorem nodup_rangeByScore (z : ZSet σ α) (lo : Option σ) (hi : σ) :
    (z.rangeByScore lo hi).Nodup :=
  z.nodup.sublist (List.filter_sublist.map _)

theorem before_rangeByScore (z : ZSet σ α) (lo : Option σ) (hi : σ) :
    (z.rangeByScore lo hi).Pairwise fun a b =>
      ∀ s t, z.score a = some s → z.score b = some t → Before (s, a) (t, b) := by
  unfold rangeByScore
  rw [List.pairwise_map]
  refine (z.sorted.sublist List.filter_sublist).imp_of_mem fun {x y} hx hy h s t hs ht => ?_
  have hx' := score_eq_some.mpr (List.mem_of_mem_filter hx)
  have hy' := score_eq_some.mpr (List.mem_of_mem_filter hy)
  obtain rfl := Option.some.inj (hs.symm.trans hx')
  obtain rfl := Option.some.inj (ht.symm.trans hy')
  exact h

theorem sorted_rangeByScore (z : ZSet σ α) (lo : Option σ) (hi : σ) :
    (z.rangeByScore lo hi).Pairwise fun a b =>
      ∀ s t, z.score a = some s → z.score b = some t → s ≤ t := by
  refine (before_rangeByScore z lo hi).imp fun h s t hs ht => ?_
  rcases h s t hs ht with h | h
  · exact le_of_lt h
  · exact le_of_eq h.1

def members (z : ZSet σ α) : List α := z.entries.map Prod.snd

theorem mem_members {z : ZSet σ α} {a : α} : a ∈ z.members ↔ ∃ s, z.score a = some s := by
  unfold members
  rw [List.mem_map]
  constructor
  · rintro ⟨e, he, rfl⟩
    exact ⟨e.1, score_eq_some.mpr he⟩
  · rintro ⟨s, hs⟩
    exact ⟨(s, a), score_eq_some.mp hs, rfl⟩

end
end ZSet
