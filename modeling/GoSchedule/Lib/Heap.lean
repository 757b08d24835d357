import Mathlib

/-!
# The binary heap of a `Len`/`Less`/`Swap`/`Push`/`Pop` interface

The heap package of the Go standard library never sees the slice it orders: it works through the
five methods of an interface.  `Iface σ α` is that interface over a state type `σ`, and

* `upLoop`, `downLoop`, `up`, `down`   the two sift loops (fuel bounds the number of rounds);
* `hpush`, `hpop`, `hremove`, `hfix`   the package functions `Push`, `Pop`, `Remove`, `Fix`.

`Lawful I` says what the methods must do: `Less` is a strict weak order on positions, `Swap`
exchanges two positions, `Push` and `Pop` work at the end.  From that:

* `hpush_ord`, `hpop_ord`, `hremove_ord`, `hfix_ord`   each function restores the heap order;
* `root_le`                                            position `0` is below every position;
* `upLoop_keep`, `downLoop_keep`                       what every `Swap` keeps, a sift keeps.

The order proofs speak about positions only.  `Hole s i n` is the state in which the element at
`i` may be wrong in both directions; `Sink s i n` and `Rise s i n` leave one direction open.
-/

namespace GoHeap

/-- the methods of the heap interface, over the state they act on -/
structure Iface (σ α : Type*) where
  len : σ → Nat
  less : σ → Nat → Nat → Bool
  swap : σ → Nat → Nat → σ
  push : σ → α → σ
  pop : σ → σ × α

section
variable {σ α : Type*} (I : Iface σ α)

/-- the loop of `up`, started at position `j` -/
def upLoop : Nat → σ → Nat → σ
  | 0, s, _ => s
  | f + 1, s, j =>
    let i := (j - 1) / 2
    if i = j ∨ I.less s j i = false then s else upLoop f (I.swap s i j) i

/-- the child that `down` compares with its parent `i`: the smaller one of the two -/
def child (s : σ) (i n : Nat) : Nat :=
  if 2 * i + 2 < n ∧ I.less s (2 * i + 2) (2 * i + 1) = true then 2 * i + 2 else 2 * i + 1

/-- the loop of `down` at position `i`, with the position where it stops -/
def downLoop : Nat → σ → Nat → Nat → σ × Nat
  | 0, s, i, _ => (s, i)
  | f + 1, s, i, n =>
    if 2 * i + 1 ≥ n then (s, i)
    else if I.less s (child I s i n) i = false then (s, i)
    else downLoop f (I.swap s i (child I s i n)) (child I s i n) n

def up (s : σ) (j : Nat) : σ := upLoop I j s j

def down (s : σ) (i n : Nat) : σ × Bool :=
  ((downLoop I n s i n).1, decide (i < (downLoop I n s i n).2))

def hpush (s : σ) (x : α) : σ := up I (I.push s x) (I.len (I.push s x) - 1)

def hpop (s : σ) : σ × α := I.pop (down I (I.swap s 0 (I.len s - 1)) 0 (I.len s - 1)).1

/-- `if !down(h, i, n) { up(h, i) }` -/
def sift (s : σ) (i n : Nat) : σ :=
  if (down I s i n).2 = true then (down I s i n).1 else up I (down I s i n).1 i

def hremove (s : σ) (i : Nat) : σ × α :=
  if I.len s - 1 = i then I.pop s
  else I.pop (sift I (I.swap s i (I.len s - 1)) i (I.len s - 1))

def hfix (s : σ) (i : Nat) : σ := sift I s i (I.len s)

/-- what the package expects of the methods -/
structure Lawful : Prop where
  asymm : ∀ s i j, I.less s i j = true → I.less s j i = false
  trans : ∀ s i j k, I.less s i j = false → I.less s j k = false → I.less s i k = false
  len_swap : ∀ s i j, I.len (I.swap s i j) = I.len s
  less_swap : ∀ s i j a b, i < I.len s → j < I.len s → a < I.len s → b < I.len s →
    I.less (I.swap s i j) a b = I.less s (Equiv.swap i j a) (Equiv.swap i j b)
  len_push : ∀ s x, I.len (I.push s x) = I.len s + 1
  less_push : ∀ s x a b, a < I.len s → b < I.len s → I.less (I.push s x) a b = I.less s a b
  len_pop : ∀ s, I.len (I.pop s).1 = I.len s - 1
  less_pop : ∀ s a b, a < I.len s - 1 → b < I.len s - 1 →
    I.less (I.pop s).1 a b = I.less s a b

/-- no position below `n` is less than its parent -/
def Ord (s : σ) (n : Nat) : Prop := ∀ k, 0 < k → k < n → I.less s k ((k - 1) / 2) = false

/-- ordered but for the element at `i` -/
structure Hole (s : σ) (i n : Nat) : Prop where
  off : ∀ k, 0 < k → k < n → k ≠ i → (k - 1) / 2 ≠ i → I.less s k ((k - 1) / 2) = false
  grand : 0 < i → ∀ c, 0 < c → c < n → (c - 1) / 2 = i → I.less s c ((i - 1) / 2) = false

/-- ordered but for the element at `i`, which is not below its parent -/
structure Sink (s : σ) (i n : Nat) : Prop extends Hole I s i n where
  above : 0 < i → i < n → I.less s i ((i - 1) / 2) = false

/-- ordered but for the element at `i`, which is not above its children -/
structure Rise (s : σ) (i n : Nat) : Prop extends Hole I s i n where
  below : ∀ c, 0 < c → c < n → (c - 1) / 2 = i → I.less s c i = false

variable {I}

theorem Rise.ord {s : σ} {i n : Nat} (h : Rise I s i n)
    (hi : 0 < i → i < n → I.less s i ((i - 1) / 2) = false) : Ord I s n := by
  intro k hk hkn
  by_cases hki : k = i
  · subst hki; exact hi hk hkn
  · by_cases hp : (k - 1) / 2 = i
    · rw [hp]; exact h.below k hk hkn hp
    · exact h.off k hk hkn hki hp

/-- position `0` of an ordered heap is not above any other -/
theorem root_le (L : Lawful I) {s : σ} {n : Nat} (h : Ord I s n) (k : Nat) (hk : k < n) :
    I.less s k 0 = false := by
  induction k using Nat.strong_induction_on with
  | _ k ih =>
    rcases Nat.eq_zero_or_pos k with rfl | hpos
    · cases hl : I.less s 0 0 with
      | false => rfl
      | true => rw [L.asymm s 0 0 hl] at hl; exact absurd hl Bool.false_ne_true
    · have hp : (k - 1) / 2 < k := by omega
      exact L.trans s k _ 0 (h k hpos hk) (ih _ hp (by omega))

/-- the order outside a position `i` survives any change of the element at `i` -/
theorem Ord.hole (L : Lawful I) {s s' : σ} {i m n : Nat} (h : Ord I s m) (hnm : n ≤ m)
    (hs : ∀ a b, a < n → b < n → a ≠ i → b ≠ i → I.less s' a b = I.less s a b) :
    Hole I s' i n := by
  constructor
  · intro k hk hkn hki hp
    rw [hs k _ hkn (by omega) hki hp]
    exact h k hk (by omega)
  · intro hi c hc hcn hp
    have h1 := h c hc (by omega)
    rw [hp] at h1
    have h2 := h i hi (by omega)
    rw [hs c _ hcn (by omega) (by omega) (by omega)]
    exact L.trans s c i _ h1 h2

/-! ## the child that `down` picks -/

theorem child_bounds (s : σ) {i n : Nat} (h : 2 * i + 1 < n) :
    i < child I s i n ∧ child I s i n < n ∧ (child I s i n - 1) / 2 = i := by
  unfold child
  split
  · rename_i hc; omega
  · omega

theorem child_le (L : Lawful I) (s : σ) {i n c : Nat} (hc : 0 < c) (hcn : c < n)
    (hp : (c - 1) / 2 = i) : I.less s c (child I s i n) = false := by
  have hself : ∀ a, I.less s a a = false := by
    intro a
    cases hl : I.less s a a with
    | false => rfl
    | true => rw [L.asymm s a a hl] at hl; exact absurd hl Bool.false_ne_true
  unfold child
  have h2 : c = 2 * i + 1 ∨ c = 2 * i + 2 := by omega
  split
  · rename_i hb
    rcases h2 with rfl | rfl
    · exact L.asymm s _ _ hb.2
    · exact hself _
  · rename_i hb
    rcases h2 with rfl | rfl
    · exact hself _
    · cases hl : I.less s (2 * i + 2) (2 * i + 1) with
      | false => rfl
      | true => exact absurd ⟨hcn, hl⟩ hb

/-! ## one exchange -/

section
variable (L : Lawful I) {s : σ} {i j n : Nat} (hn : n ≤ I.len s) (hin : i < n) (hjn : j < n)
include L hn hin hjn

theorem less_swap_off {a b : Nat} (ha : a < n) (hb : b < n) (hai : a ≠ i) (haj : a ≠ j)
    (hbi : b ≠ i) (hbj : b ≠ j) : I.less (I.swap s i j) a b = I.less s a b := by
  rw [L.less_swap s i j a b (by omega) (by omega) (by omega) (by omega),
    Equiv.swap_apply_of_ne_of_ne hai haj, Equiv.swap_apply_of_ne_of_ne hbi hbj]

theorem less_swap_fst {b : Nat} (hb : b < n) (hbi : b ≠ i) (hbj : b ≠ j) :
    I.less (I.swap s i j) i b = I.less s j b ∧ I.less (I.swap s i j) b i = I.less s b j := by
  constructor
  · rw [L.less_swap s i j i b (by omega) (by omega) (by omega) (by omega),
      Equiv.swap_apply_left, Equiv.swap_apply_of_ne_of_ne hbi hbj]
  · rw [L.less_swap s i j b i (by omega) (by omega) (by omega) (by omega),
      Equiv.swap_apply_left, Equiv.swap_apply_of_ne_of_ne hbi hbj]

theorem less_swap_snd {b : Nat} (hb : b < n) (hbi : b ≠ i) (hbj : b ≠ j) :
    I.less (I.swap s i j) j b = I.less s i b ∧ I.less (I.swap s i j) b j = I.less s b i := by
  constructor
  · rw [L.less_swap s i j j b (by omega) (by omega) (by omega) (by omega),
      Equiv.swap_apply_right, Equiv.swap_apply_of_ne_of_ne hbi hbj]
  · rw [L.less_swap s i j b j (by omega) (by omega) (by omega) (by omega),
      Equiv.swap_apply_right, Equiv.swap_apply_of_ne_of_ne hbi hbj]

theorem less_swap_both : I.less (I.swap s i j) j i = I.less s i j := by
  rw [L.less_swap s i j j i (by omega) (by omega) (by omega) (by omega),
    Equiv.swap_apply_right, Equiv.swap_apply_left]

end

/-- one round of `down`: the element moves to the smaller child and is right above it -/
theorem Hole.sink (L : Lawful I) {s : σ} {i n : Nat} (hn : n ≤ I.len s) (h : Hole I s i n)
    (hi : 2 * i + 1 < n) (hl : I.less s (child I s i n) i = true) :
    Sink I (I.swap s i (child I s i n)) (child I s i n) n := by
  obtain ⟨hij, hjn, hpj⟩ := child_bounds (I := I) s hi
  have hmin : ∀ c, 0 < c → c < n → (c - 1) / 2 = i → I.less s c (child I s i n) = false :=
    fun c hc hcn hp => child_le L s hc hcn hp
  generalize child I s i n = j at *
  have hin : i < n := by omega
  refine ⟨⟨?_, ?_⟩, ?_⟩
  · intro k hk hkn hkj hpk
    by_cases hki : k = i
    · subst hki
      rw [(less_swap_fst L hn hin hjn (b := (k - 1) / 2) (by omega) (by omega) hpk).1]
      exact h.grand hk j (by omega) hjn hpj
    · by_cases hp : (k - 1) / 2 = i
      · rw [hp, (less_swap_fst L hn hin hjn hkn hki hkj).2]
        exact hmin k hk hkn hp
      · rw [less_swap_off L hn hin hjn hkn (by omega) hki hkj hp hpk]
        exact h.off k hk hkn hki hp
  · intro _ c hc hcn hp
    rw [hpj, (less_swap_fst L hn hin hjn hcn (by omega) (by omega)).2]
    have h1 := h.off c hc hcn (by omega) (by omega)
    rwa [hp] at h1
  · intro _ _
    rw [hpj, less_swap_both L hn hin hjn]
    exact L.asymm s j i hl

/-- one round of `up`: the element takes its parent's place and is below both children -/
theorem Rise.step (L : Lawful I) {s : σ} {j n : Nat} (hn : n ≤ I.len s) (h : Rise I s j n)
    (hj : 0 < j) (hjn : j < n) (hl : I.less s j ((j - 1) / 2) = true) :
    Rise I (I.swap s ((j - 1) / 2) j) ((j - 1) / 2) n := by
  generalize hi : (j - 1) / 2 = i at *
  have hin : i < n := by omega
  have hup : ∀ c, 0 < c → c < n → c ≠ j → (c - 1) / 2 = i → I.less s c i = false := by
    intro c hc hcn hcj hp
    have h1 := h.off c hc hcn hcj (by omega)
    rwa [hp] at h1
  have htop : 0 < i → I.less s i ((i - 1) / 2) = false := fun h0 =>
    h.off i h0 hin (by omega) (by omega)
  refine ⟨⟨?_, ?_⟩, ?_⟩
  · intro k hk hkn hki hp
    have hkj : k ≠ j := by rintro rfl; exact hp hi
    by_cases hpj : (k - 1) / 2 = j
    · rw [hpj, (less_swap_snd L hn hin hjn hkn hki hkj).2, ← hi]
      exact h.grand hj k hk hkn hpj
    · rw [less_swap_off L hn hin hjn hkn (by omega) hki hkj hp hpj]
      exact h.off k hk hkn hkj hpj
  · intro h0 c hc hcn hp
    by_cases hcj : c = j
    · subst hcj
      rw [(less_swap_snd L hn hin hjn (b := (i - 1) / 2) (by omega) (by omega) (by omega)).1]
      exact htop h0
    · rw [less_swap_off L hn hin hjn hcn (by omega) (by omega) hcj (by omega) (by omega)]
      exact L.trans s c i _ (hup c hc hcn hcj hp) (htop h0)
  · intro c hc hcn hp
    by_cases hcj : c = j
    · subst hcj
      rw [less_swap_both L hn hin hjn]
      exact L.asymm s c i hl
    · rw [(less_swap_fst L hn hin hjn hcn (by omega) hcj).2]
      exact L.trans s c i j (hup c hc hcn hcj hp) (L.asymm s j i hl)

/-! ## the two loops -/

theorem upLoop_ord (L : Lawful I) (f : Nat) {s : σ} {j n : Nat} (hf : j ≤ f) (hn : n ≤ I.len s)
    (hj : j < n) (h : Rise I s j n) : Ord I (upLoop I f s j) n := by
  induction f generalizing s j with
  | zero =>
    have e : j = 0 := by omega
    exact h.ord (fun h0 => by omega)
  | succ f ih =>
    unfold upLoop
    by_cases hc : (j - 1) / 2 = j ∨ I.less s j ((j - 1) / 2) = false
    · rw [if_pos hc]
      refine h.ord (fun h0 _ => ?_)
      rcases hc with hc | hc
      · omega
      · exact hc
    · rw [if_neg hc]
      rw [not_or, Bool.not_eq_false] at hc
      have h0 : 0 < j := by omega
      exact ih (by omega) (by rw [L.len_swap]; exact hn) (by omega) (h.step L hn h0 hj hc.2)

theorem downLoop_ord (L : Lawful I) (f : Nat) {s : σ} {i n : Nat} (hf : n ≤ f + i)
    (hn : n ≤ I.len s) (h : Sink I s i n) : Ord I (downLoop I f s i n).1 n := by
  have stop : ∀ {t : σ} {k : Nat}, Sink I t k n →
      (∀ c, 0 < c → c < n → (c - 1) / 2 = k → I.less t c k = false) → Ord I t n :=
    fun ht hb => Rise.ord ⟨ht.toHole, hb⟩ ht.above
  induction f generalizing s i with
  | zero => exact stop h (fun c hc hcn hp => by omega)
  | succ f ih =>
    unfold downLoop
    by_cases hlt : 2 * i + 1 ≥ n
    · rw [if_pos hlt]
      exact stop h (fun c hc hcn hp => by omega)
    · rw [if_neg hlt]
      by_cases hl : I.less s (child I s i n) i = false
      · rw [if_pos hl]
        exact stop h (fun c hc hcn hp => L.trans s c _ i (child_le L s hc hcn hp) hl)
      · rw [if_neg hl]
        rw [Bool.not_eq_false] at hl
        obtain ⟨hij, _, _⟩ := child_bounds (I := I) s (show 2 * i + 1 < n by omega)
        exact ih (by omega) (by rw [L.len_swap]; exact hn) (h.toHole.sink L hn (by omega) hl)

/-- the loop of `down` only moves away from its start -/
theorem downLoop_ge (f : Nat) (s : σ) (i n : Nat) : i ≤ (downLoop I f s i n).2 := by
  induction f generalizing s i with
  | zero => exact le_refl i
  | succ f ih =>
    unfold downLoop
    split
    · exact le_refl i
    · split
      · exact le_refl i
      · obtain ⟨hij, _, _⟩ := child_bounds (I := I) s (n := n) (i := i) (by omega)
        exact le_trans (le_of_lt hij) (ih _ _)

/-- `down` followed, if it did not move, by `up` -/
theorem sift_ord (L : Lawful I) {s : σ} {i n : Nat} (hn : n ≤ I.len s) (hin : i < n)
    (h : Hole I s i n) : Ord I (sift I s i n) n := by
  obtain ⟨f, rfl⟩ : ∃ f, n = f + 1 := ⟨n - 1, by omega⟩
  by_cases hmove : 2 * i + 1 < f + 1 ∧ I.less s (child I s i (f + 1)) i = true
  · have e : downLoop I (f + 1) s i (f + 1)
        = downLoop I f (I.swap s i (child I s i (f + 1))) (child I s i (f + 1)) (f + 1) := by
      rw [downLoop, if_neg (by omega), if_neg (by rw [hmove.2]; exact Bool.noConfusion)]
    obtain ⟨hij, _, _⟩ := child_bounds (I := I) s hmove.1
    have hd : (down I s i (f + 1)).2 = true := by
      show decide (i < (downLoop I (f + 1) s i (f + 1)).2) = true
      rw [e]
      exact decide_eq_true (lt_of_lt_of_le hij (downLoop_ge f _ _ _))
    unfold sift
    rw [if_pos hd]
    show Ord I (downLoop I (f + 1) s i (f + 1)).1 (f + 1)
    rw [e]
    exact downLoop_ord L f (by omega) (by rw [L.len_swap]; exact hn) (h.sink L hn hmove.1 hmove.2)
  · have e : downLoop I (f + 1) s i (f + 1) = (s, i) := by
      rw [downLoop]
      by_cases hlt : 2 * i + 1 ≥ f + 1
      · rw [if_pos hlt]
      · rw [if_neg hlt, if_pos]
        cases hl : I.less s (child I s i (f + 1)) i with
        | false => rfl
        | true => exact absurd ⟨by omega, hl⟩ hmove
    have hd : down I s i (f + 1) = (s, false) := by
      unfold down
      rw [e]
      simp
    unfold sift
    rw [hd]
    refine upLoop_ord L i (le_refl i) hn hin ⟨h, fun c hc hcn hp => ?_⟩
    have hl : I.less s (child I s i (f + 1)) i = false := by
      cases hl : I.less s (child I s i (f + 1)) i with
      | false => rfl
      | true => exact absurd ⟨by omega, hl⟩ hmove
    exact L.trans s c _ i (child_le L s hc hcn hp) hl

/-! ## what every exchange keeps -/

theorem upLoop_keep {P : σ → Prop} {n : Nat}
    (hP : ∀ s i j, i < n → j < n → P s → P (I.swap s i j)) (f : Nat) {s : σ} {j : Nat}
    (hj : j < n) (h : P s) : P (upLoop I f s j) := by
  induction f generalizing s j with
  | zero => exact h
  | succ f ih =>
    unfold upLoop
    dsimp only
    split
    · exact h
    · exact ih (by omega) (hP s _ j (by omega) hj h)

theorem downLoop_keep {P : σ → Prop} {n : Nat}
    (hP : ∀ s i j, i < n → j < n → P s → P (I.swap s i j)) (f : Nat) {s : σ} {i : Nat}
    (h : P s) : P (downLoop I f s i n).1 := by
  induction f generalizing s i with
  | zero => exact h
  | succ f ih =>
    unfold downLoop
    split
    · exact h
    · split
      · exact h
      · obtain ⟨_, hjn, _⟩ := child_bounds (I := I) s (n := n) (i := i) (by omega)
        exact ih (hP s i _ (by omega) hjn h)

theorem sift_keep {P : σ → Prop} {n : Nat}
    (hP : ∀ s i j, i < n → j < n → P s → P (I.swap s i j)) {s : σ} {i : Nat} (hi : i < n)
    (h : P s) : P (sift I s i n) := by
  have hd : P (down I s i n).1 := downLoop_keep hP n h
  unfold sift
  split
  · exact hd
  · exact upLoop_keep hP i hi hd

/-! ## the four functions of the package -/

theorem hpush_ord (L : Lawful I) {s : σ} (x : α) (h : Ord I s (I.len s)) :
    Ord I (hpush I s x) (I.len s + 1) := by
  have hlen := L.len_push s x
  unfold hpush up
  rw [hlen, Nat.add_sub_cancel]
  refine upLoop_ord L _ (le_refl _) (le_of_eq hlen.symm) (by omega) ⟨⟨?_, ?_⟩, ?_⟩
  · intro k hk hkn hki hp
    rw [L.less_push s x k _ (by omega) (by omega)]
    exact h k hk (by omega)
  · intro hi c hc hcn hp; omega
  · intro c hc hcn hp; omega

theorem hpop_ord (L : Lawful I) {s : σ} (h : Ord I s (I.len s)) :
    Ord I (hpop I s).1 (I.len s - 1) := by
  generalize hn : I.len s - 1 = n at *
  have hlen : I.len (I.swap s 0 n) = I.len s := L.len_swap s 0 n
  have hd : Ord I (down I (I.swap s 0 n) 0 n).1 n := by
    refine downLoop_ord L n (by omega) (by omega) ⟨?_, fun h0 => absurd h0 (by omega)⟩
    refine h.hole L (by omega) (fun a b ha hb ha0 hb0 => ?_)
    exact less_swap_off L (le_refl _) (by omega) (by omega) (by omega) (by omega) ha0 (by omega)
      hb0 (by omega)
  have hl : I.len (down I (I.swap s 0 n) 0 n).1 = I.len s :=
    downLoop_keep (P := fun t => I.len t = I.len s)
      (fun t i j _ _ ht => by rw [L.len_swap]; exact ht) n hlen
  intro k hk hkn
  unfold hpop
  rw [hn, L.less_pop _ k _ (by omega) (by omega)]
  exact hd k hk hkn

theorem hremove_ord (L : Lawful I) {s : σ} {i : Nat} (hi : i < I.len s)
    (h : Ord I s (I.len s)) : Ord I (hremove I s i).1 (I.len s - 1) := by
  unfold hremove
  by_cases hlast : I.len s - 1 = i
  · rw [if_pos hlast]
    intro k hk hkn
    rw [L.less_pop s k _ (by omega) (by omega)]
    exact h k hk (by omega)
  · rw [if_neg hlast]
    generalize hn : I.len s - 1 = n at *
    have hlen : I.len (I.swap s i n) = I.len s := L.len_swap s i n
    have hd : Ord I (sift I (I.swap s i n) i n) n := by
      refine sift_ord L (by omega) (by omega) (h.hole L (by omega) (fun a b ha hb hai hbi => ?_))
      exact less_swap_off L (le_refl _) hi (by omega) (by omega) (by omega) hai (by omega)
        hbi (by omega)
    have hl : I.len (sift I (I.swap s i n) i n) = I.len s :=
      sift_keep (P := fun t => I.len t = I.len s)
        (fun t i j _ _ ht => by rw [L.len_swap]; exact ht) (by omega) hlen
    intro k hk hkn
    rw [L.less_pop _ k _ (by omega) (by omega)]
    exact hd k hk hkn

/-- `Fix` repairs the order after any change of the element at `i`: `s` is the heap before it -/
theorem hfix_ord (L : Lawful I) {s s' : σ} {i : Nat} (hi : i < I.len s) (hlen : I.len s' = I.len s)
    (h : Ord I s (I.len s))
    (hs : ∀ a b, a < I.len s → b < I.len s → a ≠ i → b ≠ i → I.less s' a b = I.less s a b) :
    Ord I (hfix I s' i) (I.len s) := by
  unfold hfix
  rw [hlen]
  exact sift_ord L (le_of_eq hlen.symm) hi (h.hole L (le_refl _) hs)

end
end GoHeap
