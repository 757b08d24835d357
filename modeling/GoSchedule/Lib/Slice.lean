import Mathlib

/-!
# Slices with checked accesses, and loops over them

Code that reads and writes `xs[i]` can fail, and a loop may not end.  Both are results here.

* `get`, `put`   `xs[i]` and `xs[i] = x` for an integer `i`, with the fault that an index outside gives;
* `loop cond body n s`   `for cond { body }` from the state `s`, in at most `n` rounds;
* `loop_total`   **the loop ends, without a fault**, in a state where its invariant holds and its test
  fails, if every round keeps the invariant and lowers a measure;
* `inPlace f xs`   `keep := xs[:0]; for _, x := range xs { if f(x) { keep = append(keep, x) } }`, where `f`
  works on a state and can fail.  `keep` and `xs` are one array;
* `inPlace_eq`   **no element is overwritten before it is read**: the loop gives what `sieve` gives, which
  goes through the list.
-/

namespace Slice

inductive Fault where
  | outOfRange
  | outOfFuel
deriving DecidableEq, Repr

section
variable {α σ : Type}

def get (xs : List α) (i : Int) : Except Fault α :=
  if 0 ≤ i then
    match xs[i.toNat]? with
    | some x => .ok x
    | none => .error .outOfRange
  else .error .outOfRange

def put (xs : List α) (i : Int) (x : α) : Except Fault (List α) :=
  if 0 ≤ i ∧ i < xs.length then .ok (xs.set i.toNat x) else .error .outOfRange

theorem get_eq_ok {xs ys zs : List α} {x : α} {i : Int} (hxs : xs = ys ++ x :: zs)
    (hi : i = ys.length) : get xs i = .ok x := by
  subst hxs hi
  unfold get
  rw [if_pos (Int.natCast_nonneg _), Int.toNat_natCast, List.getElem?_append_right (le_refl _),
    Nat.sub_self]
  rfl

theorem put_eq_ok {xs ys zs : List α} {x y : α} {i : Int} (hxs : xs = ys ++ x :: zs)
    (hi : i = ys.length) : put xs i y = .ok (ys ++ y :: zs) := by
  subst hxs hi
  have hlt : (ys.length : Int) < (ys ++ x :: zs).length := by
    rw [List.length_append, List.length_cons]
    omega
  unfold put
  rw [if_pos ⟨Int.natCast_nonneg _, hlt⟩, Int.toNat_natCast, List.set_append_right _ _ (le_refl _),
    Nat.sub_self]
  rfl

variable (cond : σ → Except Fault Bool) (body : σ → Except Fault σ)

def loop : Nat → σ → Except Fault σ
  | 0, s => do
    if ← cond s then .error .outOfFuel else .ok s
  | n + 1, s => do
    if ← cond s then loop n (← body s) else .ok s

variable {cond body}

theorem loop_false {n : Nat} {s : σ} (h : cond s = .ok false) : loop cond body n s = .ok s := by
  cases n <;> rw [loop, h] <;> rfl

theorem loop_true {n : Nat} {s t : σ} (h : cond s = .ok true) (hb : body s = .ok t) :
    loop cond body (n + 1) s = loop cond body n t := by
  rw [loop, h]
  show (body s >>= fun t => loop cond body n t) = _
  rw [hb]
  rfl

theorem loop_total {I : σ → Prop} (m : σ → Nat)
    (hround : ∀ s, I s → cond s = .ok false ∨
      cond s = .ok true ∧ ∃ t, body s = .ok t ∧ I t ∧ m t < m s)
    {n : Nat} {s : σ} (hs : I s) (hn : m s ≤ n) :
    ∃ t, loop cond body n s = .ok t ∧ I t ∧ cond t = .ok false := by
  induction n generalizing s with
  | zero =>
    rcases hround s hs with hfalse | ⟨_, t, _, _, hlt⟩
    · exact ⟨s, loop_false hfalse, hs, hfalse⟩
    · omega
  | succ n ih =>
    rcases hround s hs with hfalse | ⟨htrue, t, hbody, ht, hlt⟩
    · exact ⟨s, loop_false hfalse, hs, hfalse⟩
    · rw [loop_true htrue hbody]
      exact ih ht (by omega)

end

section
variable {α σ ε : Type} (f : σ → α → Except ε (Bool × σ))

/-- `n` rounds are left, `i` is the index that is read, and `keep` has the first `k` elements -/
def inPlaceFrom : Nat → List α → Nat → Nat → σ → Except ε (List α × σ)
  | 0, xs, _, k, s => .ok (xs.take k, s)
  | n + 1, xs, i, k, s =>
    match xs[i]? with
    | none => .ok (xs.take k, s)
    | some x => do
      let r ← f s x
      if r.1 then inPlaceFrom n (xs.set k x) (i + 1) (k + 1) r.2 else inPlaceFrom n xs (i + 1) k r.2

def inPlace (xs : List α) (s : σ) : Except ε (List α × σ) := inPlaceFrom f xs.length xs 0 0 s

def sieve : List α → σ → Except ε (List α × σ)
  | [], s => .ok ([], s)
  | x :: xs, s => do
    let r ← f s x
    let r' ← sieve xs r.2
    .ok (if r.1 then x :: r'.1 else r'.1, r'.2)

variable {f}

theorem sieve_cons {x : α} {xs : List α} {s s' : σ} {b : Bool} (h : f s x = .ok (b, s')) :
    sieve f (x :: xs) s = (sieve f xs s').map fun r => (if b then x :: r.1 else r.1, r.2) := by
  rw [sieve, h]
  show (sieve f xs s' >>= fun r => _) = _
  cases sieve f xs s' <;> rfl

/-- the array holds what was kept, then what was overwritten or passed over, then what is unread -/
theorem inPlaceFrom_eq {B : List α} (K G : List α) (s : σ) :
    inPlaceFrom f B.length (K ++ (G ++ B)) (K.length + G.length) K.length s =
      (sieve f B s).map fun r => (K ++ r.1, r.2) := by
  induction B generalizing K G s with
  | nil =>
    show Except.ok ((K ++ (G ++ [])).take K.length, s) = .ok (K ++ [], s)
    rw [List.take_left, List.append_nil]
  | cons x B ih =>
    have hx : (K ++ (G ++ x :: B))[K.length + G.length]? = some x := by
      rw [← List.append_assoc, ← List.length_append, List.getElem?_append_right (le_refl _), Nat.sub_self]
      rfl
    rw [List.length_cons, inPlaceFrom, hx]
    dsimp only
    cases hr : f s x with
    | error e =>
      rw [sieve, hr]
      rfl
    | ok r =>
      obtain ⟨b, s'⟩ := r
      rw [sieve_cons hr]
      cases b with
      | false =>
        have hih := ih K (G ++ [x]) s'
        rw [List.length_append, List.length_singleton, List.append_assoc, List.singleton_append] at hih
        show inPlaceFrom f B.length _ (K.length + G.length + 1) K.length s' = _
        rw [Nat.add_assoc, hih]
        cases sieve f B s' <;> rfl
      | true =>
        -- the first element that is not needed any more is overwritten, if there is one
        obtain ⟨G', hlen, hset⟩ : ∃ G', G'.length = G.length ∧
            (K ++ (G ++ x :: B)).set K.length x = (K ++ [x]) ++ (G' ++ B) := by
          rw [List.set_append_right _ _ (le_refl _), Nat.sub_self]
          cases G with
          | nil => exact ⟨[], rfl, by simp⟩
          | cons g G => exact ⟨G ++ [x], by simp, by simp⟩
        have hih := ih (K ++ [x]) G' s'
        rw [List.length_append, List.length_singleton, hlen] at hih
        show inPlaceFrom f B.length ((K ++ (G ++ x :: B)).set K.length x) (K.length + G.length + 1)
          (K.length + 1) s' = _
        rw [hset, Nat.add_right_comm, hih]
        cases sieve f B s' with
        | error e => rfl
        | ok r =>
          show Except.ok ((K ++ [x]) ++ r.1, r.2) = .ok (K ++ x :: r.1, r.2)
          rw [List.append_assoc, List.singleton_append]

theorem inPlace_eq (xs : List α) (s : σ) : inPlace f xs s = sieve f xs s := by
  have h := inPlaceFrom_eq (f := f) (B := xs) [] [] s
  rw [inPlace]
  refine h.trans ?_
  cases sieve f xs s <;> rfl

end
end Slice
