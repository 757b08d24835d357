import Mathlib

/-!
# Integers as decimal strings

`itoa` writes an integer in decimal, `parse` reads one with an optional sign.

* `parse_itoa`      what was written is read back;
* `itoa_injective`  so different integers have different strings;
* `not_mem_itoa`    only digits and the sign occur in the string of an integer;
* `append_itoa_inj` a string that ends in a mark and a number can be taken apart again.
-/

namespace Decimal

def itoa (n : Int) : String := n.repr

def digits (cs : List Char) : Option Nat :=
  if cs ≠ [] ∧ cs.all Char.isDigit then some (Nat.ofDigitChars 10 cs 0) else none

def parse (s : String) : Option Int :=
  match s.toList with
  | '-' :: cs => (digits cs).map fun n => -(n : Int)
  | '+' :: cs => (digits cs).map fun n => (n : Int)
  | cs => (digits cs).map fun n => (n : Int)

theorem digits_toDigits (n : Nat) : digits (Nat.toDigits 10 n) = some n := by
  have hall : (Nat.toDigits 10 n).all Char.isDigit = true := by
    rw [List.all_eq_true]
    exact fun c hc => Nat.isDigit_of_mem_toDigits (by decide) (by decide) hc
  rw [digits, if_pos ⟨Nat.toDigits_ne_nil, hall⟩,
    Nat.ofDigitChars_toDigits (by decide) (by decide)]

theorem toList_itoa_ofNat (n : Nat) : (itoa n).toList = Nat.toDigits 10 n := Nat.toList_repr

theorem toList_itoa_negSucc (n : Nat) :
    (itoa (.negSucc n)).toList = '-' :: Nat.toDigits 10 (n + 1) := by
  show ("-" ++ (n + 1).repr).toList = _
  rw [String.toList_append, Nat.toList_repr]
  rfl

theorem parse_of_digits {s : String} {n : Nat} (h : s.toList = Nat.toDigits 10 n) :
    parse s = some n := by
  have hd : ∀ c ∈ s.toList, c.isDigit = true := fun c hc =>
    Nat.isDigit_of_mem_toDigits (by decide) (by decide) (h ▸ hc)
  unfold parse
  split
  · rename_i e
    rw [e] at hd
    exact absurd (hd '-' List.mem_cons_self) (by decide)
  · rename_i e
    rw [e] at hd
    exact absurd (hd '+' List.mem_cons_self) (by decide)
  · rw [h, digits_toDigits]
    rfl

theorem parse_itoa (n : Int) : parse (itoa n) = some n := by
  cases n with
  | ofNat n => exact parse_of_digits (toList_itoa_ofNat n)
  | negSucc n =>
    unfold parse
    rw [toList_itoa_negSucc]
    show (digits (Nat.toDigits 10 (n + 1))).map (fun n => -(n : Int)) = _
    rw [digits_toDigits]
    rfl

theorem itoa_injective : Function.Injective itoa := fun a b h => by
  have h' := congrArg parse h
  rw [parse_itoa, parse_itoa] at h'
  exact Option.some.inj h'

theorem not_mem_itoa {c : Char} (hd : c.isDigit = false) (hs : c ≠ '-') (n : Int) :
    c ∉ (itoa n).toList := by
  intro h
  have hdig : ∀ m, c ∉ Nat.toDigits 10 m := fun m hm => by
    rw [Nat.isDigit_of_mem_toDigits (by decide) (by decide) hm] at hd
    cases hd
  cases n with
  | ofNat n =>
    rw [show itoa (.ofNat n) = itoa (n : Int) from rfl, toList_itoa_ofNat] at h
    exact hdig n h
  | negSucc n =>
    rw [toList_itoa_negSucc] at h
    rcases List.mem_cons.mp h with h | h
    · exact hs h
    · exact hdig _ h

theorem split_at_mark {c : Char} {x y u v : List Char} (hx : c ∉ x) (hy : c ∉ y)
    (e : x ++ c :: u = y ++ c :: v) : x = y ∧ u = v := by
  induction x generalizing y with
  | nil =>
    cases y with
    | nil => exact ⟨rfl, List.tail_eq_of_cons_eq e⟩
    | cons z y => exact absurd (List.head_eq_of_cons_eq e ▸ List.mem_cons_self) hy
  | cons z x ih =>
    cases y with
    | nil => exact absurd (List.head_eq_of_cons_eq e ▸ List.mem_cons_self) hx
    | cons w y =>
      obtain ⟨h1, h2⟩ := ih (fun hc => hx (List.mem_cons_of_mem _ hc))
        (fun hc => hy (List.mem_cons_of_mem _ hc)) (List.tail_eq_of_cons_eq e)
      exact ⟨by rw [List.head_eq_of_cons_eq e, h1], h2⟩

/-- the last `c` of the string ends the first part -/
theorem append_itoa_inj {c : Char} (hd : c.isDigit = false) (hs : c ≠ '-') {a b : String} {m n : Int}
    (h : a ++ String.singleton c ++ itoa m = b ++ String.singleton c ++ itoa n) :
    a = b ∧ m = n := by
  have h' := congrArg (fun s => s.toList.reverse) h
  simp only [String.toList_append, String.toList_singleton, List.reverse_append,
    List.reverse_cons, List.reverse_nil, List.nil_append, List.singleton_append] at h'
  have hm : ∀ m, c ∉ (itoa m).toList.reverse := fun m hc =>
    not_mem_itoa hd hs m (List.mem_reverse.mp hc)
  obtain ⟨h1, h2⟩ := split_at_mark (hm m) (hm n) h'
  refine ⟨String.toList_injective (List.reverse_injective h2), itoa_injective ?_⟩
  exact String.toList_injective (List.reverse_injective h1)

end Decimal
