import Mathlib.Data.Nat.Notation
import Mathlib.Tactic.IntervalCases

/-! # Fixed-width hexadecimal

The lower-case hexadecimal numeral of a number, padded with zeros to a given
width. Below `16 ^ width` the numeral determines the number.
-/

namespace ValyriaApp.Lib.Hex

def IsDigit (c : Char) : Prop := c ∈ "0123456789abcdef".toList

def digits : ℕ → ℕ → List Char
  | 0, _ => []
  | width + 1, n => digits width (n / 16) ++ [Nat.digitChar (n % 16)]

variable {width n m : ℕ}

theorem length_digits : (digits width n).length = width := by
  induction width generalizing n with
  | zero => rfl
  | succ width ih => rw [digits, List.length_append, ih, List.length_singleton]

theorem isDigit_digitChar (h : n < 16) : IsDigit (Nat.digitChar n) := by
  rw [IsDigit]
  interval_cases n <;> decide

theorem isDigit_of_mem {c : Char} (h : c ∈ digits width n) : IsDigit c := by
  induction width generalizing n with
  | zero => cases h
  | succ width ih =>
    rcases List.mem_append.mp h with h | h
    · exact ih h
    · rw [List.mem_singleton.mp h]
      exact isDigit_digitChar (Nat.mod_lt n (by decide))

theorem digitChar_inj (hn : n < 16) (hm : m < 16) (h : Nat.digitChar n = Nat.digitChar m) :
    n = m := by
  have hall : ∀ i < 16, ∀ j < 16, Nat.digitChar i = Nat.digitChar j → i = j := by decide
  exact hall n hn m hm h

theorem digits_inj (hn : n < 16 ^ width) (hm : m < 16 ^ width)
    (h : digits width n = digits width m) : n = m := by
  induction width generalizing n m with
  | zero => omega
  | succ width ih =>
    obtain ⟨hhigh, hlow⟩ := List.append_inj' h rfl
    rw [pow_succ] at hn hm
    have hdiv : n / 16 = m / 16 := ih (by omega) (by omega) hhigh
    have hmod : n % 16 = m % 16 :=
      digitChar_inj (Nat.mod_lt n (by decide)) (Nat.mod_lt m (by decide)) (List.cons.inj hlow).1
    omega

end ValyriaApp.Lib.Hex
