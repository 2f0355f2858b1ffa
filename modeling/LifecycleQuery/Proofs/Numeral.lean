import LifecycleQuery.Numeral
import Mathlib.Algebra.Ring.Nat

/-!
# The numbers that digits spell

The decimal digits of a number spell that number (`digitsValue_toDigits`). Digits behind others move
these to the left (`digitsValue_append`), so zeros in front do not count, and a number has as many
digits as its size asks for (`digitsValue_lt`).
-/

namespace LifecycleQuery

theorem digitsValue_eq_ofDigitChars (digits : List Char) :
    digitsValue digits = Nat.ofDigitChars 10 digits 0 := by
  simp only [digitsValue, Nat.ofDigitChars_eq_foldl, Nat.mul_comm]

theorem digitsValue_toDigits (n : Nat) : digitsValue (Nat.toDigits 10 n) = n := by
  rw [digitsValue_eq_ofDigitChars, Nat.ofDigitChars_ten_toDigits]

/-- Only zero is written with a zero in front. -/
theorem head?_toDigits {n : Nat} (hn : n ≠ 0) : (Nat.toDigits 10 n).head? ≠ some '0' := by
  induction n using Nat.strong_induction_on with
  | _ n ih =>
    rcases Nat.lt_or_ge n 10 with hlt | hge
    · rw [Nat.toDigits_of_lt_base hlt]
      simpa using hn
    · have hhead := ih (n / 10) (by omega) (by omega)
      rw [Nat.toDigits_of_base_le (by decide) hge]
      cases hd : Nat.toDigits 10 (n / 10) with
      | nil => exact absurd hd Nat.toDigits_ne_nil
      | cons c ds => rwa [hd] at hhead

theorem digitsValue_append (digits more : List Char) :
    digitsValue (digits ++ more) = digitsValue digits * 10 ^ more.length + digitsValue more := by
  simp only [digitsValue_eq_ofDigitChars, Nat.ofDigitChars_append]
  rw [Nat.ofDigitChars_eq_ofDigitChars_zero, Nat.mul_comm]

theorem digitsValue_zeros (n : Nat) : digitsValue (List.replicate n '0') = 0 := by
  induction n with
  | zero => rfl
  | succ n ih => rw [List.replicate_succ', digitsValue_append, ih]; rfl

theorem digitsValue_lt {digits : List Char} (h : ∀ c ∈ digits, c.isDigit = true) :
    digitsValue digits < 10 ^ digits.length := by
  induction digits with
  | nil => decide
  | cons c rest ih =>
    have hrest := ih fun d hd => h d (List.mem_cons_of_mem c hd)
    have hc : digitsValue [c] ≤ 9 := by
      have hdigit := Char.isDigit_iff_toNat.1 (h c List.mem_cons_self)
      simp only [digitsValue, List.foldl_cons, List.foldl_nil, Nat.zero_mul, Nat.zero_add]
      exact Nat.sub_le_of_le_add hdigit.2
    rw [← List.singleton_append, digitsValue_append, List.length_append, Nat.pow_add]
    calc digitsValue [c] * 10 ^ rest.length + digitsValue rest
        < digitsValue [c] * 10 ^ rest.length + 10 ^ rest.length := Nat.add_lt_add_left hrest _
      _ = (digitsValue [c] + 1) * 10 ^ rest.length := (Nat.succ_mul _ _).symm
      _ ≤ 10 ^ [c].length * 10 ^ rest.length := Nat.mul_le_mul_right _ (Nat.succ_le_succ hc)

end LifecycleQuery
