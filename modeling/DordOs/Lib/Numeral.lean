import Mathlib.Data.Nat.Digits.Lemmas

/-!
Numerals: the digits of a number as they are written, highest first, without
leading zeros.
-/
namespace DordOs.Lib

def numeral (b n : Nat) : List Nat := if n = 0 then [0] else (Nat.digits b n).reverse

variable {b n : Nat}

theorem numeral_of_lt (h : n < b) : numeral b n = [n] := by
  rw [numeral]
  split
  next hzero => rw [hzero]
  next hne =>
    rw [Nat.digits_of_lt b n hne h]
    rfl

/-- The last digit is the remainder, the digits before it are the quotient's. -/
theorem numeral_of_le (hb : 1 < b) (h : b ≤ n) : numeral b n = numeral b (n / b) ++ [n % b] := by
  have hpos : 0 < n / b := Nat.div_pos h (by omega)
  rw [numeral, if_neg (by omega), Nat.digits_def' hb (by omega), List.reverse_cons, numeral,
    if_neg (by omega)]

theorem numeral_ne_nil (hb : 1 < b) : numeral b n ≠ [] := by
  by_cases h : n < b
  · rw [numeral_of_lt h]
    exact List.cons_ne_nil n []
  · rw [numeral_of_le hb (Nat.not_lt.mp h)]
    exact List.append_ne_nil_of_right_ne_nil _ (List.cons_ne_nil _ _)

theorem lt_of_mem_numeral (hb : 1 < b) {d : Nat} (h : d ∈ numeral b n) : d < b := by
  rw [numeral] at h
  split at h
  next =>
    rw [List.mem_singleton.mp h]
    omega
  next => exact Nat.digits_lt_base hb (List.mem_reverse.mp h)

theorem length_numeral_le_iff (hb : 1 < b) {k : Nat} (hk : 0 < k) :
    (numeral b n).length ≤ k ↔ n < b ^ k := by
  rw [numeral]
  split
  next hzero =>
    rw [hzero]
    exact ⟨fun _ => Nat.pow_pos (by omega), fun _ => hk⟩
  next => rw [List.length_reverse, Nat.digits_length_le_iff hb]

/-- Only the numeral of zero starts with a zero. -/
theorem eq_zero_of_head?_numeral (h : (numeral b n).head? = some 0) : n = 0 := by
  rw [numeral] at h
  split at h
  next hzero => exact hzero
  next hne =>
    rw [List.head?_reverse, List.getLast?_eq_some_getLast (Nat.digits_ne_nil_iff_ne_zero.mpr hne),
      Option.some.injEq] at h
    exact absurd h (Nat.getLast_digit_ne_zero b hne)

/-- Reading a numeral digit by digit. -/
def numeralValue (b : Nat) (digits : List Nat) : Nat := digits.foldl (fun v d => v * b + d) 0

theorem numeralValue_numeral (hb : 1 < b) : numeralValue b (numeral b n) = n := by
  induction n using Nat.strong_induction_on with
  | _ n ih =>
      by_cases h : n < b
      · rw [numeral_of_lt h, numeralValue, List.foldl_cons, List.foldl_nil, Nat.zero_mul,
          Nat.zero_add]
      · have hle := Nat.not_lt.mp h
        have hrest := ih (n / b) (Nat.div_lt_self (by omega) hb)
        rw [numeralValue] at hrest
        rw [numeral_of_le hb hle, numeralValue, List.foldl_append, hrest, List.foldl_cons,
          List.foldl_nil, Nat.div_add_mod']

end DordOs.Lib
