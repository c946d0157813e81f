import Mathlib.Data.Nat.Digits.Lemmas

/-!
# Numerals

The canonical numeral of a number is its list of digits with the most significant
first and no leading zero, the numeral of 0 being a single zero.
-/

namespace Machine

/-- `ds` is the canonical numeral of `n` in base `b`. -/
structure IsNumeral (b n : Nat) (ds : List Nat) : Prop where
  digit : ∀ d ∈ ds, d < b
  value : Nat.ofDigits b ds.reverse = n
  nonempty : ds ≠ []
  leading : ds.head? = some 0 → ds = [0]

def numeral (b n : Nat) : List Nat := if n = 0 then [0] else (Nat.digits b n).reverse

variable {b n : Nat}

theorem numeral_of_ne_zero (h : n ≠ 0) : numeral b n = (Nat.digits b n).reverse := if_neg h

theorem isNumeral_numeral (hb : 1 < b) (n : Nat) : IsNumeral b n (numeral b n) := by
  by_cases hn : n = 0
  · subst hn
    have hzero : numeral b 0 = [0] := rfl
    rw [hzero]
    exact ⟨by simp; omega, by simp, by simp, fun _ => rfl⟩
  · rw [numeral_of_ne_zero hn]
    refine ⟨fun d hd => ?_, ?_, ?_, ?_⟩
    · exact Nat.digits_lt_base hb (List.mem_reverse.mp hd)
    · rw [List.reverse_reverse, Nat.ofDigits_digits]
    · rw [Ne, List.reverse_eq_nil_iff, Nat.digits_eq_nil_iff_eq_zero]
      exact hn
    · intro hhead
      have hne := (Nat.digits_ne_nil_iff_ne_zero (b := b)).mpr hn
      rw [List.head?_reverse, List.getLast?_eq_some_getLast hne, Option.some.injEq] at hhead
      exact absurd hhead (Nat.getLast_digit_ne_zero b hn)

theorem length_numeral_le {k : Nat} (hb : 1 < b) (hk : 0 < k) (h : n < b ^ k) :
    (numeral b n).length ≤ k := by
  by_cases hn : n = 0
  · subst hn
    exact hk
  · rw [numeral_of_ne_zero hn, List.length_reverse]
    exact (Nat.digits_length_le_iff hb n).mpr h

end Machine
