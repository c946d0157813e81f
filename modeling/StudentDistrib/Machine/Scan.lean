import Mathlib.Data.List.Basic

/-!
# Scans for the last match

A loop that runs over all indices below `n` and overwrites its result at every match
ends with the last one.
-/

namespace Machine

variable {p : Nat → Prop} [DecidablePred p]

/-- The last index below `n` at which `p` holds. -/
def lastMatch (p : Nat → Prop) [DecidablePred p] : Nat → Option Nat
  | 0 => none
  | n + 1 => if p n then some n else lastMatch p n

theorem foldl_range_last {α : Type*} (f : Nat → α) (a : α) (n : Nat) :
    (List.range n).foldl (fun found i => if p i then f i else found) a
      = ((lastMatch p n).map f).getD a := by
  induction n with
  | zero => rfl
  | succ n ih =>
    rw [List.range_succ, List.foldl_concat, ih, lastMatch]
    split
    · rfl
    · rfl

theorem lastMatch_eq_none {n : Nat} : lastMatch p n = none ↔ ∀ i, i < n → ¬ p i := by
  induction n with
  | zero => simp [lastMatch]
  | succ n ih =>
    by_cases hn : p n
    · simp only [lastMatch, hn, if_true, reduceCtorEq, false_iff]
      intro h
      exact h n (Nat.lt_succ_self n) hn
    · simp only [lastMatch, hn, if_false, ih]
      constructor
      · intro h i hi
        by_cases hin : i = n
        · exact hin ▸ hn
        · exact h i (by omega)
      · intro h i hi
        exact h i (by omega)

theorem lastMatch_eq_some {n i : Nat} :
    lastMatch p n = some i ↔ i < n ∧ p i ∧ ∀ j, i < j → j < n → ¬ p j := by
  induction n with
  | zero => simp [lastMatch]
  | succ n ih =>
    by_cases hn : p n
    · simp only [lastMatch, hn, if_true, Option.some.injEq]
      constructor
      · intro h
        subst h
        exact ⟨Nat.lt_succ_self n, hn, fun j hj hj' => absurd hj' (by omega)⟩
      · intro h
        obtain ⟨hlt, -, hlast⟩ := h
        by_contra hne
        exact hlast n (by omega) (Nat.lt_succ_self n) hn
    · simp only [lastMatch, hn, if_false, ih]
      constructor
      · intro h
        obtain ⟨hlt, hi, hlast⟩ := h
        refine ⟨by omega, hi, fun j hj hj' => ?_⟩
        by_cases hjn : j = n
        · exact hjn ▸ hn
        · exact hlast j hj (by omega)
      · intro h
        obtain ⟨hlt, hi, hlast⟩ := h
        have hne : i ≠ n := fun e => hn (e ▸ hi)
        exact ⟨by omega, hi, fun j hj hj' => hlast j hj (by omega)⟩

/-- The only match is the last one. -/
theorem lastMatch_of_unique {n i : Nat} (hlt : i < n) (hi : p i)
    (hunique : ∀ j, j < n → p j → j = i) : lastMatch p n = some i := by
  refine lastMatch_eq_some.mpr ⟨hlt, hi, fun j hj hj' hpj => ?_⟩
  have := hunique j hj' hpj
  omega

end Machine
