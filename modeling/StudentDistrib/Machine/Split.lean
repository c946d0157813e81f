import Mathlib.Data.List.DropRight
import Mathlib.Data.List.TakeWhile

/-!
# Lists with separators

What follows the first and the last separator of a list, and where a prefix without
separators ends.
-/

namespace Machine

section TakeWhile

variable {α : Type*} {p : α → Bool} {l : List α}

theorem getElem_of_lt_takeWhile {i : Nat} (h : i < (l.takeWhile p).length) :
    ∃ hi : i < l.length, l[i] = (l.takeWhile p)[i] ∧ p l[i] = true := by
  have hpre := List.takeWhile_prefix (l := l) p
  have hi : i < l.length := Nat.lt_of_lt_of_le h hpre.length_le
  have hsame : (l.takeWhile p)[i] = l[i] := hpre.getElem h
  refine ⟨hi, hsame.symm, ?_⟩
  rw [← hsame]
  exact List.mem_takeWhile_imp (List.getElem_mem h)

/-- The prefix ends at an element that `p` refuses. -/
theorem not_of_length_takeWhile (h : (l.takeWhile p).length < l.length) :
    p l[(l.takeWhile p).length] = false := by
  induction l with
  | nil => cases h
  | cons a l ih =>
    cases ha : p a with
    | false => simp [ha]
    | true =>
      have hlt : (l.takeWhile p).length < l.length := by
        simp only [List.takeWhile_cons, ha, if_true, List.length_cons] at h
        omega
      have hrest := ih hlt
      simp [ha, hrest]

end TakeWhile

variable {α : Type*} {c : α} {pre rest l : List α}

theorem exists_last (h : c ∈ l) : ∃ pre rest, l = pre ++ c :: rest ∧ c ∉ rest := by
  obtain ⟨before, after, hsplit, hnot⟩ := List.eq_append_cons_of_mem (List.mem_reverse.mpr h)
  refine ⟨after.reverse, before.reverse, ?_, fun hmem => hnot (List.mem_reverse.mp hmem)⟩
  have hback := congrArg List.reverse hsplit
  simpa using hback

variable [DecidableEq α]

/-- What follows the first `c`. -/
def afterFirst (c : α) (l : List α) : List α := (l.dropWhile (· ≠ c)).tail

/-- What follows the last `c`. -/
def afterLast (c : α) (l : List α) : List α :=
  if c ∈ l then l.rtakeWhile (· ≠ c) else []

/-- The list without one `c` at its end. -/
def dropTrailing (c : α) (l : List α) : List α := if l.getLast? = some c then l.dropLast else l

theorem afterFirst_append (h : c ∉ pre) : afterFirst c (pre ++ c :: rest) = rest := by
  have hpre : ∀ a ∈ pre, a ≠ c := fun a ha heq => h (heq ▸ ha)
  rw [afterFirst, List.dropWhile_append_of_pos (by simpa using hpre)]
  simp

theorem afterFirst_of_notMem (h : c ∉ l) : afterFirst c l = [] := by
  have hall : ∀ a ∈ l, a ≠ c := fun a ha heq => h (heq ▸ ha)
  have hdrop : l.dropWhile (· ≠ c) = [] := List.dropWhile_eq_nil_iff.mpr (by simpa using hall)
  rw [afterFirst, hdrop]
  rfl

theorem afterLast_append (h : c ∉ rest) : afterLast c (pre ++ c :: rest) = rest := by
  have hrest : ∀ a ∈ rest.reverse, a ≠ c := by
    intro a ha heq
    exact h (heq ▸ List.mem_reverse.mp ha)
  have hmem : c ∈ pre ++ c :: rest := by simp
  rw [afterLast, if_pos hmem, List.rtakeWhile, List.reverse_append, List.reverse_cons,
    List.append_assoc, List.takeWhile_append_of_pos (by simpa using hrest)]
  simp

theorem afterLast_of_notMem (h : c ∉ l) : afterLast c l = [] := if_neg h

theorem mem_of_mem_afterLast {a : α} (h : a ∈ afterLast c l) : a ∈ l := by
  by_cases hc : c ∈ l
  · obtain ⟨pre, rest, rfl, hrest⟩ := exists_last hc
    rw [afterLast_append hrest] at h
    simp [h]
  · rw [afterLast_of_notMem hc] at h
    cases h

theorem dropTrailing_of_ne (h : l.getLast? ≠ some c) : dropTrailing c l = l := if_neg h

/-- A part of a list that ends before the last element stays. -/
theorem prefix_dropTrailing {b : α} (hb : b ≠ c) (pre rest : List α) :
    pre ++ [b] <+: dropTrailing c (pre ++ b :: rest) := by
  unfold dropTrailing
  split
  · rename_i hlast
    cases rest with
    | nil =>
      simp only [List.getLast?_append, List.getLast?_singleton, Option.some_or,
        Option.some.injEq] at hlast
      exact absurd hlast hb
    | cons a rest =>
      refine ⟨(a :: rest).dropLast, ?_⟩
      simp
  · exact ⟨rest, by simp⟩

theorem length_dropTrailing_lt (h : l.getLast? = some c) :
    (dropTrailing c l).length < l.length := by
  have hne : l ≠ [] := by
    intro hnil
    rw [hnil] at h
    cases h
  have hpos := List.length_pos_of_ne_nil hne
  rw [dropTrailing, if_pos h, List.length_dropLast]
  omega

end Machine
