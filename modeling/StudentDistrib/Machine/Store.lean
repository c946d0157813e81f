import StudentDistrib.Machine.Names

/-!
# Bytes written in a row

`store` writes a list of bytes from a position on.  A loop that fills a buffer, and the
loop that reverses a string in place, are read as one `store`.
-/

namespace Machine

namespace Bytes

/-- The bytes from position `p` on. -/
def shift (p : Int) (m : Bytes) : Bytes := fun i => m (p + i)

theorem shift_shift (p q : Int) (m : Bytes) : (m.shift p).shift q = m.shift (p + q) := by
  funext i
  exact congrArg m (Int.add_assoc p q i).symm

/-- The bytes of `l` written from position `p` on. -/
def store : List UInt8 → Int → Bytes → Bytes
  | [], _, m => m
  | b :: l, p, m => store l (p + 1) (Function.update m p b)

variable {l : List UInt8} {p : Int}

theorem store_apply (l : List UInt8) (p : Int) (m : Bytes) (i : Int) :
    store l p m i = if p ≤ i then l[(i - p).toNat]?.getD (m i) else m i := by
  induction l generalizing p m with
  | nil => simp [store]
  | cons b l ih =>
    rw [store, ih]
    rcases Int.lt_trichotomy i p with hlt | rfl | hgt
    · rw [if_neg (by omega), if_neg (by omega), Function.update_of_ne (by omega)]
    · rw [if_neg (by omega), if_pos (Int.le_refl i), Function.update_self, Int.sub_self]
      rfl
    · have hindex : (i - p).toNat = (i - (p + 1)).toNat + 1 := by omega
      rw [if_pos (by omega), if_pos (by omega), hindex, List.getElem?_cons_succ,
        Function.update_of_ne (by omega)]

theorem store_getElem {i : Nat} (hi : i < l.length) (p : Int) (m : Bytes) :
    store l p m (p + i) = l[i] := by
  have hindex : (p + i - p).toNat = i := by omega
  rw [store_apply, if_pos (by omega), hindex, List.getElem?_eq_getElem hi]
  rfl

theorem store_outside {m : Bytes} {i : Int} (h : i < p ∨ p + l.length ≤ i) :
    store l p m i = m i := by
  rw [store_apply]
  by_cases hle : p ≤ i
  · rw [if_pos hle, List.getElem?_eq_none (by omega)]
    rfl
  · exact if_neg hle

theorem store_append (l k : List UInt8) (p : Int) (m : Bytes) :
    store (l ++ k) p m = store k (p + l.length) (store l p m) := by
  induction l generalizing p m with
  | nil => simp [store]
  | cons b l ih =>
    have hp : p + (b :: l).length = p + 1 + l.length := by
      rw [List.length_cons]
      push_cast
      omega
    rw [List.cons_append, store, ih, store, hp]

theorem store_concat (l : List UInt8) (b : UInt8) (p : Int) (m : Bytes) :
    store (l ++ [b]) p m = Function.update (store l p m) (p + l.length) b := by
  rw [store_append]
  rfl

/-- Lists stored apart from each other are stored in either order. -/
theorem store_comm {l k : List UInt8} {p q : Int} (h : p + l.length ≤ q) (m : Bytes) :
    store l p (store k q m) = store k q (store l p m) := by
  funext i
  by_cases hi : i < q
  · have hk := store_outside (l := k) (m := m) (Or.inl hi)
    rw [store_outside (l := k) (Or.inl hi), store_apply l, store_apply l, hk]
  · have hl : ∀ m, store l p m i = m i := fun m => store_outside (by omega)
    rw [hl, store_apply k, store_apply k, hl]

/-- A stored string with its terminator. -/
theorem holds_store {w : List UInt8} (h : ∀ b ∈ w, b ≠ 0) (p : Int) (m : Bytes) :
    (shift p (store (w ++ [0]) p m)).Holds w := by
  refine ⟨h, ?_, ?_⟩
  · refine List.ext_getElem (length_take _ _) fun i hi hw => ?_
    simp only [take, List.getElem_map, List.getElem_range]
    rw [shift, store_getElem (by simp; omega), List.getElem_append_left hw]
  · rw [shift, store_getElem (by simp)]
    simp

/-! ## Reversal in place -/

/-- The two-index loop of a reversal: the bytes at `beg` and `last` change places while
`beg` is below `last`, and both indexes move inwards. -/
def swapInwards (p : Int) : (bound : Nat) → (beg last : Int) → Bytes → Bytes
  | 0, _, _, m => m
  | bound + 1, beg, last, m =>
    if beg < last then
      swapInwards p bound (beg + 1) (last - 1)
        (Function.update (Function.update m (p + last) (m (p + beg))) (p + beg) (m (p + last)))
    else m

/-- The loop mirrors the bytes between its indexes. -/
theorem swapInwards_apply (p : Int) {bound : Nat} {beg last : Int} (h : last - beg ≤ 2 * bound)
    (m : Bytes) (i : Int) :
    swapInwards p bound beg last m (p + i) =
      if beg ≤ i ∧ i ≤ last then m (p + (beg + last - i)) else m (p + i) := by
  induction bound generalizing beg last m with
  | zero =>
    rw [swapInwards]
    by_cases hin : beg ≤ i ∧ i ≤ last
    · have hi : beg + last - i = i := by omega
      rw [if_pos hin, hi]
    · rw [if_neg hin]
  | succ bound ih =>
    rw [swapInwards]
    by_cases hlt : beg < last
    · rw [if_pos hlt, ih (by omega)]
      have hsum : beg + 1 + (last - 1) - i = beg + last - i := by omega
      rw [hsum]
      rcases Int.lt_trichotomy i beg with hbeg | rfl | hbeg
      · rw [if_neg (by omega), if_neg (by omega), Function.update_of_ne (by omega),
          Function.update_of_ne (by omega)]
      · have hmirror : i + last - i = last := by omega
        rw [if_neg (by omega), if_pos (by omega), Function.update_self, hmirror]
      · rcases Int.lt_trichotomy i last with hlast | rfl | hlast
        · rw [if_pos (by omega), if_pos (by omega), Function.update_of_ne (by omega),
            Function.update_of_ne (by omega)]
        · have hmirror : beg + i - i = beg := by omega
          rw [if_neg (by omega), if_pos (by omega), Function.update_of_ne (by omega),
            Function.update_self, hmirror]
        · rw [if_neg (by omega), if_neg (by omega), Function.update_of_ne (by omega),
            Function.update_of_ne (by omega)]
    · rw [if_neg hlt]
      by_cases hin : beg ≤ i ∧ i ≤ last
      · have hi : beg + last - i = i := by omega
        rw [if_pos hin, hi]
      · rw [if_neg hin]

/-- The loop reverses a stored list. -/
theorem swapInwards_store {l k : List UInt8} {bound : Nat} (h : l.length ≤ bound) (p : Int)
    (m : Bytes) :
    swapInwards p bound 0 (l.length - 1) (store (l ++ k) p m) = store (l.reverse ++ k) p m := by
  funext j
  obtain ⟨i, rfl⟩ : ∃ i, j = p + i := ⟨j - p, by omega⟩
  rw [swapInwards_apply p (by omega)]
  by_cases hin : 0 ≤ i ∧ i ≤ l.length - 1
  · obtain ⟨n, rfl⟩ := Int.eq_ofNat_of_zero_le hin.1
    have hn : n < l.length := by omega
    have hmirror : (0 : Int) + (l.length - 1) - n = (l.length - 1 - n : Nat) := by omega
    rw [if_pos hin, hmirror, store_getElem (by simp; omega), store_getElem (by simp; omega),
      List.getElem_append_left (by omega), List.getElem_append_left (by simpa using hn),
      List.getElem_reverse]
  · rw [if_neg hin]
    by_cases hneg : i < 0
    · rw [store_outside (by omega), store_outside (by omega)]
    · rw [store_append, store_append, store_apply k, store_apply k, List.length_reverse]
      have hafter : p + l.length ≤ p + i := by omega
      rw [if_pos hafter, if_pos hafter, store_outside (by omega),
        store_outside (by rw [List.length_reverse]; omega)]

end Bytes

end Machine
