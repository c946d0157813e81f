import Mathlib.Algebra.Ring.Int.Defs
import Mathlib.Algebra.Ring.Nat
import Mathlib.Data.List.GetD
import Mathlib.Logic.Function.Basic

/-!
# Byte memories

`Bytes` is memory as seen from a pointer: the byte at every offset, negative
offsets and offsets past an array included, so that an access out of bounds is
an access like any other.  An array of length `n` is the offsets `0 … n - 1`,
and `SameOn n` compares two memories there.
-/

namespace Machine

/-- Memory as seen from a pointer. -/
abbrev Bytes := Int → UInt8

namespace Bytes

/-- `memcpy` of `n` bytes to the start of `dst` from a range that does not
overlap it. -/
def copy (n : Int) (src dst : Bytes) : Bytes :=
  fun i => if 0 ≤ i ∧ i < n then src i else dst i

/-- The first `n` bytes set to zero. -/
def zero (n : Int) (dst : Bytes) : Bytes :=
  fun i => if 0 ≤ i ∧ i < n then 0 else dst i

/-- The first `n` bytes as a list. -/
def take (n : Nat) (m : Bytes) : List UInt8 :=
  (List.range n).map fun i : Nat => m i

/-- A list laid out from offset 0, with zero bytes everywhere else. -/
def ofList (l : List UInt8) : Bytes :=
  fun i => if 0 ≤ i then l.getD i.toNat 0 else 0

/-- Two memories with the same first `n` bytes. -/
def SameOn (n : Int) (m m' : Bytes) : Prop :=
  ∀ i, 0 ≤ i → i < n → m i = m' i

theorem copy_of_lt {n i : Int} (src dst : Bytes) (h0 : 0 ≤ i) (hn : i < n) :
    copy n src dst i = src i := if_pos ⟨h0, hn⟩

theorem zero_of_lt {n i : Int} (dst : Bytes) (h0 : 0 ≤ i) (hn : i < n) :
    zero n dst i = 0 := if_pos ⟨h0, hn⟩

theorem SameOn.refl (n : Int) (m : Bytes) : SameOn n m m := fun _ _ _ => rfl

theorem SameOn.symm {n : Int} {m m' : Bytes} (h : SameOn n m m') : SameOn n m' m :=
  fun i h0 hn => (h i h0 hn).symm

theorem SameOn.trans {n : Int} {m m' m'' : Bytes} (h : SameOn n m m')
    (h' : SameOn n m' m'') : SameOn n m m'' :=
  fun i h0 hn => (h i h0 hn).trans (h' i h0 hn)

theorem sameOn_copy (n : Int) (src dst : Bytes) : SameOn n (copy n src dst) src :=
  fun _ h0 hn => copy_of_lt src dst h0 hn

theorem sameOn_zero (n : Int) (dst : Bytes) : SameOn n (zero n dst) (ofList []) := by
  intro i h0 hn
  rw [zero_of_lt dst h0 hn]
  simp [ofList]

theorem SameOn.update {n a : Int} {m m' : Bytes} (h : SameOn n m m') (b : UInt8) :
    SameOn n (Function.update m a b) (Function.update m' a b) := by
  intro i h0 hn
  simp only [Function.update_apply]
  split
  · rfl
  · exact h i h0 hn

theorem length_take (n : Nat) (m : Bytes) : (take n m).length = n := by simp [take]

theorem SameOn.take_eq {n : Nat} {m m' : Bytes} (h : SameOn n m m') : take n m = take n m' := by
  refine List.map_congr_left fun i hi => ?_
  have hlt := List.mem_range.mp hi
  exact h i (by omega) (by omega)

/-- Appending a byte stores it at the end of the list. -/
theorem ofList_concat (l : List UInt8) (b : UInt8) :
    ofList (l ++ [b]) = Function.update (ofList l) l.length b := by
  funext i
  simp only [ofList, Function.update_apply]
  by_cases hi : 0 ≤ i
  · simp only [hi, if_true]
    rcases Nat.lt_trichotomy i.toNat l.length with h | h | h
    · rw [if_neg (by omega), List.getD_append _ _ _ _ h]
    · rw [if_pos (by omega), List.getD_append_right _ _ _ _ (by omega), h]
      simp
    · rw [if_neg (by omega), List.getD_eq_default _ _ (by simp; omega),
        List.getD_eq_default _ _ (by omega)]
  · rw [if_neg hi, if_neg hi, if_neg (by omega)]

/-- Dropping the last byte clears it. -/
theorem ofList_dropLast (l : List UInt8) :
    ofList l.dropLast = Function.update (ofList l) ((l.length : Int) - 1) 0 := by
  funext i
  simp only [ofList, Function.update_apply]
  by_cases hi : 0 ≤ i
  · simp only [hi, if_true]
    rcases Nat.lt_trichotomy (i.toNat + 1) l.length with h | h | h
    · rw [if_neg (by omega), List.getD_eq_getElem _ _ (by simp; omega),
        List.getD_eq_getElem _ _ (by omega), List.getElem_dropLast]
    · rw [if_pos (by omega), List.getD_eq_default _ _ (by simp; omega)]
    · rw [List.getD_eq_default _ _ (by simp; omega), List.getD_eq_default _ _ (by omega)]
      simp
  · simp [hi]

theorem ofList_of_lt {l : List UInt8} {i : Nat} (h : i < l.length) : ofList l i = l[i] := by
  simp [ofList, h]

theorem ofList_of_le {l : List UInt8} {i : Int} (h : (l.length : Int) ≤ i) :
    ofList l i = 0 := by
  simp only [ofList]
  rw [if_pos (by omega), List.getD_eq_default _ _ (by omega)]

theorem take_ofList (l : List UInt8) : take l.length (ofList l) = l := by
  refine List.ext_getElem (length_take _ _) fun i _ h => ?_
  simp only [take, List.getElem_map, List.getElem_range]
  exact ofList_of_lt h

theorem sameOn_take (n : Nat) (m : Bytes) : SameOn n m (ofList (take n m)) := by
  intro i h0 hi
  obtain ⟨j, rfl⟩ := Int.eq_ofNat_of_zero_le h0
  have hj : j < (take n m).length := by
    rw [length_take]
    omega
  rw [ofList_of_lt hj]
  simp only [take, List.getElem_map, List.getElem_range]

/-- A list laid out and read back with zeros after it. -/
theorem take_ofList_append (l : List UInt8) (n : Nat) :
    take (l.length + n) (ofList l) = l ++ List.replicate n 0 := by
  refine List.ext_getElem ?_ fun i _ h => ?_
  · rw [length_take, List.length_append, List.length_replicate]
  · simp only [take, List.getElem_map, List.getElem_range]
    by_cases hi : i < l.length
    · rw [List.getElem_append_left hi]
      exact ofList_of_lt hi
    · rw [List.getElem_append_right (by omega), List.getElem_replicate]
      exact ofList_of_le (by omega)

end Bytes

/-! ## Addresses -/

/-- The addresses of `n` bytes from `p` on, which wrap around at the end of memory. -/
def consecutive (p : UInt32) (n : Nat) : List UInt32 :=
  (List.range n).map fun i => p + UInt32.ofNat i

theorem mem_consecutive {p a : UInt32} {n : Nat} :
    a ∈ consecutive p n ↔ ∃ i, i < n ∧ p + UInt32.ofNat i = a := by
  simp only [consecutive, List.mem_map, List.mem_range]

theorem toNat_add_ofNat {p : UInt32} {i : Nat} (h : p.toNat + i < 2 ^ 32) :
    (p + UInt32.ofNat i).toNat = p.toNat + i := by
  rw [UInt32.toNat_add, UInt32.toNat_ofNat', Nat.mod_eq_of_lt (by omega : i < 2 ^ 32),
    Nat.mod_eq_of_lt h]

/-- Bytes lie in a window as soon as the range from the first one does, since a range
that leaves the window meets its end before it wraps around. -/
theorem forall_mem_consecutive {lo hi : Nat} (hhi : hi < 2 ^ 32) (p : UInt32) (n : Nat) :
    (∀ a ∈ consecutive p n, lo ≤ a.toNat ∧ a.toNat < hi) ↔
      n = 0 ∨ lo ≤ p.toNat ∧ p.toNat + n ≤ hi := by
  constructor
  · intro h
    by_cases hn : n = 0
    · exact Or.inl hn
    have hfirst : p ∈ consecutive p n :=
      mem_consecutive.mpr ⟨0, Nat.pos_of_ne_zero hn, UInt32.add_zero p⟩
    obtain ⟨hlo, hlt⟩ := h p hfirst
    refine Or.inr ⟨hlo, ?_⟩
    by_contra hover
    have hedge : p + UInt32.ofNat (hi - p.toNat) ∈ consecutive p n :=
      mem_consecutive.mpr ⟨hi - p.toNat, by omega, rfl⟩
    have hend := (h _ hedge).2
    rw [toNat_add_ofNat (by omega)] at hend
    omega
  · rintro (rfl | ⟨hlo, hend⟩) a ha
    · cases ha
    · obtain ⟨i, hi', rfl⟩ := mem_consecutive.mp ha
      rw [toNat_add_ofNat (by omega)]
      omega

end Machine
