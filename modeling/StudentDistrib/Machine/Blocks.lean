import Mathlib.Logic.Function.Iterate
import StudentDistrib.Machine.Bytes

/-!
# Moving bytes in blocks

A move of single bytes and one of whole blocks agree if every block is as many single
moves.  Memory is addressed by machine words, and ranges wrap around at its end.
-/

namespace Machine

section Iterate

variable {σ : Type*} {byte block : σ → σ}

/-- Blocks that are each `b` single moves amount to the single moves. -/
theorem iterate_block {b n : Nat} {s : σ}
    (h : ∀ k < n, block (byte^[b * k] s) = byte^[b] (byte^[b * k] s)) :
    block^[n] s = byte^[b * n] s := by
  induction n with
  | zero => rfl
  | succ n ih =>
    rw [Function.iterate_succ_apply', ih (fun k hk => h k (Nat.lt_succ_of_lt hk)),
      h n (Nat.lt_succ_self n), ← Function.iterate_add_apply, Nat.add_comm, Nat.mul_succ]

end Iterate

/-- Memory addressed by machine words. -/
abbrev Memory := UInt32 → UInt8

namespace Memory

/-- The bytes of `l` written one after the other. -/
def storeAt : List UInt8 → UInt32 → Memory → Memory
  | [], _, m => m
  | b :: l, a, m => storeAt l (a + 1) (Function.update m a b)

/-- `n` bytes copied one by one. -/
def copyBytes : (n : Nat) → (dst src : UInt32) → Memory → Memory
  | 0, _, _, m => m
  | n + 1, dst, src, m => copyBytes n (dst + 1) (src + 1) (Function.update m dst (m src))

/-- `n` bytes set one by one. -/
def fillBytes (b : UInt8) : (n : Nat) → (dst : UInt32) → Memory → Memory
  | 0, _, m => m
  | n + 1, dst, m => fillBytes b n (dst + 1) (Function.update m dst b)

/-- Ranges of `n` bytes that share no address. -/
def Apart (n : Nat) (dst src : UInt32) : Prop :=
  ∀ i < n, ∀ j < n, dst + UInt32.ofNat i ≠ src + UInt32.ofNat j

theorem add_ofNat_succ (a : UInt32) (i : Nat) :
    a + UInt32.ofNat (i + 1) = a + 1 + UInt32.ofNat i := by
  rw [UInt32.ofNat_add, UInt32.add_comm (UInt32.ofNat i), UInt32.add_assoc]
  rfl

theorem Apart.next {n : Nat} {dst src : UInt32} (h : Apart (n + 1) dst src) :
    Apart n (dst + 1) (src + 1) := by
  intro i hi j hj
  rw [← add_ofNat_succ, ← add_ofNat_succ]
  exact h (i + 1) (Nat.succ_lt_succ hi) (j + 1) (Nat.succ_lt_succ hj)

theorem Apart.ne {n i : Nat} {dst src : UInt32} (h : Apart n dst src) (hi : i < n) :
    src + UInt32.ofNat i ≠ dst := by
  intro heq
  refine h 0 (Nat.lt_of_le_of_lt (Nat.zero_le i) hi) i hi ?_
  rw [heq]
  exact UInt32.add_zero dst

theorem consecutive_succ (a : UInt32) (n : Nat) :
    consecutive a (n + 1) = a :: consecutive (a + 1) n := by
  simp only [consecutive, List.range_succ_eq_map, List.map_cons, List.map_map]
  congr 1
  · exact UInt32.add_zero a
  · refine List.map_congr_left fun i _ => ?_
    exact add_ofNat_succ a i

/-- A range that does not cover all of memory does not come back to its start. -/
theorem notMem_consecutive_succ {n : Nat} (h : n + 1 < 2 ^ 32) (a : UInt32) :
    a ∉ consecutive (a + 1) n := by
  intro hmem
  obtain ⟨i, hi, heq⟩ := mem_consecutive.mp hmem
  rw [← add_ofNat_succ] at heq
  have hnat := congrArg UInt32.toNat heq
  have hlt := a.toNat_lt
  rw [UInt32.toNat_add, UInt32.toNat_ofNat'] at hnat
  omega

theorem fillBytes_outside {b : UInt8} {n : Nat} {dst a : UInt32} (h : a ∉ consecutive dst n)
    (m : Memory) : fillBytes b n dst m a = m a := by
  induction n generalizing dst m with
  | zero => rfl
  | succ n ih =>
    rw [consecutive_succ, List.mem_cons, not_or] at h
    rw [fillBytes, ih h.2, Function.update_of_ne h.1]

theorem fillBytes_inside {b : UInt8} {n : Nat} {dst a : UInt32} (h : a ∈ consecutive dst n)
    (m : Memory) : fillBytes b n dst m a = b := by
  induction n generalizing dst m with
  | zero => cases h
  | succ n ih =>
    rw [fillBytes]
    by_cases hrest : a ∈ consecutive (dst + 1) n
    · exact ih hrest _
    · rw [consecutive_succ, List.mem_cons] at h
      rw [fillBytes_outside hrest, h.resolve_right hrest, Function.update_self]

theorem copyBytes_outside {n : Nat} {dst src a : UInt32} (h : a ∉ consecutive dst n)
    (m : Memory) : copyBytes n dst src m a = m a := by
  induction n generalizing dst src m with
  | zero => rfl
  | succ n ih =>
    rw [consecutive_succ, List.mem_cons, not_or] at h
    rw [copyBytes, ih h.2, Function.update_of_ne h.1]

/-- Ranges apart from each other: the copy holds the bytes of the source. -/
theorem copyBytes_inside {n i : Nat} {dst src : UInt32} (h : Apart n dst src) (hn : n < 2 ^ 32)
    (hi : i < n) (m : Memory) :
    copyBytes n dst src m (dst + UInt32.ofNat i) = m (src + UInt32.ofNat i) := by
  induction n generalizing i dst src m with
  | zero => exact absurd hi (Nat.not_lt_zero i)
  | succ n ih =>
    rw [copyBytes]
    cases i with
    | zero =>
      have hdst : dst + UInt32.ofNat 0 = dst := UInt32.add_zero dst
      have hsrc : src + UInt32.ofNat 0 = src := UInt32.add_zero src
      rw [hdst, hsrc, copyBytes_outside (notMem_consecutive_succ hn dst), Function.update_self]
    | succ i =>
      have hne : src + UInt32.ofNat (i + 1) ≠ dst := h.ne hi
      rw [add_ofNat_succ, add_ofNat_succ,
        ih h.next (Nat.lt_of_succ_lt hn) (Nat.lt_of_succ_lt_succ hi), ← add_ofNat_succ,
        Function.update_of_ne hne]

theorem storeAt_replicate (b : UInt8) (n : Nat) (dst : UInt32) (m : Memory) :
    storeAt (List.replicate n b) dst m = fillBytes b n dst m := by
  induction n generalizing dst m with
  | zero => rfl
  | succ n ih => exact ih (dst + 1) (Function.update m dst b)

/-- Bytes that are all read before one is written are as well copied one by one. -/
theorem storeAt_consecutive {n : Nat} {dst src : UInt32} (h : Apart n dst src) (m : Memory) :
    storeAt ((consecutive src n).map m) dst m = copyBytes n dst src m := by
  induction n generalizing dst src m with
  | zero => rfl
  | succ n ih =>
    have hread : (consecutive (src + 1) n).map (Function.update m dst (m src)) =
        (consecutive (src + 1) n).map m := by
      refine List.map_congr_left fun a ha => ?_
      obtain ⟨i, hi, rfl⟩ := mem_consecutive.mp ha
      rw [← add_ofNat_succ]
      exact Function.update_of_ne (h.ne (Nat.succ_lt_succ hi)) _ _
    rw [consecutive_succ, List.map_cons, storeAt, copyBytes, ← hread]
    exact ih h.next _

end Memory

end Machine
