import Mathlib.Tactic.IntervalCases
import StudentDistrib.Basic
import StudentDistrib.Machine.Blocks

/-!
# Copying and filling memory

`memcpy` and `memset` are one loop in assembly: single bytes until the destination is
aligned or nothing is left, then double words, then the bytes that remain.  They differ
in what is moved.
-/

namespace StudentDistrib

open Machine

namespace Lib

/-- `%esi`, `%edi` and memory.  The segments are flat and the direction flag is clear. -/
structure Pointers where
  esi : UInt32
  edi : UInt32
  mem : Memory

/-- The blocks of the assembly, at `_top`, `_aligned`, `_bottom` and `_done`. -/
inductive Label
  | top
  | aligned
  | bottom
  | done
  deriving DecidableEq

structure Asm where
  label : Label
  ecx : UInt32
  edx : UInt32
  ptr : Pointers

namespace Asm

section Loop

variable (byte word : Pointers → Pointers)

/-- A block up to its jump.  `rep` repeats the string instruction `%ecx` times. -/
def step (s : Asm) : Asm :=
  match s.label with
  | .top =>
    if s.ecx = 0 then { s with label := .done }
    else if s.ptr.edi &&& 3 = 0 then { s with label := .aligned }
    else { s with ecx := s.ecx - 1, ptr := byte s.ptr }
  | .aligned =>
    { label := .bottom, ecx := 0, edx := s.ecx &&& 3, ptr := word^[(s.ecx >>> 2).toNat] s.ptr }
  | .bottom =>
    if s.edx = 0 then { s with label := .done }
    else { s with edx := s.edx - 1, ptr := byte s.ptr }
  | .done => s

/-- The blocks up to `_done`, `none` where it is not reached in time. -/
def run : (bound : Nat) → Asm → Option Pointers
  | 0, _ => none
  | bound + 1, s => if s.label = .done then some s.ptr else run bound (s.step byte word)

end Loop

end Asm

/-- The whole loop for `n` bytes.  The head and the tail have three bytes at most, so
that ten blocks are enough. -/
def moveLoop (byte word : Pointers → Pointers) (n : UInt32) (ptr : Pointers) :
    Option Pointers :=
  Asm.run byte word 10 { label := .top, ecx := n, edx := 0, ptr := ptr }

/-- `movb (%esi), %al`, `movb %al, (%edi)` and the two `addl $1`. -/
def copyByte (p : Pointers) : Pointers :=
  { esi := p.esi + 1, edi := p.edi + 1, mem := Function.update p.mem p.edi (p.mem p.esi) }

/-- `movsl`, which reads its four bytes before it writes them. -/
def copyWord (p : Pointers) : Pointers :=
  { esi := p.esi + 4
    edi := p.edi + 4
    mem := Memory.storeAt
      [p.mem p.esi, p.mem (p.esi + 1), p.mem (p.esi + 2), p.mem (p.esi + 3)] p.edi p.mem }

def memcpy (dest src n : UInt32) (mem : Memory) : Option Memory :=
  (moveLoop copyByte copyWord n { esi := src, edi := dest, mem := mem }).map Pointers.mem

/-- The bytes of a double word in the order in which they are stored. -/
def wordBytes (v : UInt32) : List UInt8 :=
  [v.toUInt8, (v >>> 8).toUInt8, (v >>> 16).toUInt8, (v >>> 24).toUInt8]

/-- `c << 24 | c << 16 | c << 8 | c` after `c &= 0xFF`. -/
def fillWord (c : UInt32) : UInt32 :=
  let c := c &&& 0xFF
  c <<< 24 ||| c <<< 16 ||| c <<< 8 ||| c

/-- `movb %al, (%edi)` and `addl $1, %edi`. -/
def setByte (eax : UInt32) (p : Pointers) : Pointers :=
  { p with edi := p.edi + 1, mem := Function.update p.mem p.edi eax.toUInt8 }

/-- `stosl`. -/
def setWord (eax : UInt32) (p : Pointers) : Pointers :=
  { p with edi := p.edi + 4, mem := Memory.storeAt (wordBytes eax) p.edi p.mem }

def memset (s c n : UInt32) (mem : Memory) : Option Memory :=
  (moveLoop (setByte (fillWord c)) (setWord (fillWord c)) n
    { esi := 0, edi := s, mem := mem }).map Pointers.mem

/-! ## The loop -/

theorem toNat_and_three (a : UInt32) : (a &&& 3).toNat = a.toNat % 4 := by
  rw [UInt32.toNat_and]
  exact Nat.and_two_pow_sub_one_eq_mod _ 2

theorem toNat_shiftRight_two (a : UInt32) : (a >>> 2).toNat = a.toNat / 4 := by
  rw [UInt32.toNat_shiftRight]
  exact Nat.shiftRight_eq_div_pow _ 2

theorem and_three_eq_zero {a : UInt32} : a &&& 3 = 0 ↔ a.toNat % 4 = 0 := by
  rw [← UInt32.toNat_inj, toNat_and_three]
  rfl

theorem toNat_sub_one {a : UInt32} (h : a ≠ 0) : (a - 1).toNat = a.toNat - 1 := by
  have hne : a.toNat ≠ 0 := fun hzero => h (UInt32.toNat_inj.mp hzero)
  have hle : 1 ≤ a := by
    rw [UInt32.le_iff_toNat_le]
    show 1 ≤ a.toNat
    omega
  exact UInt32.toNat_sub_of_le a 1 hle

namespace Asm

variable {byte word : Pointers → Pointers}

theorem run_step {s : Asm} (h : s.label ≠ .done) (bound : Nat) :
    run byte word (bound + 1) s = run byte word bound (s.step byte word) := if_neg h

theorem run_done {bound : Nat} {s : Asm} (h : s.label = .done) (hbound : 0 < bound) :
    run byte word bound s = some s.ptr := by
  cases bound with
  | zero => exact absurd hbound (Nat.lt_irrefl 0)
  | succ bound => exact if_pos h

/-- The last loop moves the bytes that `%edx` counts. -/
theorem run_bottom {bound : Nat} {s : Asm} (hlabel : s.label = .bottom)
    (hbound : s.edx.toNat + 2 ≤ bound) :
    run byte word bound s = some (byte^[s.edx.toNat] s.ptr) := by
  induction bound generalizing s with
  | zero => omega
  | succ bound ih =>
    have hlive : s.label ≠ .done := by simp [hlabel]
    rw [run_step hlive]
    by_cases hedx : s.edx = 0
    · have hstep : s.step byte word = { s with label := .done } := by
        simp only [step, hlabel, if_pos hedx]
      rw [hstep, run_done rfl (by omega), hedx]
      rfl
    · have hcount := toNat_sub_one hedx
      have hpos : s.edx.toNat ≠ 0 := fun hzero => hedx (UInt32.toNat_inj.mp hzero)
      have hstep : s.step byte word = { s with edx := s.edx - 1, ptr := byte s.ptr } := by
        simp only [step, hlabel, if_neg hedx]
      have hsucc : s.edx.toNat = (s.edx - 1).toNat + 1 := by omega
      have hrest := ih (s := { s with edx := s.edx - 1, ptr := byte s.ptr }) hlabel
        (show (s.edx - 1).toNat + 2 ≤ bound by omega)
      rw [hstep, hrest, hsucc]
      rfl

/-- Double words and the last loop move the bytes that `%ecx` counts. -/
theorem run_aligned {bound : Nat} {s : Asm} (hlabel : s.label = .aligned) (hbound : 6 ≤ bound)
    (hword : ∀ k, k + 4 ≤ s.ecx.toNat → word (byte^[k] s.ptr) = byte^[4] (byte^[k] s.ptr)) :
    run byte word bound s = some (byte^[s.ecx.toNat] s.ptr) := by
  obtain ⟨bound, rfl⟩ := Nat.exists_eq_succ_of_ne_zero (by omega : bound ≠ 0)
  have hlive : s.label ≠ .done := by simp [hlabel]
  have hedx := toNat_and_three s.ecx
  have hstep : s.step byte word =
      { label := .bottom, ecx := 0, edx := s.ecx &&& 3,
        ptr := word^[s.ecx.toNat / 4] s.ptr } := by
    simp only [step, hlabel, toNat_shiftRight_two]
  have hblocks : word^[s.ecx.toNat / 4] s.ptr = byte^[4 * (s.ecx.toNat / 4)] s.ptr :=
    iterate_block fun k hk => hword (4 * k) (by omega)
  rw [run_step hlive, hstep, run_bottom rfl (show (s.ecx &&& 3).toNat + 2 ≤ bound by omega),
    hedx, hblocks, ← Function.iterate_add_apply, Nat.mod_add_div]

/-- The head ends where nothing is left or the destination is aligned. -/
theorem run_head_end {bound : Nat} {s : Asm} (hlabel : s.label = .top)
    (hend : s.ecx = 0 ∨ s.ptr.edi &&& 3 = 0) (hbound : 7 ≤ bound)
    (hword : ∀ k, k + 4 ≤ s.ecx.toNat → word (byte^[k] s.ptr) = byte^[4] (byte^[k] s.ptr)) :
    run byte word bound s = some (byte^[s.ecx.toNat] s.ptr) := by
  obtain ⟨bound, rfl⟩ := Nat.exists_eq_succ_of_ne_zero (by omega : bound ≠ 0)
  have hlive : s.label ≠ .done := by simp [hlabel]
  rw [run_step hlive]
  by_cases hecx : s.ecx = 0
  · have hstep : s.step byte word = { s with label := .done } := by
      simp only [step, hlabel, if_pos hecx]
    rw [hstep, run_done rfl (by omega), hecx]
    rfl
  · have hstep : s.step byte word = { s with label := .aligned } := by
      simp only [step, hlabel, if_neg hecx, if_pos (hend.resolve_left hecx)]
    rw [hstep]
    exact run_aligned rfl (by omega) hword

/-- The head moves single bytes, and the destination is aligned after `k` of them. -/
theorem run_top (hedi : ∀ p, (byte p).edi = p.edi + 1) {k bound : Nat} {s : Asm}
    (hlabel : s.label = .top) (hk : (s.ptr.edi.toNat + k) % 4 = 0) (hbound : k + 7 ≤ bound)
    (hword : ∀ k, k + 4 ≤ s.ecx.toNat → word (byte^[k] s.ptr) = byte^[4] (byte^[k] s.ptr)) :
    run byte word bound s = some (byte^[s.ecx.toNat] s.ptr) := by
  induction k generalizing bound s with
  | zero =>
    exact run_head_end hlabel (Or.inr (and_three_eq_zero.mpr hk)) hbound hword
  | succ k ih =>
    by_cases hend : s.ecx = 0 ∨ s.ptr.edi &&& 3 = 0
    · exact run_head_end hlabel hend (by omega) hword
    · obtain ⟨hecx, halign⟩ := not_or.mp hend
      obtain ⟨bound, rfl⟩ := Nat.exists_eq_succ_of_ne_zero (by omega : bound ≠ 0)
      have hlive : s.label ≠ .done := by simp [hlabel]
      have hstep : s.step byte word = { s with ecx := s.ecx - 1, ptr := byte s.ptr } := by
        simp only [step, hlabel, if_neg hecx, if_neg halign]
      have hcount := toNat_sub_one hecx
      have hpos : s.ecx.toNat ≠ 0 := fun hzero => hecx (UInt32.toNat_inj.mp hzero)
      have hsucc : s.ecx.toNat = (s.ecx - 1).toNat + 1 := by omega
      have hnext : ((byte s.ptr).edi.toNat + k) % 4 = 0 := by
        have hone : (1 : UInt32).toNat = 1 := rfl
        rw [hedi, UInt32.toNat_add, hone]
        omega
      have hrest := ih (s := { s with ecx := s.ecx - 1, ptr := byte s.ptr }) hlabel hnext
        (show k + 7 ≤ bound by omega) fun j hj => hword (j + 1) (by
          have hj' : j + 4 ≤ (s.ecx - 1).toNat := hj
          omega)
      rw [run_step hlive, hstep, hrest, hsucc]
      rfl

end Asm

/-- The loop moves `n` bytes one by one, where every double word that it moves is four of
them. -/
theorem moveLoop_eq {byte word : Pointers → Pointers} (hedi : ∀ p, (byte p).edi = p.edi + 1)
    {n : UInt32} {p : Pointers}
    (hword : ∀ k, k + 4 ≤ n.toNat → word (byte^[k] p) = byte^[4] (byte^[k] p)) :
    moveLoop byte word n p = some (byte^[n.toNat] p) := by
  have hmod := Nat.mod_lt p.edi.toNat (by decide : 0 < 4)
  refine Asm.run_top hedi (k := (4 - p.edi.toNat % 4) % 4) rfl ?_ (by omega) hword
  show (p.edi.toNat + (4 - p.edi.toNat % 4) % 4) % 4 = 0
  omega

/-! ## `memcpy` -/

theorem copyByte_iterate (n : Nat) (p : Pointers) :
    copyByte^[n] p =
      { esi := p.esi + UInt32.ofNat n, edi := p.edi + UInt32.ofNat n,
        mem := Memory.copyBytes n p.edi p.esi p.mem } := by
  induction n generalizing p with
  | zero => simp [Memory.copyBytes]
  | succ n ih =>
    rw [Function.iterate_succ_apply, ih, Memory.add_ofNat_succ, Memory.add_ofNat_succ]
    rfl

theorem apart_within {n k : Nat} {dst src : UInt32} (h : Memory.Apart n dst src)
    (hk : k + 4 ≤ n) :
    Memory.Apart 4 (dst + UInt32.ofNat k) (src + UInt32.ofNat k) := by
  intro i hi j hj
  rw [UInt32.add_assoc, UInt32.add_assoc, ← UInt32.ofNat_add, ← UInt32.ofNat_add]
  exact h (k + i) (by omega) (k + j) (by omega)

/-- A double word between ranges that are apart is four bytes. -/
theorem copyWord_eq {p : Pointers} (h : Memory.Apart 4 p.edi p.esi) :
    copyWord p = copyByte^[4] p := by
  have hread : [p.mem p.esi, p.mem (p.esi + 1), p.mem (p.esi + 2), p.mem (p.esi + 3)] =
      (consecutive p.esi 4).map p.mem := by
    have hfirst : p.esi + UInt32.ofNat 0 = p.esi := UInt32.add_zero p.esi
    show _ = [p.mem (p.esi + UInt32.ofNat 0), _, _, _]
    rw [hfirst]
    rfl
  rw [copyByte_iterate, copyWord, hread, Memory.storeAt_consecutive h]
  rfl

/-- `memcpy` leaves memory as the byte-wise copy does. -/
theorem memcpy_eq {dest src n : UInt32} (h : Memory.Apart n.toNat dest src) (mem : Memory) :
    memcpy dest src n mem = some (Memory.copyBytes n.toNat dest src mem) := by
  have hloop : moveLoop copyByte copyWord n { esi := src, edi := dest, mem := mem } =
      some (copyByte^[n.toNat] { esi := src, edi := dest, mem := mem }) := by
    refine moveLoop_eq (fun _ => rfl) fun k hk => copyWord_eq ?_
    rw [copyByte_iterate]
    exact apart_within h hk
  rw [memcpy, hloop, copyByte_iterate]
  rfl

/-! ## `memset` -/

theorem fillWord_shift (c : UInt32) {k : Nat} (hk : k < 4) :
    (fillWord c >>> UInt32.ofNat (8 * k)).toUInt8 = c.toUInt8 := by
  refine UInt8.toBitVec_inj.mp (BitVec.eq_of_getLsbD_eq fun i hi => ?_)
  interval_cases k
  all_goals
    interval_cases i
    all_goals simp [fillWord]

theorem toUInt8_fillWord (c : UInt32) : (fillWord c).toUInt8 = c.toUInt8 := by
  have hshift := fillWord_shift c (k := 0) (by decide)
  have hzero : fillWord c >>> UInt32.ofNat (8 * 0) = fillWord c := UInt32.shiftRight_zero
  rw [← hshift, hzero]

theorem wordBytes_fillWord (c : UInt32) :
    wordBytes (fillWord c) = List.replicate 4 c.toUInt8 := by
  have hone : (fillWord c >>> 8).toUInt8 = c.toUInt8 := fillWord_shift c (k := 1) (by decide)
  have htwo : (fillWord c >>> 16).toUInt8 = c.toUInt8 := fillWord_shift c (k := 2) (by decide)
  have hthree : (fillWord c >>> 24).toUInt8 = c.toUInt8 :=
    fillWord_shift c (k := 3) (by decide)
  rw [wordBytes, toUInt8_fillWord, hone, htwo, hthree]
  rfl

theorem setByte_iterate (eax : UInt32) (n : Nat) (p : Pointers) :
    (setByte eax)^[n] p =
      { p with
        edi := p.edi + UInt32.ofNat n
        mem := Memory.fillBytes eax.toUInt8 n p.edi p.mem } := by
  induction n generalizing p with
  | zero => simp [Memory.fillBytes]
  | succ n ih =>
    rw [Function.iterate_succ_apply, ih, Memory.add_ofNat_succ]
    rfl

theorem setWord_eq (c : UInt32) (p : Pointers) :
    setWord (fillWord c) p = (setByte (fillWord c))^[4] p := by
  rw [setByte_iterate, setWord, wordBytes_fillWord, Memory.storeAt_replicate, toUInt8_fillWord]
  rfl

/-- `memset` leaves memory as the byte-wise fill does. -/
theorem memset_eq (s c n : UInt32) (mem : Memory) :
    memset s c n mem = some (Memory.fillBytes c.toUInt8 n.toNat s mem) := by
  rw [memset, moveLoop_eq (fun _ => rfl) (fun k _ => setWord_eq c _), setByte_iterate,
    toUInt8_fillWord]
  rfl

/-- `memcpy` between ranges that share no byte, and `memset`, leave memory as single bytes
moved one by one do: the range holds what it should, and the rest is unchanged. -/
theorem moved_exactly {dest src n : UInt32} (h : Memory.Apart n.toNat dest src) (mem : Memory)
    (s c k : UInt32) :
    (memcpy dest src n mem = some (Memory.copyBytes n.toNat dest src mem) ∧
        (∀ i < n.toNat, Memory.copyBytes n.toNat dest src mem (dest + UInt32.ofNat i) =
          mem (src + UInt32.ofNat i)) ∧
        ∀ a, a ∉ consecutive dest n.toNat →
          Memory.copyBytes n.toNat dest src mem a = mem a) ∧
      ∃ mem', memset s c k mem = some mem' ∧
        (∀ a ∈ consecutive s k.toNat, mem' a = (c &&& 0xFF).toUInt8) ∧
        ∀ a, a ∉ consecutive s k.toNat → mem' a = mem a := by
  refine ⟨⟨memcpy_eq h mem, fun i hi => ?_, fun a ha => ?_⟩, _, memset_eq s c k mem,
    fun a ha => ?_, fun a ha => ?_⟩
  · exact Memory.copyBytes_inside h n.toNat_lt hi mem
  · exact Memory.copyBytes_outside ha mem
  · rw [Memory.fillBytes_inside ha, UInt32.toUInt8_and]
    exact UInt8.and_neg_one.symm
  · exact Memory.fillBytes_outside ha mem

/-- Eight bytes to an address that is one past a double word: three for the head, a double
word and one for the tail. -/
theorem moved_exactly_eight :
    (memcpy 1 9 8 (fun a => a.toUInt8) =
          some (Memory.copyBytes 8 1 9 (fun a => a.toUInt8)) ∧
        (∀ i < 8, Memory.copyBytes 8 1 9 (fun a => a.toUInt8) (1 + UInt32.ofNat i) =
          (9 + UInt32.ofNat i).toUInt8) ∧
        ∀ a, a ∉ consecutive 1 8 →
          Memory.copyBytes 8 1 9 (fun a => a.toUInt8) a = a.toUInt8) ∧
      ∃ mem', memset 2 0x1FF 7 (fun a => a.toUInt8) = some mem' ∧
        (∀ a ∈ consecutive 2 7, mem' a = ((0x1FF : UInt32) &&& 0xFF).toUInt8) ∧
        ∀ a, a ∉ consecutive 2 7 → mem' a = a.toUInt8 :=
  moved_exactly (n := 8) (by unfold Memory.Apart; decide) (fun a => a.toUInt8) 2 0x1FF 7

end Lib

end StudentDistrib
