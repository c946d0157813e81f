import StudentDistrib.Basic
import StudentDistrib.Machine.Numeral
import StudentDistrib.Machine.Store

/-!
# Strings and numerals

The string routines of `lib.c` on a buffer, with pointers as positions in it.  `itoa`
writes the digits with the lowest place first and reverses the string in place.  A loop
that runs to a terminator has no bound of its own: its result is `none` where it has not
ended within as many characters as there are addresses.
-/

namespace StudentDistrib

open Machine

namespace Lib

def addressSpace : Nat := 2 ^ 32

def minus : UInt8 := 0x2D
def zeroDigit : UInt8 := 0x30

/-- The characters that `while (s[index] != '\0')` passes. -/
def untilNul : (bound : Nat) → Bytes → Option (List UInt8)
  | 0, _ => none
  | bound + 1, s =>
    if s 0 = 0 then some [] else (untilNul bound (s.shift 1)).map (s 0 :: ·)

def strlen (s : Bytes) : Option Nat := (untilNul addressSpace s).map List.length

/-- What `puts` hands to `putc`. -/
def puts (s : Bytes) : Option (List UInt8) := untilNul addressSpace s

/-- `strrev` of the string at `s`.  The indexes meet before `len` exchanges. -/
def strrev (s : Int) (m : Bytes) : Option Bytes :=
  (strlen (m.shift s)).map fun (len : Nat) => Bytes.swapInwards s len 0 (len - 1) m

def lookup : List UInt8 :=
  ['0', '1', '2', '3', '4', '5', '6', '7', '8', '9', 'A', 'B', 'C', 'D', 'E', 'F', 'G', 'H',
    'I', 'J', 'K', 'L', 'M', 'N', 'O', 'P', 'Q', 'R', 'S', 'T', 'U', 'V', 'W', 'X', 'Y',
    'Z'].map fun c => c.toNat.toUInt8

/-- `lookup[i]`. -/
def digitChar (i : Nat) : UInt8 := lookup.getD i 0

/-- The loop of `itoa`, with the place at which it ends. -/
def itoaLoop (radix : UInt32) :
    (bound : Nat) → (newval : UInt32) → (newbuf : Int) → Bytes → Option (Int × Bytes)
  | 0, newval, newbuf, m => if newval = 0 then some (newbuf, m) else none
  | bound + 1, newval, newbuf, m =>
    if newval = 0 then some (newbuf, m)
    else
      itoaLoop radix bound (newval / radix) (newbuf + 1)
        (Function.update m newbuf (digitChar (newval % radix).toNat))

/-- `itoa` into the buffer at `buf`.  The division is unsigned, and a radix from 2 on
leaves no digit after 32 places. -/
def itoa (value : UInt32) (buf : Int) (radix : UInt32) (m : Bytes) : Option Bytes :=
  if value = 0 then some (Function.update (Function.update m buf zeroDigit) (buf + 1) 0)
  else do
    let (newbuf, m) ← itoaLoop radix 32 value buf m
    strrev buf (Function.update m newbuf 0)

/-! ## Strings -/

theorem holds_cons {m : Bytes} {b : UInt8} {w : List UInt8} :
    m.Holds (b :: w) ↔ m 0 = b ∧ b ≠ 0 ∧ (m.shift 1).Holds w := by
  have htake : Bytes.take (w.length + 1) m = m 0 :: Bytes.take w.length (m.shift 1) := by
    rw [Bytes.take_succ]
    congr
    funext i
    exact congrArg m (Int.add_comm i 1)
  have hend : m.shift 1 w.length = m ((b :: w).length : Nat) := by
    rw [Bytes.shift, List.length_cons]
    congr 1
    omega
  constructor
  · intro h
    have hbytes := h.bytes
    rw [List.length_cons, htake, List.cons.injEq] at hbytes
    refine ⟨hbytes.1, h.nonzero b List.mem_cons_self, ?_, hbytes.2, ?_⟩
    · exact fun c hc => h.nonzero c (List.mem_cons_of_mem b hc)
    · rw [hend]
      exact h.terminated
  · intro h
    obtain ⟨rfl, hb, hrest⟩ := h
    refine ⟨?_, ?_, ?_⟩
    · intro c hc
      rcases List.mem_cons.mp hc with rfl | hc
      · exact hb
      · exact hrest.nonzero c hc
    · rw [List.length_cons, htake, hrest.bytes]
    · rw [← hend]
      exact hrest.terminated

theorem holds_nil {m : Bytes} (h : m.Holds []) : m 0 = 0 := h.terminated

theorem untilNul_holds {w : List UInt8} {m : Bytes} (h : m.Holds w) {bound : Nat}
    (hbound : w.length < bound) : untilNul bound m = some w := by
  induction w generalizing m bound with
  | nil =>
    obtain ⟨bound, rfl⟩ := Nat.exists_eq_succ_of_ne_zero (Nat.ne_of_gt hbound)
    exact if_pos (holds_nil h)
  | cons b w ih =>
    obtain ⟨bound, rfl⟩ := Nat.exists_eq_succ_of_ne_zero (Nat.ne_zero_of_lt hbound)
    obtain ⟨rfl, hb, hrest⟩ := holds_cons.mp h
    rw [untilNul, if_neg hb, ih hrest (Nat.lt_of_succ_lt_succ hbound)]
    rfl

theorem exists_untilNul {m : Bytes} {bound i : Nat} (hi : i < bound) (hzero : m i = 0) :
    ∃ w, untilNul bound m = some w := by
  induction bound generalizing m i with
  | zero => exact absurd hi (Nat.not_lt_zero i)
  | succ bound ih =>
    rw [untilNul]
    by_cases hend : m 0 = 0
    · exact ⟨[], if_pos hend⟩
    · cases i with
      | zero => exact absurd hzero hend
      | succ i =>
        have hnext : m.shift 1 i = 0 := by
          rw [← hzero, Bytes.shift]
          congr 1
          omega
        obtain ⟨w, hw⟩ := ih (Nat.lt_of_succ_lt_succ hi) hnext
        exact ⟨m 0 :: w, by rw [if_neg hend, hw]; rfl⟩

theorem puts_holds {w : List UInt8} {m : Bytes} (h : m.Holds w) (hw : w.length < addressSpace) :
    puts m = some w := untilNul_holds h hw

theorem strlen_holds {w : List UInt8} {m : Bytes} (h : m.Holds w)
    (hw : w.length < addressSpace) : strlen m = some w.length := by
  rw [strlen, untilNul_holds h hw]
  rfl

theorem strrev_store {w : List UInt8} (h : ∀ b ∈ w, b ≠ 0) (hw : w.length < addressSpace)
    (s : Int) (m : Bytes) :
    strrev s (Bytes.store (w ++ [0]) s m) = some (Bytes.store (w.reverse ++ [0]) s m) := by
  rw [strrev, strlen_holds (Bytes.holds_store h s m) hw, Option.map_some,
    Bytes.swapInwards_store (le_refl _)]

/-! ## `itoa` -/

/-- A digit below 36 is one of `0` to `9` and `A` to `Z`. -/
theorem digitChar_eq {d : Nat} (h : d < 36) :
    digitChar d = if d < 10 then 48 + d.toUInt8 else 65 + (d - 10).toUInt8 := by
  interval_cases d
  all_goals rfl

/-- The numeral of `n` in base `b` as text. -/
def numeralText (b n : Nat) : List UInt8 := (numeral b n).map digitChar

theorem length_numeralText_le {b n k : Nat} (hb : 1 < b) (hk : 0 < k) (h : n < b ^ k) :
    (numeralText b n).length ≤ k := by
  rw [numeralText, List.length_map]
  exact length_numeral_le hb hk h

/-- A word has at most 32 digits. -/
theorem length_numeralText_word {b : Nat} (hb : 1 < b) (value : UInt32) :
    (numeralText b value.toNat).length ≤ 32 := by
  refine length_numeralText_le hb (by decide) ?_
  calc value.toNat < 2 ^ 32 := value.toNat_lt
    _ ≤ b ^ 32 := Nat.pow_le_pow_left hb 32

theorem digitChar_ne_zero {d : Nat} (h : d < 36) : digitChar d ≠ 0 := by
  interval_cases d
  all_goals decide

theorem numeralText_ne_zero {b : Nat} (hb : 1 < b) (hb36 : b ≤ 36) (n : Nat) :
    ∀ c ∈ numeralText b n, c ≠ 0 := by
  intro c hc
  obtain ⟨d, hd, rfl⟩ := List.mem_map.mp hc
  exact digitChar_ne_zero (Nat.lt_of_lt_of_le ((isNumeral_numeral hb n).digit d hd) hb36)

/-- The loop writes the digits with the lowest place first. -/
theorem itoaLoop_eq {radix : UInt32} (hradix : 1 < radix.toNat) {bound : Nat} {newval : UInt32}
    (hval : newval.toNat < 2 ^ bound) (newbuf : Int) (m : Bytes) :
    itoaLoop radix bound newval newbuf m =
      some (newbuf + (Nat.digits radix.toNat newval.toNat).length,
        Bytes.store ((Nat.digits radix.toNat newval.toNat).map digitChar) newbuf m) := by
  induction bound generalizing newval newbuf m with
  | zero =>
    have hzero : newval = 0 := by
      rw [← UInt32.toNat_inj]
      simpa using hval
    subst hzero
    simp [itoaLoop, Bytes.store]
  | succ bound ih =>
    rw [itoaLoop]
    by_cases hzero : newval = 0
    · subst hzero
      simp [Bytes.store]
    · have hpos : 0 < newval.toNat := by
        rw [Nat.pos_iff_ne_zero]
        exact fun h => hzero (UInt32.toNat_inj.mp h)
      have hdiv : newval.toNat / radix.toNat < 2 ^ bound := by
        rw [Nat.div_lt_iff_lt_mul (by omega)]
        calc newval.toNat < 2 ^ (bound + 1) := hval
          _ = 2 ^ bound * 2 := pow_succ 2 bound
          _ ≤ 2 ^ bound * radix.toNat := Nat.mul_le_mul_left _ hradix
      rw [if_neg hzero, ih (by rw [UInt32.toNat_div]; exact hdiv), UInt32.toNat_div,
        UInt32.toNat_mod, Nat.digits_of_two_le_of_pos hradix hpos, List.map_cons, Bytes.store,
        List.length_cons]
      congr 2
      push_cast
      omega

/-- `itoa` writes the canonical numeral and its terminator, and nothing else. -/
theorem itoa_eq {radix : UInt32} (hradix : 1 < radix.toNat) (hradix36 : radix.toNat ≤ 36)
    (value : UInt32) (buf : Int) (m : Bytes) :
    itoa value buf radix m =
      some (Bytes.store (numeralText radix.toNat value.toNat ++ [0]) buf m) := by
  by_cases hzero : value = 0
  · subst hzero
    exact if_pos rfl
  · have hne : value.toNat ≠ 0 := fun h => hzero (UInt32.toNat_inj.mp h)
    have htext : numeralText radix.toNat value.toNat =
        ((Nat.digits radix.toNat value.toNat).map digitChar).reverse := by
      rw [numeralText, numeral_of_ne_zero hne, List.map_reverse]
    have hnonzero := numeralText_ne_zero hradix hradix36 value.toNat
    have hlength := length_numeralText_word hradix value
    rw [htext] at hnonzero hlength ⊢
    rw [List.length_reverse] at hlength
    have hstored := strrev_store (fun c hc => hnonzero c (List.mem_reverse.mpr hc))
      (lt_of_le_of_lt hlength (by decide)) buf m
    rw [Bytes.store_concat, List.length_map] at hstored
    rw [itoa, if_neg hzero, itoaLoop_eq hradix value.toNat_lt]
    exact hstored

end Lib

end StudentDistrib
