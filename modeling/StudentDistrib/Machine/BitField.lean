import Mathlib.Data.BitVec

/-!
# Bit fields of a word

A bit field is a range of bits.  Assigning to it keeps the other bits of the word
and the low bits of the value, as a C bit field does.  A word that is built by
assignments to disjoint fields holds in each field the last value assigned there,
whatever the word held before.
-/

namespace Machine

/-- The `len` bits from bit `start` on. -/
structure BitField where
  start : Nat
  len : Nat
  deriving DecidableEq, Repr

namespace BitField

variable {w : Nat} {f g : BitField} {x : BitVec w}

def get (f : BitField) (x : BitVec w) : Nat := (x.toNat >>> f.start) % 2 ^ f.len

/-- The bits of the field. -/
def mask (w : Nat) (f : BitField) : BitVec w := BitVec.ofNat w ((2 ^ f.len - 1) <<< f.start)

def set (f : BitField) (v : Nat) (x : BitVec w) : BitVec w :=
  (x &&& ~~~f.mask w) ||| BitVec.ofNat w ((v % 2 ^ f.len) <<< f.start)

/-- The field lies within a word of `w` bits. -/
def Fits (w : Nat) (f : BitField) : Prop := f.start + f.len ≤ w

instance (w : Nat) (f : BitField) : Decidable (f.Fits w) :=
  inferInstanceAs (Decidable (f.start + f.len ≤ w))

/-- The fields share no bit. -/
def Apart (f g : BitField) : Prop := f.start + f.len ≤ g.start ∨ g.start + g.len ≤ f.start

instance (f g : BitField) : Decidable (f.Apart g) :=
  inferInstanceAs (Decidable (f.start + f.len ≤ g.start ∨ g.start + g.len ≤ f.start))

/-! ## One assignment -/

theorem testBit_get (f : BitField) (x : BitVec w) (i : Nat) :
    (f.get x).testBit i = (decide (i < f.len) && x.getLsbD (f.start + i)) := by
  simp only [get, Nat.testBit_mod_two_pow, Nat.testBit_shiftRight, BitVec.testBit_toNat]

theorem getLsbD_mask (f : BitField) (i : Nat) : (f.mask w).getLsbD i =
    (decide (i < w) && (decide (f.start ≤ i) && decide (i - f.start < f.len))) := by
  simp only [mask, BitVec.getLsbD_ofNat, Nat.testBit_shiftLeft, Nat.testBit_two_pow_sub_one, ge_iff_le]

/-- The bits of a word after an assignment. -/
theorem getLsbD_set (hf : f.Fits w) (v : Nat) (x : BitVec w) (i : Nat) :
    (f.set v x).getLsbD i =
      if f.start ≤ i ∧ i < f.start + f.len then v.testBit (i - f.start) else x.getLsbD i := by
  have hfits : f.start + f.len ≤ w := hf
  simp only [set, BitVec.getLsbD_or, BitVec.getLsbD_and, BitVec.getLsbD_not, getLsbD_mask,
    BitVec.getLsbD_ofNat, Nat.testBit_shiftLeft, Nat.testBit_mod_two_pow, ge_iff_le]
  by_cases hin : f.start ≤ i ∧ i < f.start + f.len
  · obtain ⟨hle, hlt⟩ := hin
    have hlen : i - f.start < f.len := by omega
    have hw : i < w := by omega
    simp [hle, hlt, hlen, hw]
  · rw [if_neg hin]
    have hout : ¬ (f.start ≤ i ∧ i - f.start < f.len) := by omega
    by_cases hle : f.start ≤ i
    · have hlen : ¬ i - f.start < f.len := fun h => hout ⟨hle, h⟩
      by_cases hw : i < w
      · simp [hlen, hw]
      · simp [hlen, hw, BitVec.getLsbD_of_ge x i (by omega)]
    · by_cases hw : i < w
      · simp [hle, hw]
      · simp [hle, hw, BitVec.getLsbD_of_ge x i (by omega)]

/-- A field holds what was assigned to it, without the bits that do not fit. -/
theorem get_set_self (hf : f.Fits w) (v : Nat) (x : BitVec w) :
    f.get (f.set v x) = v % 2 ^ f.len := by
  refine Nat.eq_of_testBit_eq fun i => ?_
  rw [testBit_get, getLsbD_set hf, Nat.testBit_mod_two_pow]
  by_cases hi : i < f.len
  · have hin : f.start ≤ f.start + i ∧ f.start + i < f.start + f.len := by omega
    rw [if_pos hin, Nat.add_sub_cancel_left]
  · simp [hi]

/-- An assignment leaves the other fields alone. -/
theorem get_set_of_apart (hf : f.Fits w) (h : g.Apart f) (v : Nat) (x : BitVec w) :
    g.get (f.set v x) = g.get x := by
  refine Nat.eq_of_testBit_eq fun i => ?_
  rw [testBit_get, testBit_get, getLsbD_set hf]
  by_cases hi : i < g.len
  · have hout : ¬ (f.start ≤ g.start + i ∧ g.start + i < f.start + f.len) := by
      rcases h with h | h <;> omega
    rw [if_neg hout]
  · simp [hi]

/-! ## Several assignments -/

/-- The assignments of a list, in order. -/
def assign (l : List (BitField × Nat)) (x : BitVec w) : BitVec w :=
  l.foldl (fun x p => p.1.set p.2 x) x

theorem get_assign_of_apart {l : List (BitField × Nat)} (hfits : ∀ p ∈ l, p.1.Fits w)
    (h : ∀ p ∈ l, g.Apart p.1) (x : BitVec w) : g.get (assign l x) = g.get x := by
  induction l generalizing x with
  | nil => rfl
  | cons p l ih =>
    show g.get (assign l (p.1.set p.2 x)) = g.get x
    rw [ih (fun q hq => hfits q (List.mem_cons_of_mem p hq))
        (fun q hq => h q (List.mem_cons_of_mem p hq)),
      get_set_of_apart (hfits p List.mem_cons_self) (h p List.mem_cons_self)]

theorem assign_append (l l' : List (BitField × Nat)) (x : BitVec w) :
    assign l' (assign l x) = assign (l ++ l') x := List.foldl_append.symm

/-- A field holds what was assigned to it last. -/
theorem get_assign_lookup {l : List (BitField × Nat)} (hfits : ∀ p ∈ l, p.1.Fits w)
    (h : ∀ p ∈ l, p.1 = g ∨ g.Apart p.1) (x : BitVec w) :
    g.get (assign l x) = (l.reverse.lookup g).elim (g.get x) (· % 2 ^ g.len) := by
  induction l using List.reverseRecOn with
  | nil => rfl
  | append_singleton l p ih =>
    have hlast : g.get (assign (l ++ [p]) x) = g.get (p.1.set p.2 (assign l x)) := by
      rw [assign, List.foldl_append]
      rfl
    have hp : p ∈ l ++ [p] := List.mem_append_right l List.mem_cons_self
    have hfit := hfits p hp
    rw [hlast, List.reverse_append]
    show _ = (List.lookup g (p :: l.reverse)).elim _ _
    by_cases heq : p.1 = g
    · rw [heq] at hfit ⊢
      rw [get_set_self hfit, List.lookup_cons, heq, beq_self_eq_true]
      rfl
    · have hne : (g == p.1) = false := beq_eq_false_iff_ne.mpr fun hg => heq hg.symm
      rw [get_set_of_apart hfit ((h p hp).resolve_left heq), List.lookup_cons, hne]
      exact ih (fun q hq => hfits q (List.mem_append_left [p] hq))
        fun q hq => h q (List.mem_append_left [p] hq)

/-- The fields lie within a word of `w` bits and share no bit. -/
def Valid (w : Nat) (fields : List BitField) : Prop :=
  (∀ f ∈ fields, f.Fits w) ∧ fields.Pairwise Apart

instance (w : Nat) (fields : List BitField) : Decidable (Valid w fields) :=
  inferInstanceAs (Decidable ((∀ f ∈ fields, f.Fits w) ∧ fields.Pairwise Apart))

theorem Valid.fits {l : List (BitField × Nat)} (h : Valid w (l.map Prod.fst)) :
    ∀ p ∈ l, p.1.Fits w := fun _ hp => h.1 _ (List.mem_map_of_mem hp)

/-- Assignments to fields that share no bit all last. -/
theorem get_assign {l : List (BitField × Nat)} (h : Valid w (l.map Prod.fst)) {v : Nat}
    (hmem : (f, v) ∈ l) (x : BitVec w) : f.get (assign l x) = v % 2 ^ f.len := by
  have hfits := h.fits
  have hapart := List.pairwise_map.mp h.2
  clear h
  induction l generalizing x with
  | nil => exact absurd hmem List.not_mem_nil
  | cons p l ih =>
    show f.get (assign l (p.1.set p.2 x)) = v % 2 ^ f.len
    have hrest : ∀ q ∈ l, q.1.Fits w := fun q hq => hfits q (List.mem_cons_of_mem p hq)
    rw [List.pairwise_cons] at hapart
    rcases List.mem_cons.mp hmem with heq | hmem
    · rw [← heq] at hapart ⊢
      have hfit : f.Fits w := hfits (f, v) (heq ▸ List.mem_cons_self)
      rw [get_assign_of_apart hrest hapart.1, get_set_self hfit]
    · exact ih hmem _ hrest hapart.2

end BitField

end Machine
