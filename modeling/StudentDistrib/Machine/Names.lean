import StudentDistrib.Machine.Bytes

/-!
# Strings and names

A string ends at its first zero byte.  A name lies in a field of `n` bytes and ends
at the first zero byte of the field or with the field, so that a name of `n` bytes
has no terminator.
-/

namespace Machine

namespace Bytes

/-- The name in a field of `n` bytes. -/
def name (n : Nat) (m : Bytes) : List UInt8 := (take n m).takeWhile (· != 0)

/-- The bytes of `w` and a terminator. -/
structure Holds (m : Bytes) (w : List UInt8) : Prop where
  nonzero : ∀ b ∈ w, b ≠ 0
  bytes : take w.length m = w
  terminated : m w.length = 0

/-- Every byte of a field after its name is zero. -/
def Padded (n : Nat) (m : Bytes) : Prop :=
  ∀ i : Int, (name n m).length ≤ i → i < n → m i = 0

theorem take_succ (n : Nat) (m : Bytes) :
    take (n + 1) m = m 0 :: take n (fun i => m (i + 1)) := by
  simp only [take, List.range_succ_eq_map, List.map_cons, List.map_map]
  rfl

theorem name_succ (n : Nat) (m : Bytes) :
    name (n + 1) m = if m 0 = 0 then [] else m 0 :: name n (fun i => m (i + 1)) := by
  by_cases h : m 0 = 0
  · simp [name, take_succ, h]
  · simp [name, take_succ, h]

theorem length_name_le (n : Nat) (m : Bytes) : (name n m).length ≤ n := by
  induction n generalizing m with
  | zero => exact Nat.le_refl 0
  | succ n ih =>
    rw [name_succ]
    split
    · exact Nat.zero_le _
    · have := ih fun i => m (i + 1)
      simp only [List.length_cons]
      omega

theorem ne_zero_of_mem_name {n : Nat} {m : Bytes} {b : UInt8} (h : b ∈ name n m) : b ≠ 0 := by
  induction n generalizing m with
  | zero => cases h
  | succ n ih =>
    rw [name_succ] at h
    split at h
    · cases h
    · rename_i hne
      cases h with
      | head => exact hne
      | tail _ hmem => exact ih hmem

/-- The name is in the field. -/
theorem take_name (n : Nat) (m : Bytes) : take (name n m).length m = name n m := by
  induction n generalizing m with
  | zero => rfl
  | succ n ih =>
    rw [name_succ]
    split
    · rfl
    · rw [List.length_cons, take_succ, ih]

theorem getElem_name {n i : Nat} {m : Bytes} (h : i < (name n m).length) : (name n m)[i] = m i := by
  have hget := List.getElem_of_eq (take_name n m).symm h
  rw [hget]
  simp only [take, List.getElem_map, List.getElem_range]

/-- A name shorter than its field is terminated. -/
theorem apply_length_name {n : Nat} {m : Bytes} (h : (name n m).length < n) :
    m (name n m).length = 0 := by
  induction n generalizing m with
  | zero => omega
  | succ n ih =>
    rw [name_succ] at h ⊢
    split at h
    · rename_i hzero
      simp [hzero]
    · rename_i hne
      have hlt : (name n fun i => m (i + 1)).length < n := by
        simp only [List.length_cons] at h
        omega
      have hrest := ih hlt
      simp only [hne, if_false, List.length_cons]
      exact hrest

/-- The name of a field that begins with `w`. -/
theorem name_eq {n : Nat} {m : Bytes} {w : List UInt8} (hnonzero : ∀ b ∈ w, b ≠ 0)
    (hbytes : take w.length m = w) (hle : w.length ≤ n) (hend : w.length < n → m w.length = 0) :
    name n m = w := by
  induction w generalizing n m with
  | nil =>
    cases n with
    | zero => rfl
    | succ n =>
      have hzero : m 0 = 0 := hend (by simp)
      simp [name_succ, hzero]
  | cons b w ih =>
    rw [List.length_cons, take_succ] at hbytes
    injection hbytes with hb hrest
    have hne : m 0 ≠ 0 := hb ▸ hnonzero b List.mem_cons_self
    cases n with
    | zero => simp at hle
    | succ n =>
      rw [List.length_cons] at hle hend
      have htail : name n (fun i => m (i + 1)) = w := by
        apply ih (fun c hc => hnonzero c (List.mem_cons_of_mem _ hc)) hrest (by omega)
        intro hlt
        exact hend (by omega)
      rw [name_succ, if_neg hne, htail, hb]

theorem SameOn.name_eq {n : Nat} {m m' : Bytes} (h : SameOn n m m') : name n m = name n m' := by
  simp only [name, h.take_eq]

/-- The name in the first part of a field. -/
theorem name_of_le {n n' : Nat} (h : n ≤ n') (m : Bytes) : name n m = (name n' m).take n := by
  induction n generalizing n' m with
  | zero => rfl
  | succ n ih =>
    obtain ⟨k, rfl⟩ := Nat.exists_eq_add_of_le h
    rw [Nat.add_right_comm, name_succ, name_succ]
    split
    · rfl
    · rw [List.take_succ_cons, ih (Nat.le_add_right n k)]

theorem Holds.apply {m : Bytes} {w : List UInt8} (h : m.Holds w) {i : Nat} (hi : i < w.length) :
    m i = w[i] := by
  have hget := List.getElem_of_eq h.bytes.symm hi
  rw [hget]
  simp only [take, List.getElem_map, List.getElem_range]

/-- A string cut off at the end of a field. -/
theorem Holds.name_eq {m : Bytes} {w : List UInt8} (h : m.Holds w) (n : Nat) :
    name n m = w.take n := by
  have hwhole : name (max n w.length) m = w :=
    Bytes.name_eq h.nonzero h.bytes (Nat.le_max_right ..) fun _ => h.terminated
  rw [name_of_le (Nat.le_max_left n w.length), hwhole]

theorem holds_ofList {w : List UInt8} (h : ∀ b ∈ w, b ≠ 0) : (ofList w).Holds w :=
  ⟨h, take_ofList w, ofList_of_le (Int.le_refl _)⟩

/-- A name that leaves room for a terminator is a string. -/
theorem holds_name {n : Nat} {m : Bytes} (h : (name n m).length < n) : m.Holds (name n m) :=
  ⟨fun _ => ne_zero_of_mem_name, take_name n m, apply_length_name h⟩

/-- A name that is terminated in its field is the name in every larger one. -/
theorem name_of_terminated {n n' : Nat} {m : Bytes} (h : (name n m).length < n) (hle : n ≤ n') :
    name n' m = name n m := by
  rw [(holds_name h).name_eq, List.take_of_length_le (by omega)]

/-- A name that fills its field goes on where the next byte is not zero. -/
theorem length_name_succ {n : Nat} {m : Bytes} (h : (name n m).length = n) :
    (name (n + 1) m).length = n + 1 ↔ m n ≠ 0 := by
  have hle := length_name_le (n + 1) m
  constructor
  · intro hlong
    have hmem := List.getElem_mem (l := name (n + 1) m) (n := n) (by omega)
    rw [getElem_name (by omega)] at hmem
    exact ne_zero_of_mem_name hmem
  · intro hne
    by_contra hshort
    have hcut : name n m = (name (n + 1) m).take n := name_of_le (by omega) m
    have htake := congrArg List.length hcut
    rw [List.length_take, h] at htake
    have hlen : (name (n + 1) m).length = n := by omega
    have hzero := apply_length_name (n := n + 1) (m := m) (by omega)
    rw [hlen] at hzero
    exact hne hzero

/-! ## Filled buffers -/

/-- A buffer of `n` bytes whose first zero byte is at `i`, with zeros from there on. -/
def FilledTo (n i : Int) (m : Bytes) : Prop := ∀ j, 0 ≤ j → j < n → (m j = 0 ↔ i ≤ j)

theorem FilledTo.of_sameOn {n i : Int} {m m' : Bytes} (h : FilledTo n i m) (hsame : SameOn n m' m) :
    FilledTo n i m' := by
  intro j h0 hj
  rw [hsame j h0 hj]
  exact h j h0 hj

theorem filledTo_zero (n : Int) (m : Bytes) : FilledTo n 0 (zero n m) := by
  intro j h0 hj
  rw [zero_of_lt m h0 hj]
  exact iff_of_true rfl h0

theorem FilledTo.push {n i : Int} {m : Bytes} (h : FilledTo n i m) {b : UInt8} (hb : b ≠ 0) :
    FilledTo n (i + 1) (Function.update m i b) := by
  intro j h0 hj
  by_cases hji : j = i
  · subst hji
    rw [Function.update_self]
    exact iff_of_false hb (by omega)
  · rw [Function.update_of_ne hji, h j h0 hj]
    omega

theorem FilledTo.pop {n i : Int} {m : Bytes} (h : FilledTo n i m) :
    FilledTo n (i - 1) (Function.update m (i - 1) 0) := by
  intro j h0 hj
  by_cases hji : j = i - 1
  · subst hji
    rw [Function.update_self]
    exact iff_of_true rfl (Int.le_refl _)
  · rw [Function.update_of_ne hji, h j h0 hj]
    omega

/-- A zero pushed on a buffer leaves a zero before its end. -/
theorem not_filledTo_push_zero {n i : Int} (m : Bytes) (h0 : 0 ≤ i) (hi : i < n) :
    ¬ FilledTo n (i + 1) (Function.update m i 0) := by
  intro h
  have hend := (h i h0 hi).mp (Function.update_self ..)
  omega

end Bytes

end Machine
