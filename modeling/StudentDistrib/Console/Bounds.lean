import StudentDistrib.Console.Press
import StudentDistrib.Machine.Steps

/-!
# The bounds of the line

The stores into `keyboard_buf` and the reads of the scancode tables under any
sequence of scancodes.  The character path and `tab_helper` stop one short of the
end of the buffer.  `space_helper` and `enter_helper` do not look, so the accesses
stay in bounds exactly as long as neither key arrives on a line of 127 bytes.
-/

namespace StudentDistrib

open Machine

namespace Console

/-- The scancodes handled in order. -/
def handled (c : Console) (scans : List UInt8) : Console :=
  scans.foldl (fun c scan => c.keyboardHandler scan) c

theorem handled_concat (c : Console) (scans : List UInt8) (scan : UInt8) :
    c.handled (scans ++ [scan]) = (c.handled scans).keyboardHandler scan := by
  unfold handled
  rw [List.foldl_append]
  rfl

end Console

namespace Keyboard

/-- The accesses made so far, and the next one on the line, are within the arrays. -/
structure InBounds (k : Keyboard) : Prop where
  stores : ∀ i ∈ k.storeLog, 0 ≤ i ∧ i < bufsize
  tables : ∀ i ∈ k.tableLog, i < scanCodeOne.length
  idx : 0 ≤ k.bufIdx ∧ k.bufIdx < bufsize

/-- The key that overruns a full line. -/
def Overruns (scan : UInt8) (k : Keyboard) : Prop :=
  (keyOf scan = .enter ∨ keyOf scan = .space) ∧ k.bufIdx = bufsize - 1

/-- The bounds with the lines that are not displayed.  No code sets
`keyboard_flags`, so `buffer_clear` always stores its line break. -/
structure Safe (k : Keyboard) : Prop extends InBounds k where
  saved : ∀ t, 0 ≤ (k.switchArray t).bufIdx ∧ (k.switchArray t).bufIdx < bufsize
  flags : ∀ t, k.keyboardFlags t ≠ lPress

theorem safe_init : init.Safe where
  stores := fun i hi => absurd hi (by simp [init])
  tables := fun i hi => absurd hi (by simp [init])
  idx := by decide
  saved := by decide
  flags := by decide

/-! ## One key -/

theorem Safe.append {k : Keyboard} (h : k.Safe) (b : UInt8) (hroom : k.bufIdx < bufsize - 1) :
    (k.append b).Safe where
  stores := by
    intro i hi
    rcases List.mem_cons.mp hi with rfl | hi
    · exact h.idx
    · exact h.stores i hi
  tables := h.tables
  idx := by
    have hidx := h.idx
    show 0 ≤ k.bufIdx + 1 ∧ k.bufIdx + 1 < bufsize
    omega
  saved := h.saved
  flags := h.flags

theorem append_overruns {k : Keyboard} (b : UInt8) (hfull : k.bufIdx = bufsize - 1) :
    ¬ (k.append b).InBounds := by
  intro h
  have hidx : k.bufIdx + 1 < bufsize := h.idx.2
  omega

theorem mem_wholeBuffer {i : Int} {l : List Int}
    (hi : i ∈ (List.range 128).map (fun i : Nat => (i : Int)) ++ l) :
    (0 ≤ i ∧ i < bufsize) ∨ i ∈ l := by
  rcases List.mem_append.mp hi with hi | hi
  · obtain ⟨n, hn, rfl⟩ := List.mem_map.mp hi
    have hlt := List.mem_range.mp hn
    have hsize : bufsize = 128 := rfl
    exact Or.inl (by omega)
  · exact Or.inr hi

theorem Safe.clearBuffers {k : Keyboard} (h : k.Safe) : k.clearBuffers.Safe where
  stores := fun i hi => (mem_wholeBuffer hi).elim id (h.stores i)
  tables := h.tables
  idx := by show (0 : Int) ≤ 0 ∧ (0 : Int) < bufsize; decide
  saved := h.saved
  flags := h.flags

theorem markCleared_eq {k : Keyboard} (hflag : k.keyboardFlags k.currTerm ≠ lPress) :
    k.markCleared = k.store k.bufIdx newline := if_pos hflag

theorem Safe.markCleared {k : Keyboard} (h : k.Safe) : k.markCleared.Safe := by
  rw [markCleared_eq (h.flags k.currTerm)]
  refine { h with stores := fun i hi => ?_ }
  rcases List.mem_cons.mp hi with rfl | hi
  · exact h.idx
  · exact h.stores i hi

theorem Safe.enter {k : Keyboard} (h : k.Safe) (t : Term) (hroom : k.bufIdx < bufsize - 1) :
    (k.enter t).Safe := by
  have hctrl : ({ k with ctrlKey := 0 } : Keyboard).Safe := { h with }
  have happend := hctrl.append newline hroom
  refine Safe.clearBuffers (Safe.markCleared ?_)
  exact { happend with }

/-- The line break that `buffer_clear` stores comes after the one of
`enter_helper`. -/
theorem enter_overruns {k : Keyboard} (hflags : ∀ t, k.keyboardFlags t ≠ lPress) (t : Term)
    (hfull : k.bufIdx = bufsize - 1) : ¬ (k.enter t).InBounds := by
  intro h
  have hmem : k.bufIdx + 1 ∈ (k.enter t).storeLog := by
    have hflag : (k.commit t).keyboardFlags (k.commit t).currTerm ≠ lPress := hflags _
    unfold Keyboard.enter
    rw [markCleared_eq hflag]
    exact List.mem_append_right _ List.mem_cons_self
  have hlt := (h.stores _ hmem).2
  omega

theorem Safe.erase {k : Keyboard} (h : k.Safe) : k.erase.Safe := by
  unfold Keyboard.erase
  split
  · rename_i hpos
    have hidx : 0 ≤ k.bufIdx - 1 ∧ k.bufIdx - 1 < bufsize := by
      have := h.idx
      omega
    refine { h with idx := hidx, stores := fun i hi => ?_ }
    rcases List.mem_cons.mp hi with rfl | hi
    · exact hidx
    · exact h.stores i hi
  · exact h

theorem Safe.appendSpaces {k : Keyboard} (h : k.Safe) (n : Nat) : (k.appendSpaces n).Safe := by
  induction n generalizing k with
  | zero => exact h
  | succ n ih =>
    rw [Keyboard.appendSpaces]
    split
    · exact h
    · rename_i hroom
      exact ih (h.append space (by omega))

/-- The tables' first index out of bounds is the scancode of a key that the switch
names. -/
theorem table_index_of_other {caps capital : Bool} {scan b : UInt8} (hother : keyOf scan = .other)
    (hb : scancodeHelper caps capital scan = some b) : scan.toNat < scanCodeOne.length := by
  have hne : scan.toNat ≠ 54 := by
    intro h
    have hscan : scan = 0x36 := UInt8.toNat_inj.mp h
    subst hscan
    exact absurd hother (by decide)
  have hlength := scanCodeOne_length
  unfold scancodeHelper at hb
  split at hb
  · cases hb
  · omega

theorem Safe.type {k : Keyboard} (h : k.Safe) {scan : UInt8} (hother : keyOf scan = .other) :
    (k.type scan).Safe := by
  unfold Keyboard.type
  split
  · exact h
  · rename_i hroom
    cases hb : scancodeHelper k.capslockFlag k.capitalFlag scan with
    | none => exact h
    | some b =>
      have hlog : ({ k with tableLog := scan.toNat :: k.tableLog } : Keyboard).Safe := by
        refine { h with tables := fun i hi => ?_ }
        rcases List.mem_cons.mp hi with rfl | hi
        · exact table_index_of_other hother hb
        · exact h.tables i hi
      exact hlog.append b (by show k.bufIdx < bufsize - 1; omega)

/-- A switch exchanges the index with a saved one. -/
theorem Safe.changeLine {k : Keyboard} (h : k.Safe) : k.changeLine.Safe := by
  have hsaved : ∀ t, 0 ≤ (k.changeLine.switchArray t).bufIdx ∧
      (k.changeLine.switchArray t).bufIdx < bufsize := by
    intro t
    unfold Keyboard.changeLine Keyboard.switch
    dsimp only
    by_cases ht : t = k.prevTerm
    · rw [ht, Function.update_self]
      exact h.idx
    · rw [Function.update_of_ne ht]
      exact h.saved t
  exact
    { stores := fun i hi => (mem_wholeBuffer hi).elim id (h.stores i)
      tables := h.tables
      idx := hsaved k.currTerm
      saved := hsaved
      flags := h.flags }

theorem Safe.choose {k : Keyboard} (h : k.Safe) (t : Term) : (k.choose t).Safe := by
  have hpick : (k.pick t).Safe := { h with }
  unfold Keyboard.choose
  split
  · exact hpick.changeLine
  · exact hpick

/-- A key keeps the bounds unless it overruns the line. -/
theorem Safe.press {k : Keyboard} (h : k.Safe) {scan : UInt8} (t : Term)
    (hkey : ¬ k.Overruns scan) : (k.press scan t).Safe := by
  have hroom : (keyOf scan = .enter ∨ keyOf scan = .space) → k.bufIdx < bufsize - 1 := by
    intro hk
    have hidx := h.idx
    have hne : k.bufIdx ≠ bufsize - 1 := fun e => hkey ⟨hk, e⟩
    omega
  unfold Keyboard.press
  cases hk : keyOf scan with
  | enter => exact h.enter t (hroom (Or.inl hk))
  | backspace => exact h.erase
  | leftControl press => exact { h with }
  | space => exact h.append space (hroom (Or.inr hk))
  | tab => exact h.appendSpaces 4
  | capslock => exact { h with }
  | shift press => exact { h with }
  | alt press => exact { h with }
  | f u press =>
    dsimp only
    split
    · exact h.choose u
    · exact h
  | other =>
    dsimp only
    split
    · exact { h with }
    · exact h.type hk

theorem Safe.press_overruns {k : Keyboard} (h : k.Safe) {scan : UInt8} (t : Term)
    (hkey : k.Overruns scan) : ¬ (k.press scan t).InBounds := by
  obtain ⟨hk, hfull⟩ := hkey
  unfold Keyboard.press
  rcases hk with hk | hk
  · rw [hk]
    exact enter_overruns h.flags t hfull
  · rw [hk]
    exact append_overruns space hfull

end Keyboard

/-! ## All scancodes -/

namespace Console

/-- No key overruns the line: what the accesses need to stay in bounds. -/
def NoOverrun (c : Console) (scans : List UInt8) : Prop :=
  ∀ before scan, before ++ [scan] <+: scans → ¬ (c.handled before).kb.Overruns scan

theorem safe_handled {c : Console} (h : c.kb.Safe) (scans : List UInt8)
    (hkeys : c.NoOverrun scans) : (c.handled scans).kb.Safe := by
  apply steps_invariant (I := fun before => (c.handled before).kb.Safe) h _ hkeys
  intro before scan hsafe hkey
  rw [handled_concat, keyboardHandler_kb]
  exact hsafe.press _ hkey

/-- The first key that overruns the line takes an access out of bounds. -/
theorem exists_overrun {c : Console} (h : c.kb.Safe) (scans : List UInt8)
    (hkeys : ¬ c.NoOverrun scans) :
    ∃ before, before <+: scans ∧ ¬ (c.handled before).kb.InBounds := by
  obtain ⟨before, scan, hpre, hbefore, hover⟩ := exists_first_step hkeys
  refine ⟨before ++ [scan], hpre, ?_⟩
  rw [handled_concat, keyboardHandler_kb]
  exact (safe_handled h before hbefore).press_overruns _ (not_not.mp hover)

/-- Under any sequence of scancodes, the stores, the table reads and the index of
the line stay in bounds exactly when no key overruns the line. -/
theorem accesses_inBounds_iff (v : Video) (scans : List UInt8) :
    (∀ before, before <+: scans →
        ((Console.mk v Keyboard.init).handled before).kb.InBounds) ↔
      (Console.mk v Keyboard.init).NoOverrun scans := by
  constructor
  · intro h
    by_contra hkeys
    obtain ⟨before, hpre, hout⟩ := exists_overrun Keyboard.safe_init scans hkeys
    exact hout (h before hpre)
  · intro hkeys before hpre
    refine (safe_handled Keyboard.safe_init before fun b scan hb => ?_).toInBounds
    exact hkeys b scan (hb.trans hpre)

theorem handled_spaces (c : Console) (n : Nat) :
    (c.handled (List.replicate n spacePush)).kb.bufIdx = c.kb.bufIdx + n := by
  induction n with
  | zero => simp [handled]
  | succ n ih =>
    rw [List.replicate_succ', handled_concat, keyboardHandler_kb]
    show (c.handled (List.replicate n spacePush)).kb.bufIdx + 1 = _
    rw [ih]
    push_cast
    omega

/-- The last of 129 spaces is stored past the end of the buffer. -/
theorem accesses_outOfBounds_spaces :
    ¬ ((Console.init (Bytes.ofList [])).handled (List.replicate 129 spacePush)).kb.InBounds := by
  intro h
  have hidx := handled_spaces (Console.init (Bytes.ofList [])) 128
  have hmem : (128 : Int) ∈
      ((Console.init (Bytes.ofList [])).handled (List.replicate 129 spacePush)).kb.storeLog := by
    rw [List.replicate_succ', handled_concat, keyboardHandler_kb]
    refine List.mem_cons.mpr (Or.inl ?_)
    rw [hidx]
    rfl
  exact absurd (h.stores _ hmem).2 (by decide)

end Console

end StudentDistrib
