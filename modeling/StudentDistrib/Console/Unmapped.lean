import StudentDistrib.Console.Lines
import StudentDistrib.Machine.Names
import StudentDistrib.Machine.Steps

/-!
# Keys without a character

`buf_idx` characters and zeros after them: what the line looks like under any
sequence of scancodes.  `scancode_helper` answers -1 past the tables only.  The
entries of the tables that have no character hold 0, and of these the switch of
`keyboard_handler` does not name 0x00, Escape and back-quote, so that the handler
appends a null byte for them.  The other way to break the line is a saved line that
`buffer_clear` wiped without its index.
-/

namespace StudentDistrib

open Machine

/-- The entries of the tables without a character. -/
theorem scancodeTable_getD_eq_zero : ∀ caps capital : Bool, ∀ i < 54,
    ((scancodeTable caps capital).getD i 0 = 0 ↔ i = 0 ∨ i = 1 ∨ i = 29 ∨ i = 41 ∨ i = 42) := by
  decide

/-- The scancodes that reach the tables and have no character there. -/
def Unmapped (scan : UInt8) : Prop := scan = 0x00 ∨ scan = 0x01 ∨ scan = 0x29

instance (scan : UInt8) : Decidable (Unmapped scan) :=
  inferInstanceAs (Decidable (scan = 0x00 ∨ scan = 0x01 ∨ scan = 0x29))

/-- Of the entries without a character the switch names control and left shift. -/
theorem scancodeHelper_eq_zero_iff {caps capital : Bool} {scan : UInt8}
    (hother : keyOf scan = .other) :
    scancodeHelper caps capital scan = some 0 ↔ Unmapped scan := by
  constructor
  · intro h
    have hlt := Keyboard.table_index_of_other hother h
    rw [scanCodeOne_length] at hlt
    have hentry : (scancodeTable caps capital).getD scan.toNat 0 = 0 := by
      simp only [scancodeHelper, scanCodeOne_length] at h
      rw [if_neg (by omega)] at h
      exact Option.some.inj h
    rcases (scancodeTable_getD_eq_zero caps capital _ hlt).mp hentry with hi | hi | hi | hi | hi
    · exact Or.inl (UInt8.toNat_inj.mp hi)
    · exact Or.inr (Or.inl (UInt8.toNat_inj.mp hi))
    · have hscan : scan = 0x1D := UInt8.toNat_inj.mp hi
      subst hscan
      exact absurd hother (by decide)
    · exact Or.inr (Or.inr (UInt8.toNat_inj.mp hi))
    · have hscan : scan = 0x2A := UInt8.toNat_inj.mp hi
      subst hscan
      exact absurd hother (by decide)
  · intro h
    have hentry := scancodeTable_getD_eq_zero caps capital
    rcases h with rfl | rfl | rfl
    · exact congrArg some ((hentry 0 (by omega)).mpr (by omega))
    · exact congrArg some ((hentry 1 (by omega)).mpr (by omega))
    · exact congrArg some ((hentry 41 (by omega)).mpr (by omega))

theorem keyOf_unmapped {scan : UInt8} (h : Unmapped scan) : keyOf scan = .other := by
  rcases h with rfl | rfl | rfl <;> rfl

theorem unmapped_ne_lPress {scan : UInt8} (h : Unmapped scan) : scan ≠ lPress := by
  rcases h with rfl | rfl | rfl <;> decide

namespace Keyboard

/-- `buf_idx` characters in `keyboard_buf` and zeros after them. -/
def Ended (k : Keyboard) : Prop := Bytes.FilledTo bufsize k.bufIdx k.keyboardBuf

/-- The scancode has no character and does not switch the display. -/
def Mute (scan : UInt8) (k : Keyboard) : Prop :=
  match keyOf scan with
  | .enter | .backspace | .space | .tab => False
  | .leftControl _ | .capslock | .shift _ | .alt _ => True
  | .f _ press => ¬ (press = true ∧ k.altInfo = true)
  | .other =>
    scancodeHelper k.capslockFlag k.capitalFlag scan = none ∨
      scancodeHelper k.capslockFlag k.capitalFlag scan = some 0

/-- A scancode without a character that is stored all the same. -/
def StoresNull (scan : UInt8) (k : Keyboard) : Prop :=
  Unmapped scan ∧ k.bufIdx < bufsize - 1

/-- A switch to a terminal whose saved line was wiped and whose saved index was not. -/
def LoadsWiped (scan : UInt8) (k : Keyboard) : Prop :=
  ∃ t, Console.switches scan k = some t ∧ t ≠ k.currTerm ∧
    0 < (k.switchArray t).bufIdx ∧ k.keyboardBufs t 0 = 0

/-- Every line, active or saved, is as long as its index says. -/
structure LinesEnded (k : Keyboard) : Prop where
  idx : 0 ≤ k.bufIdx
  line : k.Ended
  savedIdx : ∀ t, 0 ≤ (k.switchArray t).bufIdx
  saved : ∀ t, Bytes.FilledTo bufsize (k.switchArray t).bufIdx (k.keyboardBufs t)

/-- What keys keep of it: `buffer_clear` may have wiped a saved line. -/
structure LineEnded (k : Keyboard) : Prop where
  idx : 0 ≤ k.bufIdx
  line : k.Ended
  savedIdx : ∀ t, 0 ≤ (k.switchArray t).bufIdx
  saved : ∀ t, Bytes.FilledTo bufsize (k.switchArray t).bufIdx (k.keyboardBufs t) ∨
    Bytes.FilledTo bufsize 0 (k.keyboardBufs t)

theorem LinesEnded.lineEnded {k : Keyboard} (h : k.LinesEnded) : k.LineEnded :=
  { h with saved := fun t => Or.inl (h.saved t) }

theorem init_linesEnded : init.LinesEnded where
  idx := Int.le_refl 0
  line := fun _ h0 _ => iff_of_true (by simp [init, Bytes.ofList]) h0
  savedIdx := fun _ => Int.le_refl 0
  saved := fun _ _ h0 _ => iff_of_true (by simp [init, Bytes.ofList]) h0

/-! ## Switches -/

theorem changeLine_bufIdx (k : Keyboard) : k.changeLine.bufIdx =
    if k.currTerm = k.prevTerm then k.bufIdx else (k.switchArray k.currTerm).bufIdx := by
  simp only [changeLine, switch, Function.update_apply]
  split <;> rfl

theorem changeLine_keyboardBuf (k : Keyboard) : Bytes.SameOn bufsize k.changeLine.keyboardBuf
    (if k.currTerm = k.prevTerm then k.keyboardBuf else k.keyboardBufs k.currTerm) := by
  have hcopy := Bytes.sameOn_copy bufsize
    (Function.update k.keyboardBufs k.prevTerm
      (Bytes.copy bufsize k.keyboardBuf (k.keyboardBufs k.prevTerm)) k.currTerm) k.keyboardBuf
  refine hcopy.trans ?_
  by_cases hsame : k.currTerm = k.prevTerm
  · rw [if_pos hsame, hsame, Function.update_self]
    exact Bytes.sameOn_copy _ _ _
  · rw [if_neg hsame, Function.update_of_ne hsame]
    exact Bytes.SameOn.refl _ _

theorem changeLine_switchArray (k : Keyboard) (t : Term) : (k.changeLine.switchArray t).bufIdx =
    if t = k.prevTerm then k.bufIdx else (k.switchArray t).bufIdx := by
  simp only [changeLine, switch, Function.update_apply]
  split <;> rfl

theorem changeLine_keyboardBufs (k : Keyboard) (t : Term) :
    Bytes.SameOn bufsize (k.changeLine.keyboardBufs t)
      (if t = k.prevTerm then k.keyboardBuf else k.keyboardBufs t) := by
  show Bytes.SameOn bufsize (Function.update k.keyboardBufs k.prevTerm
    (Bytes.copy bufsize k.keyboardBuf (k.keyboardBufs k.prevTerm)) t) _
  by_cases ht : t = k.prevTerm
  · rw [if_pos ht, ht, Function.update_self]
    exact Bytes.sameOn_copy _ _ _
  · rw [if_neg ht, Function.update_of_ne ht]
    exact Bytes.SameOn.refl _ _

theorem LineEnded.changeLine {k : Keyboard} (h : k.LineEnded)
    (hload : k.currTerm ≠ k.prevTerm →
      Bytes.FilledTo bufsize (k.switchArray k.currTerm).bufIdx (k.keyboardBufs k.currTerm)) :
    k.changeLine.LineEnded where
  idx := by
    rw [changeLine_bufIdx]
    split
    · exact h.idx
    · exact h.savedIdx _
  line := by
    have hbuf := changeLine_keyboardBuf k
    simp only [Ended, changeLine_bufIdx]
    split at hbuf
    · rw [if_pos ‹_›]
      exact h.line.of_sameOn hbuf
    · rw [if_neg ‹_›]
      exact (hload ‹_›).of_sameOn hbuf
  savedIdx := by
    intro t
    rw [changeLine_switchArray]
    split
    · exact h.idx
    · exact h.savedIdx t
  saved := by
    intro t
    have hbuf := changeLine_keyboardBufs k t
    rw [changeLine_switchArray]
    split at hbuf
    · rw [if_pos ‹_›]
      exact Or.inl (h.line.of_sameOn hbuf)
    · rw [if_neg ‹_›]
      exact (h.saved t).imp (·.of_sameOn hbuf) (·.of_sameOn hbuf)

theorem LinesEnded.changeLine {k : Keyboard} (h : k.LinesEnded) : k.changeLine.LinesEnded := by
  have hline := h.lineEnded.changeLine fun _ => h.saved k.currTerm
  refine { hline with saved := fun t => ?_ }
  have hbuf := changeLine_keyboardBufs k t
  rw [changeLine_switchArray]
  split at hbuf
  · rw [if_pos ‹_›]
    exact h.line.of_sameOn hbuf
  · rw [if_neg ‹_›]
    exact (h.saved t).of_sameOn hbuf

theorem LineEnded.choose {k : Keyboard} (h : k.LineEnded) {scan : UInt8} {t : Term}
    (hk : keyOf scan = .f t true) (hload : ¬ k.LoadsWiped scan) : (k.choose t).LineEnded := by
  have hpick : (k.pick t).LineEnded := { h with }
  unfold Keyboard.choose
  split
  · rename_i halt
    refine hpick.changeLine fun hne => ?_
    rcases h.saved t with hsaved | hwiped
    · exact hsaved
    · have hswitch : Console.switches scan k = some t := by
        simp [Console.switches, hk, halt]
      have hnull : k.keyboardBufs t 0 = 0 :=
        (hwiped 0 (Int.le_refl 0) (by decide)).mpr (Int.le_refl 0)
      have hempty : (k.switchArray t).bufIdx = 0 := by
        have hpos : ¬ 0 < (k.switchArray t).bufIdx := fun hpos =>
          hload ⟨t, hswitch, hne, hpos, hnull⟩
        have hidx := h.savedIdx t
        omega
      show Bytes.FilledTo bufsize (k.switchArray t).bufIdx (k.keyboardBufs t)
      rw [hempty]
      exact hwiped
  · exact hpick

theorem not_ended_of_loadsWiped {k : Keyboard} {scan : UInt8} {t : Term} (h : k.LoadsWiped scan) :
    ¬ (k.press scan t).Ended := by
  obtain ⟨u, hswitch, hne, hpos, hnull⟩ := h
  have hpress : k.press scan t = (k.pick u).changeLine := by
    unfold Console.switches at hswitch
    unfold press
    cases hk : keyOf scan with
    | f w press =>
      rw [hk] at hswitch
      cases press with
      | false => simp at hswitch
      | true =>
        by_cases halt : k.altInfo = true
        · have hw : w = u := by simpa [halt] using hswitch
          simp only [choose, halt, if_true, hw]
        · simp [halt] at hswitch
    | _ => simp [hk] at hswitch
  intro hended
  have hother : (k.pick u).currTerm ≠ (k.pick u).prevTerm := hne
  have hbuf := changeLine_keyboardBuf (k.pick u)
  rw [if_neg hother] at hbuf
  rw [hpress] at hended
  have hfirst := (hended 0 (Int.le_refl 0) (by decide)).mp
    ((hbuf 0 (Int.le_refl 0) (by decide)).trans hnull)
  rw [changeLine_bufIdx, if_neg hother] at hfirst
  exact absurd hfirst (Int.not_le.mpr hpos)

/-! ## One key -/

theorem LineEnded.append {k : Keyboard} (h : k.LineEnded) {b : UInt8} (hb : b ≠ 0) :
    (k.append b).LineEnded where
  idx := by
    have hidx := h.idx
    show 0 ≤ k.bufIdx + 1
    omega
  line := h.line.push hb
  savedIdx := h.savedIdx
  saved := h.saved

theorem LineEnded.appendSpaces {k : Keyboard} (h : k.LineEnded) (n : Nat) :
    (k.appendSpaces n).LineEnded := by
  induction n generalizing k with
  | zero => exact h
  | succ n ih =>
    rw [Keyboard.appendSpaces]
    split
    · exact h
    · exact ih (h.append (by decide))

theorem LineEnded.erase {k : Keyboard} (h : k.LineEnded) : k.erase.LineEnded := by
  unfold Keyboard.erase
  split
  · rename_i hpos
    refine { h with idx := ?_, line := h.line.pop }
    show 0 ≤ k.bufIdx - 1
    omega
  · exact h

theorem LineEnded.enter {k : Keyboard} (h : k.LineEnded) (t : Term) : (k.enter t).LineEnded := by
  obtain ⟨buf, log, heq⟩ := enter_eq k t
  rw [heq]
  refine
    { idx := Int.le_refl 0
      line := Bytes.filledTo_zero _ _
      savedIdx := h.savedIdx
      saved := fun u => ?_ }
  show _ ∨ Bytes.FilledTo bufsize 0 (Function.update k.keyboardBufs k.currTerm _ u)
  by_cases hu : u = k.currTerm
  · subst hu
    rw [Function.update_self]
    exact Or.inr (Bytes.filledTo_zero _ _)
  · show Bytes.FilledTo bufsize _ (Function.update k.keyboardBufs k.currTerm _ u) ∨ _
    rw [Function.update_of_ne hu]
    exact h.saved u

/-- The committed line ends with the line break. -/
theorem LineEnded.enter_termBuf {k : Keyboard} (h : k.LineEnded) (t : Term) :
    Bytes.FilledTo bufsize (k.bufIdx + 1) (k.enter t).termBuf := by
  obtain ⟨buf, log, heq⟩ := enter_eq k t
  rw [heq]
  have hline : Bytes.FilledTo bufsize (k.bufIdx + 1)
      (Function.update k.keyboardBuf k.bufIdx newline) := h.line.push (by decide)
  exact hline.of_sameOn (Bytes.sameOn_copy _ _ _)

theorem LineEnded.type {k : Keyboard} (h : k.LineEnded) {scan : UInt8}
    (hother : keyOf scan = .other) (hnull : ¬ k.StoresNull scan) : (k.type scan).LineEnded := by
  unfold Keyboard.type
  split
  · exact h
  · rename_i hroom
    cases hb : scancodeHelper k.capslockFlag k.capitalFlag scan with
    | none => exact h
    | some b =>
      have hne : b ≠ 0 := by
        rintro rfl
        exact hnull ⟨(scancodeHelper_eq_zero_iff hother).mp hb, by omega⟩
      have hlog : ({ k with tableLog := scan.toNat :: k.tableLog } : Keyboard).LineEnded :=
        { h with }
      exact hlog.append hne

theorem type_unmapped {k : Keyboard} {scan : UInt8} (h : k.StoresNull scan) :
    k.type scan = { k with tableLog := scan.toNat :: k.tableLog }.append 0 := by
  obtain ⟨hscan, hroom⟩ := h
  have hzero : scancodeHelper k.capslockFlag k.capitalFlag scan = some 0 :=
    (scancodeHelper_eq_zero_iff (keyOf_unmapped hscan)).mpr hscan
  unfold Keyboard.type
  rw [if_neg (by omega), hzero]

theorem LineEnded.not_ended_of_storesNull {k : Keyboard} (h : k.LineEnded) {scan : UInt8}
    {t : Term} (hnull : k.StoresNull scan) : ¬ (k.press scan t).Ended := by
  have hctrl : ¬ (k.ctrlState = true ∧ scan = lPress) := fun e =>
    unmapped_ne_lPress hnull.1 e.2
  have hroom : k.bufIdx < bufsize := by
    have := hnull.2
    omega
  unfold press
  rw [keyOf_unmapped hnull.1]
  dsimp only
  rw [if_neg hctrl, type_unmapped hnull]
  exact Bytes.not_filledTo_push_zero k.keyboardBuf h.idx hroom

/-- A key keeps the line ended, unless it stores a null byte or loads a wiped line. -/
theorem LineEnded.press {k : Keyboard} (h : k.LineEnded) {scan : UInt8} (t : Term)
    (hnull : ¬ k.StoresNull scan) (hload : ¬ k.LoadsWiped scan) : (k.press scan t).LineEnded := by
  unfold Keyboard.press
  cases hk : keyOf scan with
  | enter => exact h.enter t
  | backspace => exact h.erase
  | leftControl press => exact { h with }
  | space => exact h.append (by decide)
  | tab => exact h.appendSpaces 4
  | capslock => exact { h with }
  | shift press => exact { h with }
  | alt press => exact { h with }
  | f u press =>
    cases press with
    | false => exact h
    | true => exact h.choose hk hload
  | other =>
    dsimp only
    split
    · exact { h with }
    · exact h.type hk hnull

/-- A scancode without a character changes nothing on the line, unless it stores a
null byte. -/
theorem press_mute {k : Keyboard} {scan : UInt8} (t : Term) (hmute : k.Mute scan)
    (hnull : ¬ k.StoresNull scan) :
    (k.press scan t).keyboardBuf = k.keyboardBuf ∧ (k.press scan t).bufIdx = k.bufIdx := by
  unfold Mute at hmute
  unfold press
  cases hk : keyOf scan with
  | enter => simp [hk] at hmute
  | backspace => simp [hk] at hmute
  | space => simp [hk] at hmute
  | tab => simp [hk] at hmute
  | leftControl press => exact ⟨rfl, rfl⟩
  | capslock => exact ⟨rfl, rfl⟩
  | shift press => exact ⟨rfl, rfl⟩
  | alt press => exact ⟨rfl, rfl⟩
  | f u press =>
    cases press with
    | false => exact ⟨rfl, rfl⟩
    | true =>
      have halt : ¬ k.altInfo = true := by simpa [hk] using hmute
      simp only [if_true, choose, halt]
      exact ⟨rfl, rfl⟩
  | other =>
    rw [hk] at hmute
    dsimp only
    split
    · exact ⟨rfl, rfl⟩
    · unfold Keyboard.type
      split
      · exact ⟨rfl, rfl⟩
      · rename_i hroom
        rcases hmute with hnone | hzero
        · rw [hnone]
          exact ⟨rfl, rfl⟩
        · exact absurd ⟨(scancodeHelper_eq_zero_iff hk).mp hzero, by omega⟩ hnull

end Keyboard

namespace Console

/-- What a scancode must leave of the line. -/
structure KeepsLine (scan : UInt8) (c : Console) : Prop where
  ended : (c.keyboardHandler scan).kb.Ended
  mute : c.kb.Mute scan →
    (c.keyboardHandler scan).kb.keyboardBuf = c.kb.keyboardBuf ∧
      (c.keyboardHandler scan).kb.bufIdx = c.kb.bufIdx
  committed : keyOf scan = .enter →
    Bytes.FilledTo bufsize (c.kb.bufIdx + 1) (c.keyboardHandler scan).kb.termBuf

theorem keepsLine_iff {c : Console} (h : c.kb.LineEnded) (scan : UInt8) :
    c.KeepsLine scan ↔ ¬ c.kb.StoresNull scan ∧ ¬ c.kb.LoadsWiped scan := by
  have hkb := keyboardHandler_kb scan c
  constructor
  · intro hkeeps
    have hended := hkeeps.ended
    rw [hkb] at hended
    exact ⟨fun hnull => h.not_ended_of_storesNull hnull hended,
      fun hload => Keyboard.not_ended_of_loadsWiped hload hended⟩
  · intro hkey
    obtain ⟨hnull, hload⟩ := hkey
    refine ⟨?_, fun hmute => ?_, fun henter => ?_⟩
    · rw [hkb]
      exact (h.press _ hnull hload).line
    · rw [hkb]
      exact Keyboard.press_mute _ hmute hnull
    · rw [hkb]
      simp only [Keyboard.press, henter]
      exact h.enter_termBuf _

/-- Every line has its characters and zeros after them, scancodes without a character
leave it alone and what Enter commits has no null byte before its line break, exactly
when no scancode stores a null byte and no switch loads a wiped line. -/
theorem keepsLine_handled_iff {c : Console} (h : c.kb.LinesEnded) (scans : List UInt8) :
    (∀ before scan, before ++ [scan] <+: scans → (c.handled before).KeepsLine scan) ↔
      ∀ before scan, before ++ [scan] <+: scans →
        ¬ (c.handled before).kb.StoresNull scan ∧ ¬ (c.handled before).kb.LoadsWiped scan := by
  apply forall_steps_iff (I := fun before => (c.handled before).kb.LineEnded)
  · exact h.lineEnded
  · intro before scan hended hkey
    rw [handled_concat, keyboardHandler_kb]
    exact hended.press _ hkey.1 hkey.2
  · intro before scan hended
    exact keepsLine_iff hended scan

/-- The boot leaves three empty lines. -/
theorem booted_linesEnded (mem : Bytes) : (booted mem).kb.LinesEnded := by
  have hpick : ∀ (t : Term) (k : Keyboard), k.LinesEnded → (k.pick t).LinesEnded :=
    fun _ _ h => { h with }
  rw [booted_kb]
  apply Keyboard.LinesEnded.changeLine
  apply hpick
  apply Keyboard.LinesEnded.changeLine
  apply hpick
  apply Keyboard.LinesEnded.changeLine
  apply hpick
  exact Keyboard.init_linesEnded

/-- The letter A typed and committed after the boot. -/
theorem keepsLine_handled_letter :
    (booted (Bytes.ofList [])).kb.LinesEnded ∧
      (∀ before scan, before ++ [scan] <+: [0x1E, enterPress] →
        ((booted (Bytes.ofList [])).handled before).KeepsLine scan) := by
  refine ⟨booted_linesEnded _, (keepsLine_handled_iff (booted_linesEnded _) _).mpr ?_⟩
  have hkey : ∀ (k : Keyboard) (scan : UInt8), scan = 0x1E ∨ scan = enterPress →
      ¬ k.StoresNull scan ∧ ¬ k.LoadsWiped scan := by
    intro k scan hscan
    rcases hscan with rfl | rfl
    · exact ⟨fun h => absurd h.1 (by decide), fun ⟨_, ht, _⟩ => by cases ht⟩
    · exact ⟨fun h => absurd h.1 (by decide), fun ⟨_, ht, _⟩ => by cases ht⟩
  rw [forall_steps_cons, forall_steps_cons]
  exact ⟨hkey _ _ (Or.inl rfl), hkey _ _ (Or.inr rfl), forall_steps_nil⟩

/-- Escape stores a null byte on an empty line. -/
theorem line_broken_by_escape :
    ¬ ∀ (mem : Bytes) (scans : List UInt8), (∀ before, before <+: scans →
        ((booted mem).handled before).kb.bufIdx < bufsize) →
      ∀ before scan, before ++ [scan] <+: scans → ((booted mem).handled before).KeepsLine scan := by
  intro h
  have hended := booted_linesEnded (Bytes.ofList [])
  have hempty : (booted (Bytes.ofList [])).kb.bufIdx = 0 := (booted_holds _).active.idx
  have hnull : (booted (Bytes.ofList [])).kb.StoresNull 0x01 :=
    ⟨Or.inr (Or.inl rfl), by rw [hempty]; decide⟩
  have hkeeps := h (Bytes.ofList []) [0x01] ?_ [] 0x01 (List.prefix_refl _)
  · exact ((keepsLine_iff hended.lineEnded 0x01).mp hkeeps).1 hnull
  · intro before hpre
    rcases List.prefix_cons_iff.mp hpre with rfl | ⟨rest, rfl, hrest⟩
    · show (booted (Bytes.ofList [])).kb.bufIdx < bufsize
      rw [hempty]
      decide
    · have hnil : rest = [] := List.prefix_nil.mp hrest
      subst hnil
      have hstep : ((booted (Bytes.ofList [])).handled [0x01]).kb.bufIdx = 1 := by
        show ((booted (Bytes.ofList [])).keyboardHandler 0x01).kb.bufIdx = 1
        rw [keyboardHandler_kb]
        simp only [Keyboard.press, show keyOf 0x01 = .other from rfl]
        rw [if_neg (fun e => absurd e.2 (by decide)), Keyboard.type_unmapped hnull]
        show (booted (Bytes.ofList [])).kb.bufIdx + 1 = 1
        rw [hempty]
        rfl
      rw [hstep]
      decide

end Console

end StudentDistrib
