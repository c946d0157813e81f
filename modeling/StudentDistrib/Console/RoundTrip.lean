import StudentDistrib.Console.Erasing
import StudentDistrib.Console.Fault
import StudentDistrib.Console.ReadLine
import StudentDistrib.Machine.Run

/-!
# A line typed and read

`Editor` is a reference line editor.  While one terminal stays displayed and its
line stays short of the limit, the keyboard driver edits the line as the editor
does, Enter commits it, and the next read of the terminal returns it.
-/

namespace StudentDistrib

open Machine

/-! ## The reference editor -/

structure Editor where
  caps : Bool
  shift : Bool
  line : List UInt8

namespace Editor

def start : Editor := { caps := false, shift := false, line := [] }

/-- The character that shift and caps lock select. -/
def char (e : Editor) (scan : UInt8) : UInt8 := (scancodeTable e.caps e.shift).getD scan.toNat 0

/-- A key pressed or released.  Tab appends four spaces, but none past 127
characters. -/
def press (scan : UInt8) (e : Editor) : Editor :=
  match keyOf scan with
  | .enter => { e with line := [] }
  | .backspace => { e with line := e.line.dropLast }
  | .space => { e with line := e.line ++ [space] }
  | .tab => { e with line := e.line ++ List.replicate (min 4 (127 - e.line.length)) space }
  | .capslock => { e with caps := !e.caps }
  | .shift press => { e with shift := press }
  | .other => if scan.toNat < 54 then { e with line := e.line ++ [e.char scan] } else e
  | _ => e

end Editor

/-- The keys that edit or end a line by themselves. -/
def Key.Edits : Key → Bool
  | .enter | .backspace | .space | .tab | .capslock | .shift _ => true
  | _ => false

/-- The keys of a line: a release, or a press of Enter, backspace, space, tab, caps
lock, shift or a key that the tables map to a character. -/
def LineKey (scan : UInt8) : Prop :=
  0x80 ≤ scan.toNat ∨ (keyOf scan).Edits = true ∨
    (keyOf scan = .other ∧ scan.toNat < 54 ∧ scanCodeOne.getD scan.toNat 0 ≠ 0)

instance (scan : UInt8) : Decidable (LineKey scan) :=
  inferInstanceAs (Decidable (_ ∨ _ ∨ (_ ∧ _ ∧ _)))

/-- The editor and the line that was committed and not read yet. -/
structure Typist where
  editor : Editor
  committed : Option (List UInt8)

namespace Typist

def start : Typist := { editor := Editor.start, committed := none }

def press (scan : UInt8) (y : Typist) : Typist :=
  { editor := y.editor.press scan
    committed := if keyOf scan = .enter then some y.editor.line else y.committed }

end Typist

/-! ## The keys of a line -/

theorem forall_scan {P : UInt8 → Prop} (h : ∀ n < 256, P (UInt8.ofNat n)) (scan : UInt8) :
    P scan := by
  have hscan := h scan.toNat scan.toNat_lt
  rwa [UInt8.ofNat_toNat] at hscan

theorem LineKey.leftControl {scan : UInt8} (h : LineKey scan) :
    keyOf scan ≠ .leftControl true := by
  refine forall_scan (P := fun scan => LineKey scan → keyOf scan ≠ .leftControl true) ?_ scan h
  decide +kernel

theorem LineKey.f {scan : UInt8} (h : LineKey scan) (t : Term) : keyOf scan ≠ .f t true := by
  refine forall_scan (P := fun scan => LineKey scan → ∀ t, keyOf scan ≠ .f t true) ?_ scan h t
  decide +kernel

/-- The index of a character key is in the tables, that of a release past them. -/
theorem LineKey.other {scan : UInt8} (h : LineKey scan) (hk : keyOf scan = .other) :
    54 < scan.toNat ∨ scan.toNat < 54 := by
  refine forall_scan (P := fun scan => LineKey scan → keyOf scan = .other →
    54 < scan.toNat ∨ scan.toNat < 54) ?_ scan h hk
  decide +kernel

/-- Only the Enter key types a line break. -/
theorem char_ne_newline (caps shift : Bool) {scan : UInt8} (hk : keyOf scan = .other) :
    (scancodeTable caps shift).getD scan.toNat 0 ≠ newline := by
  have htable : ∀ caps shift, ∀ n < 54,
      (scancodeTable caps shift).getD n 0 = newline → n = 0x1C := by decide +kernel
  intro h
  by_cases hlt : scan.toNat < 54
  · have hscan : scan = 0x1C := UInt8.toNat_inj.mp (htable caps shift scan.toNat hlt h)
    rw [hscan] at hk
    exact absurd hk (by decide)
  · rw [List.getD_eq_default _ _ (by rw [scancodeTable_length]; omega)] at h
    exact absurd h (by decide)

/-! ## What a key leaves alone -/

namespace Keyboard

theorem appendSpaces_flags (n : Nat) (k : Keyboard) :
    (k.appendSpaces n).enterFlag = k.enterFlag ∧ (k.appendSpaces n).currTerm = k.currTerm := by
  induction n generalizing k with
  | zero => exact ⟨rfl, rfl⟩
  | succ n ih =>
    rw [appendSpaces]
    split
    · exact ⟨rfl, rfl⟩
    · exact ih (k.append space)

theorem markCleared_flags (k : Keyboard) :
    k.markCleared.enterFlag = k.enterFlag ∧ k.markCleared.currTerm = k.currTerm := by
  unfold markCleared
  split <;> exact ⟨rfl, rfl⟩

/-- Enter sets the flag of the displayed terminal, and no key of a line moves
`recentTermChoice`. -/
theorem press_flags {scan : UInt8} (h : LineKey scan) (t : Term) (k : Keyboard) :
    (k.press scan t).enterFlag
        = (if keyOf scan = .enter then Function.update k.enterFlag t true else k.enterFlag) ∧
      (k.press scan t).currTerm = k.currTerm := by
  have hf := h.f
  unfold press
  cases hk : keyOf scan with
  | enter =>
    obtain ⟨hflag, hcurr⟩ := markCleared_flags (k.commit t)
    exact ⟨hflag, hcurr⟩
  | backspace =>
    unfold Keyboard.erase
    dsimp only
    split <;> exact ⟨rfl, rfl⟩
  | tab => exact appendSpaces_flags 4 k
  | f u press =>
    cases press with
    | false => exact ⟨rfl, rfl⟩
    | true => exact absurd hk (hf u)
  | other =>
    dsimp only
    split
    · exact ⟨rfl, rfl⟩
    · unfold Keyboard.type
      split
      · exact ⟨rfl, rfl⟩
      · split <;> exact ⟨rfl, rfl⟩
  | _ => exact ⟨rfl, rfl⟩

end Keyboard

/-! ## The desk edits the displayed line as the editor does -/

theorem insertSpaces_eq (n : Nat) (line : List UInt8) : Desk.insertSpaces n line
    = line ++ List.replicate (min n (127 - line.length)) space := by
  induction n generalizing line with
  | zero => rw [Nat.zero_min, List.replicate_zero, List.append_nil, Desk.insertSpaces]
  | succ n ih =>
    rw [Desk.insertSpaces, ih]
    unfold Desk.insert bufsize
    split
    · have hnone : 127 - line.length = 0 := by omega
      rw [hnone, Nat.min_zero, Nat.min_zero]
    · have hcount : min (n + 1) (127 - line.length)
          = min n (127 - (line ++ [space]).length) + 1 := by
        rw [List.length_append, List.length_singleton]
        omega
      rw [hcount, List.replicate_succ, List.append_assoc, List.singleton_append]

/-- The desk while terminal `t` is displayed and the typist edits its line. -/
structure Desk.Tracks (d : Desk) (t : Term) (y : Typist) : Prop where
  display : d.display = t
  ctrl : d.ctrl = false
  caps : d.caps = y.editor.caps
  shift : d.shift = y.editor.shift
  line : d.line t = y.editor.line
  short : y.editor.line.length ≤ 126
  unbroken : newline ∉ y.editor.line
  committed : ∀ w, y.committed = some w →
    d.committed t = w ++ [newline] ∧ w.length ≤ 126 ∧ newline ∉ w

variable {d : Desk} {t : Term} {y : Typist}

theorem Desk.Tracks.edit (h : d.Tracks t y) {f : List UInt8 → List UInt8} {e : Editor}
    (hcaps : e.caps = y.editor.caps) (hshift : e.shift = y.editor.shift)
    (hline : e.line = f y.editor.line) (hshort : e.line.length ≤ 126)
    (hunbroken : newline ∉ e.line) :
    (d.edit f).Tracks t { y with editor := e } where
  display := h.display
  ctrl := h.ctrl
  caps := h.caps.trans hcaps.symm
  shift := h.shift.trans hshift.symm
  line := by
    have hself := d.edit_self f
    rw [h.display, h.line] at hself
    exact hself.trans hline.symm
  short := hshort
  unbroken := hunbroken
  committed := h.committed

/-- An insertion into a short line appends. -/
theorem insert_short {line : List UInt8} (b : UInt8) (h : line.length ≤ 126) :
    Desk.insert b line = line ++ [b] := by
  unfold Desk.insert bufsize
  rw [if_neg (by omega)]

theorem newline_not_mem_append {w v : List UInt8} (hw : newline ∉ w) (hv : newline ∉ v) :
    newline ∉ w ++ v := by
  rw [List.mem_append]
  exact fun h => h.elim hw hv

theorem Desk.Tracks.press (h : d.Tracks t y) {scan : UInt8} (hscan : LineKey scan)
    (hshort : (y.editor.press scan).line.length ≤ 126) :
    (d.press scan).Tracks t (y.press scan) := by
  have hcontrol := hscan.leftControl
  have hf := hscan.f
  have hother := hscan.other
  have hchar (hk : keyOf scan = .other) := char_ne_newline y.editor.caps y.editor.shift hk
  unfold Desk.press Typist.press
  unfold Editor.press at hshort ⊢
  cases hk : keyOf scan with
  | enter =>
    obtain ⟨hline, hcommitted⟩ := Prod.mk.inj (Desk.commit_self d)
    rw [h.display] at hline hcommitted
    refine ⟨h.display, h.ctrl, h.caps, h.shift, hline, Nat.zero_le _, List.not_mem_nil, ?_⟩
    intro w hw
    have hsame : y.editor.line = w := Option.some.inj hw
    rw [← hsame, ← h.line]
    exact ⟨hcommitted, h.line ▸ h.short, h.line ▸ h.unbroken⟩
  | backspace =>
    rw [hk] at hshort
    exact h.edit rfl rfl rfl hshort fun hmem => h.unbroken (List.dropLast_subset _ hmem)
  | leftControl press =>
    cases press with
    | false =>
      exact
        { h with
          display := h.display
          ctrl := rfl }
    | true => exact absurd hk hcontrol
  | space =>
    rw [hk] at hshort
    exact h.edit rfl rfl (insert_short space h.short).symm hshort
      (newline_not_mem_append h.unbroken (by decide))
  | tab =>
    rw [hk] at hshort
    refine h.edit rfl rfl (insertSpaces_eq 4 _).symm hshort (newline_not_mem_append h.unbroken ?_)
    intro hmem
    exact absurd (List.eq_of_mem_replicate hmem) (by decide)
  | capslock => exact { h with caps := congrArg Bool.not h.caps }
  | shift press => exact { h with shift := rfl }
  | alt press => exact { h with display := h.display }
  | f u press =>
    cases press with
    | false => exact h
    | true => exact absurd hk (hf u)
  | other =>
    rw [hk] at hshort
    dsimp only at hshort ⊢
    have hctrl : ¬ (d.ctrl = true ∧ scan = lPress) := by
      rw [h.ctrl]
      exact fun hc => absurd hc.1 (by decide)
    rw [if_neg hctrl]
    rcases hother hk with hpast | hlt
    · -- A release has no character.
      have hnone : scancodeHelper d.caps d.shift scan = none := by
        unfold scancodeHelper
        rw [scanCodeOne_length, if_pos hpast]
      rw [hnone, if_neg (by omega)]
      exact h
    · have hsome : scancodeHelper d.caps d.shift scan = some (y.editor.char scan) := by
        unfold scancodeHelper Editor.char
        rw [scanCodeOne_length, if_neg (by omega), h.caps, h.shift]
      rw [if_pos hlt] at hshort
      rw [hsome, if_pos hlt]
      refine h.edit rfl rfl (insert_short _ h.short).symm hshort
        (newline_not_mem_append h.unbroken ?_)
      intro hmem
      exact hchar hk (List.mem_singleton.mp hmem).symm

namespace Console

/-! ## The keys that fault -/

/-- The tables have no carriage return. -/
theorem char_ne_carriageReturn (caps shift : Bool) (scan : UInt8) :
    (scancodeTable caps shift).getD scan.toNat 0 ≠ carriageReturn := by
  have htable : ∀ caps shift, ∀ n < 54,
      (scancodeTable caps shift).getD n 0 ≠ carriageReturn := by decide +kernel
  by_cases hlt : scan.toNat < 54
  · exact htable caps shift _ hlt
  · rw [List.getD_eq_default _ _ (by rw [scancodeTable_length]; omega)]
    decide

variable {c : Console}

theorem putcStores_key (scan : UInt8) (c : Console) : putcStores (.key scan) c
    = c.cli.echoStores (c.kb.script scan c.vid.currentTerminal) := rfl

/-- The backspace of a line. -/
theorem backspaceScript_present_iff (h : c.vid.Bounded) (k : Keyboard) :
    (∀ a ∈ c.echoStores k.backspaceScript, Video.Present a) ↔
      ¬ (c.vid.termReadFlag c.vid.currentTerminal = true ∧ 0 < k.bufIdx ∧ c.vid.cursorCell ≤ 0 ∧
        ¬ (c.vid.termScreenx c.vid.currentTerminal = 0 ∧
          c.vid.termScreeny c.vid.currentTerminal = 0)) := by
  unfold Keyboard.backspaceScript
  by_cases hpos : k.bufIdx > 0
  · rw [if_pos hpos]
    have hstores := Video.echo_backspace_present_iff h
    rw [← List.append_nil (c.vid.keyboardputcStores backspaceAscii)] at hstores
    refine hstores.trans (not_congr ?_)
    constructor
    · rintro ⟨hread, horigin, hcell⟩
      exact ⟨hread, hpos, by omega, horigin⟩
    · rintro ⟨hread, -, hcell, horigin⟩
      exact ⟨hread, horigin, by omega⟩
  · rw [if_neg hpos]
    refine iff_of_true (echoStores_present fun b hb => ?_) fun e => hpos e.2.1
    cases List.mem_singleton.mp hb

/-- The spaces of a tab, of which the first one tells. -/
theorem tabScript_present_iff (h : c.vid.Bounded) {k : Keyboard} (hroom : k.bufIdx < bufsize - 1) :
    (∀ a ∈ c.echoStores (k.tabScript 4), Video.Present a) ↔
      ¬ (c.vid.termReadFlag c.vid.currentTerminal = true ∧ c.vid.cursorCell < 0) := by
  have hback : space ≠ backspaceAscii := by decide
  have hbreak : ¬ (space = newline ∨ space = carriageReturn) := by decide
  constructor
  · intro hall
    rw [Keyboard.tabScript, if_neg (Int.not_le.mpr hroom), echoStores_append,
      List.forall_mem_append] at hall
    exact (appendScript_present_iff h hback hbreak k).mp hall.1
  · exact fun hscreen => tabScript_present h
      (fun hread => Int.not_lt.mp fun hneg => hscreen ⟨hread, hneg⟩) 4 k

/-- A key of the tables, or one past them. -/
theorem typeScript_present_iff (h : c.vid.Bounded) {scan : UInt8} (hscan : LineKey scan)
    (hk : keyOf scan = .other) {k : Keyboard} (hroom : k.bufIdx < bufsize - 1) :
    (∀ a ∈ c.echoStores (k.typeScript scan), Video.Present a) ↔
      ¬ (c.vid.termReadFlag c.vid.currentTerminal = true ∧ scan.toNat < 54 ∧
        c.vid.cursorCell < 0) := by
  unfold Keyboard.typeScript
  rw [if_neg (Int.not_le.mpr hroom)]
  rcases hscan.other hk with hpast | hlt
  · have hnone : scancodeHelper k.capslockFlag k.capitalFlag scan = none := by
      unfold scancodeHelper
      rw [scanCodeOne_length, if_pos hpast]
    rw [hnone]
    refine iff_of_true (echoStores_present fun b hb => ?_) fun e => absurd e.2.1 (by omega)
    cases List.mem_singleton.mp hb
  · have hsome : scancodeHelper k.capslockFlag k.capitalFlag scan
        = some ((scancodeTable k.capslockFlag k.capitalFlag).getD scan.toNat 0) := by
      unfold scancodeHelper
      rw [scanCodeOne_length, if_neg (by omega)]
    have hglyph := Keyboard.scancodeHelper_printable hk hsome
    rw [hsome]
    refine (appendScript_present_iff h hglyph (fun e => e.elim (char_ne_newline _ _ hk)
      (char_ne_carriageReturn _ _ scan)) _).trans (not_congr ?_)
    exact ⟨fun e => ⟨e.1, hlt, e.2⟩, fun e => ⟨e.1, e.2.2⟩⟩

/-- The keys of a line fault exactly where they draw above the screen. -/
theorem keyFaults_iff (h : c.vid.Bounded) {scan : UInt8} (hscan : LineKey scan)
    (hctrl : c.kb.ctrlState = false) (hroom : c.kb.bufIdx < bufsize - 1) :
    c.KeyFaults scan ↔ c.DrawsAbove scan := by
  have hcli : c.cli.vid.Bounded := h
  have hset : ∀ k : Keyboard, ∀ b, Action.set k = .echo b → b = newline := by
    intro k b e
    cases e
  have hsti : ∀ b, Action.sti = .echo b → b = newline := by
    intro b e
    cases e
  -- A key without an echo, or with line breaks only.
  have hquiet : ∀ l : List Action, (∀ a ∈ l, ∀ b, a = .echo b → b = newline) →
      ∀ a ∈ c.cli.echoStores l, Video.Present a :=
    fun l hl => echoStores_present fun b hb => hl _ hb b rfl
  suffices hall : (∀ a ∈ putcStores (.key scan) c, Video.Present a) ↔ ¬ c.DrawsAbove scan by
    unfold KeyFaults
    rw [← not_iff_not, ← hall]
    push Not
    rfl
  rw [putcStores_key]
  unfold DrawsAbove Keyboard.script
  cases hk : keyOf scan with
  | enter =>
    refine iff_of_true (hquiet _ ?_) fun e => e.2
    exact Keyboard.enterScript_forall hset hsti (fun b e => (Action.echo.inj e).symm) _ _
  | backspace => exact backspaceScript_present_iff hcli c.kb
  | space => exact appendScript_present_iff hcli (by decide) (by decide) c.kb
  | tab => exact tabScript_present_iff hcli hroom
  | f u press =>
    cases press with
    | false =>
      refine iff_of_true (hquiet _ fun a ha => ?_) fun e => e.2
      rw [List.mem_singleton.mp ha]
      exact hsti
    | true => exact absurd hk (hscan.f u)
  | other =>
    dsimp only
    rw [if_neg (by rw [hctrl]; exact fun e => Bool.false_ne_true e.1)]
    exact typeScript_present_iff hcli hscan hk hroom
  | _ => exact iff_of_true (hquiet _ (Keyboard.setSti_forall hset hsti _)) fun e => e.2

end Console

/-! ## Runs on one displayed terminal -/

namespace Console

/-- What happens while one terminal stays displayed: keys, timer interrupts and
reads by the process of the scheduled terminal. -/
inductive Typing
  | key (scan : UInt8)
  | tick
  | read (nbytes : Int)
  | readDone (nbytes : Int)

/-- A key whose echo faults has no step: the fault handler's message faults again. -/
def typingStep (c : Console) : Typing → Option Console
  | .key scan => if c.KeyFaults scan then none else some (c.keyboardHandler scan)
  | .tick => some c.nextTerminal
  | .read nbytes => c.terminalReadBegin nbytes
  | .readDone nbytes => (c.terminalReadFinish nbytes).map Prod.fst

/-- The typist follows the keys, and a read takes the line committed. -/
def followed (_ : Console) (e : Typing) (_ : Console) (y : Typist) : Typist :=
  match e with
  | .key scan => y.press scan
  | .readDone _ => { y with committed := none }
  | _ => y

/-- The keys are those of a line, which stays short of the limit. -/
def ShortLine (s : Console × Typist) : Typing → Prop
  | .key scan => LineKey scan ∧ (s.2.editor.press scan).line.length ≤ 126
  | _ => True

def altRelease : UInt8 := 0xB8

/-- Terminal `t` displayed after the boot. -/
def displaying (mem : Bytes) (t : Term) : Console :=
  (booted mem).handled [altPush, fPush t, altRelease]

structure Follows (t : Term) (c : Console) (y : Typist) : Prop where
  desk : ∃ d : Desk, c.kb.Holds d ∧ d.Fits ∧ d.Tracks t y
  currTerm : c.kb.currTerm = t
  display : c.vid.currentTerminal = t
  flag : c.kb.enterFlag = Function.update (fun _ => false) t y.committed.isSome

variable {c : Console}

theorem LineKey.switches {scan : UInt8} (h : LineKey scan) (k : Keyboard) :
    switches scan k = none := by
  have hf := h.f
  unfold Console.switches
  cases hk : keyOf scan with
  | f u press =>
    cases press with
    | false => rfl
    | true => exact absurd hk (hf u)
  | _ => rfl

/-- The enter flag does not count for what the keyboard holds. -/
theorem holds_setEnterFlag {k : Keyboard} (h : k.Holds d) (enterFlag : Term → Bool) :
    ({ k with enterFlag } : Keyboard).Holds d :=
  { h with
    active := ⟨h.active.buffer, h.active.idx, h.active.termBuf⟩
    saved := fun t ht => ⟨(h.saved t ht).buffer, (h.saved t ht).idx, (h.saved t ht).termBuf⟩ }

theorem Follows.idx (h : Follows t c y) :
    Bytes.SameOn bufsize c.kb.keyboardBuf (Bytes.ofList y.editor.line) ∧
      c.kb.bufIdx = y.editor.line.length := by
  obtain ⟨d, hholds, -, htracks⟩ := h.desk
  have hline := htracks.line
  rw [← htracks.display] at hline
  rw [← hline]
  exact ⟨hholds.active.buffer, hholds.active.idx⟩

theorem Follows.key (h : Follows t c y) {scan : UInt8} (hscan : LineKey scan)
    (hshort : (y.editor.press scan).line.length ≤ 126) :
    Follows t (c.keyboardHandler scan) (y.press scan) := by
  obtain ⟨d, hholds, hfits, htracks⟩ := h.desk
  have hidx := h.idx.2
  have hlength := htracks.short
  have hroom : ¬ c.kb.Overruns scan := by
    rintro ⟨-, hfull⟩
    unfold bufsize at hfull
    omega
  have hkb : (c.keyboardHandler scan).kb = c.kb.press scan d.display := by
    rw [keyboardHandler_kb, h.display, htracks.display]
  obtain ⟨hflag, hcurr⟩ := Keyboard.press_flags hscan d.display c.kb
  refine ⟨⟨d.press scan, ?_, hfits.press scan, htracks.press hscan hshort⟩, ?_, ?_, ?_⟩
  · rw [hkb]
    exact hholds.press hfits hroom fun _ => h.currTerm.trans htracks.display.symm
  · rw [hkb, hcurr]
    exact h.currTerm
  · rw [← h.display]
    exact keyboardHandler_currentTerminal (LineKey.switches hscan c.kb)
  · rw [hkb, hflag, h.flag, htracks.display]
    unfold Typist.press
    by_cases hk : keyOf scan = .enter
    · rw [if_pos hk, if_pos hk, Function.update_idem]
      rfl
    · rw [if_neg hk, if_neg hk]

theorem typingStep_key {scan : UInt8} {c' : Console} (h : c.typingStep (.key scan) = some c') :
    ¬ c.KeyFaults scan ∧ c.keyboardHandler scan = c' := by
  dsimp only [typingStep] at h
  split at h
  · cases h
  · rename_i hfree
    exact ⟨hfree, Option.some.inj h⟩

theorem typingStep_of_not_keyFaults {scan : UInt8} (h : ¬ c.KeyFaults scan) :
    c.typingStep (.key scan) = some (c.keyboardHandler scan) := if_neg h

theorem typingStep_key_isSome (scan : UInt8) (c : Console) :
    (c.typingStep (.key scan)).isSome ↔ ¬ c.KeyFaults scan := by
  constructor
  · intro hsome
    obtain ⟨c', hstep⟩ := Option.isSome_iff_exists.mp hsome
    exact (typingStep_key hstep).1
  · intro hfree
    rw [typingStep_of_not_keyFaults hfree]
    rfl

theorem Follows.ctrlState (h : Follows t c y) : c.kb.ctrlState = false := by
  obtain ⟨d, hholds, -, htracks⟩ := h.desk
  exact hholds.ctrl.trans htracks.ctrl

theorem Follows.room (h : Follows t c y) : c.kb.bufIdx < bufsize - 1 := by
  obtain ⟨d, -, -, htracks⟩ := h.desk
  have hidx := h.idx.2
  have hshort := htracks.short
  unfold bufsize
  omega

/-- The cursors keep to their last column and row. -/
theorem typingStep_bounded (h : Follows t c y) (hb : c.vid.Bounded) {e : Typing} {c' : Console}
    (hstep : c.typingStep e = some c') : c'.vid.Bounded := by
  cases e with
  | key scan =>
    rw [← (typingStep_key hstep).2]
    refine keyboardHandler_bounded hb ?_
    rw [h.ctrlState]
    exact fun e => nomatch e.1
  | tick =>
    cases hstep
    exact act_bounded (a := .setPaging c.vid.currentTerminal)
      (c := { c with vid := { c.vid with scheduledTerm := c.vid.scheduledTerm + 1 } }) hb nofun
  | read nbytes =>
    have hread : c.terminalReadBegin nbytes = some c' := hstep
    unfold terminalReadBegin at hread
    split at hread
    · cases hread
    · cases hread
      exact hb
  | readDone nbytes =>
    have hread : (c.terminalReadFinish nbytes).map Prod.fst = some c' := hstep
    unfold terminalReadFinish at hread
    split at hread
    · cases hread
      exact hb
    · cases hread

theorem Follows.step (h : Follows t c y) {e : Typing} (he : ShortLine (c, y) e) {c' : Console}
    (hstep : c.typingStep e = some c') : Follows t c' (followed c e c' y) := by
  cases e with
  | key scan =>
    rw [← (typingStep_key hstep).2]
    exact h.key he.1 he.2
  | tick =>
    cases hstep
    exact ⟨h.desk, h.currTerm, (Video.setPagingScheduling_currentTerminal _ _).trans h.display,
      h.flag⟩
  | read nbytes =>
    have hread : c.terminalReadBegin nbytes = some c' := hstep
    unfold terminalReadBegin at hread
    split at hread
    · cases hread
    · cases hread
      exact ⟨h.desk, h.currTerm, h.display, h.flag⟩
  | readDone nbytes =>
    have hread : (c.terminalReadFinish nbytes).map Prod.fst = some c' := hstep
    unfold terminalReadFinish at hread
    split at hread
    · rename_i hready
      cases hread
      -- Only the flag of `t` can be set, so `t` is scheduled.
      have hsched : c.vid.scheduledTerm = t := by
        by_contra hne
        rw [h.flag, Function.update_of_ne hne] at hready
        exact absurd hready (by decide)
      obtain ⟨d, hholds, hfits, htracks⟩ := h.desk
      refine ⟨⟨d, holds_setEnterFlag hholds _, hfits, { htracks with committed := nofun }⟩,
        h.currTerm, h.display, ?_⟩
      show Function.update c.kb.enterFlag c.vid.scheduledTerm false = _
      rw [h.flag, hsched, Function.update_idem]
      rfl
    · cases hread

/-! ## The terminal displayed after the boot -/

theorem press_fPush (t u : Term) {k : Keyboard} (halt : k.altInfo = true) :
    k.press (fPush t) u = (k.pick t).changeLine := by
  unfold Keyboard.press Keyboard.choose
  rw [keyOf_fPush]
  dsimp only
  rw [if_pos halt, if_pos rfl]

/-- What Alt, a function key and the release of Alt keep: a desk with empty lines and
no line committed. -/
structure Idle (c : Console) (d : Desk) : Prop where
  holds : c.kb.Holds d
  fits : d.Fits
  display : c.vid.currentTerminal = d.display
  currTerm : c.kb.currTerm = d.display
  flag : c.kb.enterFlag = fun _ => false

theorem not_overruns {k : Keyboard} {scan : UInt8} (h : keyOf scan ≠ .enter)
    (h' : keyOf scan ≠ .space) : ¬ k.Overruns scan := fun hover => hover.1.elim h h'

theorem booted_idle (mem : Bytes) : Idle (booted mem) Desk.start :=
  ⟨booted_holds mem, fun _ => (by decide : (0 : Int) < bufsize), booted_currentTerminal mem, rfl,
    rfl⟩

theorem Idle.alt (h : Idle c d) {scan : UInt8} {press : Bool} (hk : keyOf scan = .alt press) :
    Idle (c.keyboardHandler scan) (d.press scan) := by
  have hnone : switches scan c.kb = none := by
    unfold switches
    rw [hk]
  have hkb : (c.keyboardHandler scan).kb = c.kb.press scan d.display := by
    rw [keyboardHandler_kb, h.display]
  have hpress : c.kb.press scan d.display = { c.kb with altInfo := press } := by
    unfold Keyboard.press
    rw [hk]
  have hdesk : (d.press scan).display = d.display := by
    unfold Desk.press
    rw [hk]
  have hholds := h.holds.press h.fits (not_overruns (by rw [hk]; exact nofun)
    (by rw [hk]; exact nofun)) (fun _ => h.currTerm)
  refine ⟨hkb ▸ hholds, h.fits.press scan, ?_, ?_, ?_⟩
  · rw [hdesk, ← h.display]
    exact keyboardHandler_currentTerminal hnone
  · rw [hkb, hpress, hdesk]
    exact h.currTerm
  · rw [hkb, hpress]
    exact h.flag

theorem Idle.switch (h : Idle c d) (halt : d.alt = true) (t : Term) :
    Idle (c.keyboardHandler (fPush t)) (d.press (fPush t)) := by
  have hk := keyOf_fPush t
  have halt' : c.kb.altInfo = true := h.holds.alt.trans halt
  have hsome : switches (fPush t) c.kb = some t := by
    unfold switches
    rw [hk]
    exact if_pos halt'
  have hkb : (c.keyboardHandler (fPush t)).kb = c.kb.press (fPush t) d.display := by
    rw [keyboardHandler_kb, h.display]
  have hdesk : (d.press (fPush t)).display = t := by
    unfold Desk.press
    rw [hk, halt]
    rfl
  have hholds := h.holds.press h.fits (not_overruns (by rw [hk]; exact nofun)
    (by rw [hk]; exact nofun)) (fun _ => h.currTerm)
  refine ⟨hkb ▸ hholds, h.fits.press _, ?_, ?_, ?_⟩
  · rw [hdesk]
    exact keyboardHandler_switch_currentTerminal hsome
  · rw [hkb, press_fPush t _ halt', hdesk]
    rfl
  · rw [hkb, press_fPush t _ halt']
    exact h.flag

/-- The desk after the switch to terminal `t`. -/
def deskDisplaying (t : Term) : Desk :=
  ((Desk.start.press altPush).press (fPush t)).press altRelease

theorem deskDisplaying_tracks (t : Term) : (deskDisplaying t).Tracks t Typist.start where
  display := by revert t; decide
  ctrl := by revert t; decide
  caps := by revert t; decide
  shift := by revert t; decide
  line := by revert t; decide
  short := by decide
  unbroken := by decide
  committed := nofun

theorem displaying_eq (mem : Bytes) (t : Term) : displaying mem t =
    (((booted mem).keyboardHandler altPush).keyboardHandler (fPush t)).keyboardHandler
      altRelease := by
  unfold displaying handled
  rw [List.foldl_cons, List.foldl_cons, List.foldl_cons, List.foldl_nil]

theorem displaying_follows (mem : Bytes) (t : Term) :
    Follows t (displaying mem t) Typist.start := by
  have halt := (booted_idle mem).alt (by decide : keyOf altPush = .alt true)
  have hswitch := halt.switch rfl t
  have hidle : Idle (displaying mem t) (deskDisplaying t) := by
    rw [displaying_eq]
    exact hswitch.alt (by decide : keyOf altRelease = .alt false)
  have htracks := deskDisplaying_tracks t
  refine ⟨⟨_, hidle.holds, hidle.fits, htracks⟩, hidle.currTerm.trans htracks.display,
    hidle.display.trans htracks.display, ?_⟩
  rw [hidle.flag]
  exact (Function.update_eq_self t (fun _ => false)).symm

/-! ## The round trip -/

/-- What a reader and the keyboard find while the typist's state is `y`. -/
structure RoundTrips (t : Term) (c : Console) (y : Typist) : Prop where
  pending : Bytes.SameOn bufsize c.kb.keyboardBuf (Bytes.ofList y.editor.line) ∧
    c.kb.bufIdx = y.editor.line.length
  /-- A read of the whole buffer returns the line that waits for it. -/
  reads : ∀ w nbytes, y.committed = some w → 128 ≤ nbytes → c.vid.scheduledTerm = t →
    ∃ c' stored, c.terminalReadFinish nbytes = some (c', stored, w.length + 1) ∧
      stored.take (w.length + 1) = w ++ [newline]
  /-- Where no line waits, the reader does. -/
  blocks : ∀ nbytes, y.committed = none → c.terminalReadFinish nbytes = none
  /-- Enter leaves an empty line. -/
  cleared : ∀ scan, keyOf scan = .enter →
    Bytes.SameOn bufsize (c.keyboardHandler scan).kb.keyboardBuf (Bytes.ofList []) ∧
      (c.keyboardHandler scan).kb.bufIdx = 0

theorem Follows.roundTrips (h : Follows t c y) : RoundTrips t c y := by
  obtain ⟨d, hholds, -, htracks⟩ := h.desk
  refine ⟨h.idx, fun w nbytes hw hn hsched => ?_, fun nbytes hnone => ?_, fun scan hk => ?_⟩
  · obtain ⟨hcommitted, hlen, hunbroken⟩ := htracks.committed w hw
    have hready : c.ReadReady := by
      unfold ReadReady
      rw [h.flag, hsched, Function.update_self, hw]
      rfl
    have hline : c.Committed w := by
      have hterm := hholds.active.termBuf
      rw [htracks.display, hcommitted] at hterm
      exact hterm
    obtain ⟨c', hread⟩ := terminalReadFinish_line hready hline hunbroken (by omega) hn
    refine ⟨c', _, hread, ?_⟩
    have hlength : w.length + 1 = (w ++ [newline]).length := by
      rw [List.length_append, List.length_singleton]
    have hsplit : w ++ newline :: List.replicate (127 - w.length) 0
        = (w ++ [newline]) ++ List.replicate (127 - w.length) 0 := by
      rw [List.append_assoc, List.singleton_append]
    rw [hsplit, hlength, List.take_left]
  · have hblocked : ¬ c.ReadReady := by
      unfold ReadReady
      rw [h.flag, hnone]
      show ¬ Function.update (fun _ => false) t false c.vid.scheduledTerm = true
      rw [Function.update_eq_self t (fun _ => false)]
      exact Bool.false_ne_true
    exact Option.not_isSome_iff_eq_none.mp
      fun hsome => hblocked ((terminalReadFinish_isSome nbytes c).mp hsome)
  · have hscan : LineKey scan := Or.inr (Or.inl (by rw [hk]; rfl))
    have hline : (y.editor.press scan).line = [] := by
      unfold Editor.press
      rw [hk]
    have hnext := (h.key hscan (by rw [hline]; exact Nat.zero_le _)).idx
    have hline' : (y.press scan).editor.line = [] := hline
    rw [hline'] at hnext
    exact hnext

theorem displaying_bounded (mem : Bytes) (t : Term) : (displaying mem t).vid.Bounded := by
  have hhandled : ∀ {c : Console} {scan : UInt8}, scan ≠ lPress → c.vid.Bounded →
      (c.keyboardHandler scan).vid.Bounded :=
    fun hl h => keyboardHandler_bounded h fun e => hl e.2
  rw [displaying_eq]
  refine hhandled (by decide) (hhandled ?_ (hhandled (by decide) (booted_inRange mem).bounded))
  revert t
  decide

/-- What a run of keys, timer interrupts and reads keeps. -/
theorem reaches_follows {mem : Bytes} {s : Console × Typist}
    (hrun : Reaches (observe typingStep followed) ShortLine
      (displaying mem t, Typist.start) s) : Follows t s.1 s.2 ∧ s.1.vid.Bounded := by
  refine hrun.invariant (I := fun s => Follows t s.1 s.2 ∧ s.1.vid.Bounded) ?_
    ⟨displaying_follows mem t, displaying_bounded mem t⟩
  intro s e s' hs he hstep
  obtain ⟨hnext, hnote⟩ := observe_eq_some.mp hstep
  rw [hnote]
  exact ⟨hs.1.step he hnext, typingStep_bounded hs.1 hs.2 hnext⟩

/-- In every run the next key of a line takes a step exactly when it does not draw above
the screen. -/
theorem typingStep_isSome_iff (h : Follows t c y) (hb : c.vid.Bounded) {scan : UInt8}
    (hscan : ShortLine (c, y) (.key scan)) :
    (c.typingStep (.key scan)).isSome ↔ ¬ c.DrawsAbove scan := by
  rw [typingStep_key_isSome, keyFaults_iff hb hscan.1 h.ctrlState h.room]

theorem Follows.typingStep_eq (h : Follows t c y) (hb : c.vid.Bounded) {scan : UInt8}
    (hscan : ShortLine (c, y) (.key scan)) (habove : ¬ c.DrawsAbove scan) :
    observe typingStep followed (c, y) (.key scan)
      = some (c.keyboardHandler scan, y.press scan) := by
  have hfree := (typingStep_key_isSome scan c).mp
    ((typingStep_isSome_iff h hb hscan).mpr habove)
  exact observe_eq_some.mpr ⟨typingStep_of_not_keyFaults hfree, rfl⟩

/-- Every line typed on a displayed terminal comes back to the reader, as long as no key
draws above the screen, and such a key is never handled. -/
theorem lines_round_trip (mem : Bytes) (t : Term) {s : Console × Typist}
    (hrun : Reaches (observe typingStep followed) ShortLine
      (displaying mem t, Typist.start) s) :
    RoundTrips t s.1 s.2 ∧ ∀ scan, ShortLine s (.key scan) →
      ((s.1.typingStep (.key scan)).isSome ↔ ¬ s.1.DrawsAbove scan) := by
  obtain ⟨hfollows, hbounded⟩ := reaches_follows hrun
  exact ⟨hfollows.roundTrips, fun scan hscan => typingStep_isSome_iff hfollows hbounded hscan⟩

/-! ## A letter typed at the origin -/

/-- Every cursor is in the first cell. -/
def Home (c : Console) : Prop := ∀ t, c.vid.termScreenx t = 0 ∧ c.vid.termScreeny t = 0

theorem Home.of_screenOf (h : Home c) {c' : Console}
    (hsame : ∀ t, c'.vid.screenOf t = c.vid.screenOf t) : Home c' := fun t =>
  ⟨(congrArg Screen.x (hsame t)).trans (h t).1, (congrArg Screen.y (hsame t)).trans (h t).2⟩

theorem Home.nextTerminal (h : Home c) : Home c.nextTerminal := by
  have hsched : Home { c with vid := { c.vid with scheduledTerm := c.vid.scheduledTerm + 1 } } := h
  exact hsched.of_screenOf fun t => Video.screenOf_setPagingScheduling _ t _

theorem Home.display (h : Home c) (prev t : Term) : Home (c.display prev t) := by
  have hpaged : Home { c with vid := c.vid.setPagingScheduling t } :=
    h.of_screenOf fun u => Video.screenOf_setPagingScheduling _ u _
  exact hpaged.of_screenOf fun u => Video.terminalChanging_screenOf t u _

theorem Home.clear (h : Home c) : Home c.clear := by
  intro t
  unfold Console.clear Video.clear Video.setCursor
  dsimp only
  by_cases ht : t = c.vid.currentTerminal
  · rw [ht, Function.update_self, Function.update_self]
    exact ⟨rfl, rfl⟩
  · rw [Function.update_of_ne ht, Function.update_of_ne ht]
    exact h t

theorem Home.startScreen (h : Home c) (t : Term) : Home (c.startScreen t) :=
  (h.display _ t).clear

theorem booted_home (mem : Bytes) : Home (booted mem) := by
  have hinit : Home (init mem) := by
    have hblank : Home { vid :=
        { mem
          pageTable := videoFrame
          videoPageTable := videoFrame
          termScreenx := fun _ => 0
          termScreeny := fun _ => 0
          currentTerminal := 0
          scheduledTerm := 0
          termReadFlag := fun _ => false
          keyboardPutCFlag := false
          interruptFlag := false }, kb := Keyboard.init } := fun _ => ⟨rfl, rfl⟩
    exact hblank.clear
  have hsecond := (hinit.nextTerminal.startScreen 1).nextTerminal
  exact (hsecond.startScreen 2).nextTerminal.display 2 0

/-- What every action but an echo and `clear_help` keeps. -/
theorem act_home {a : Action} (h : Home c) (ha : a.Harmless) (hecho : ∀ b, a ≠ .echo b) :
    Home (act a c) := by
  cases a with
  | echo b => exact absurd rfl (hecho b)
  | clearHelp => exact ha.elim
  | clear => exact h.clear
  | setPaging t => exact h.of_screenOf fun u => Video.screenOf_setPagingScheduling _ u _
  | changing t => exact h.of_screenOf fun u => Video.terminalChanging_screenOf t u _
  | _ => exact h

theorem Home.handled (h : Home c) {scan : UInt8}
    (hscan : ∀ a ∈ c.kb.script scan c.vid.currentTerminal, a.Harmless ∧ ∀ b, a ≠ .echo b) :
    Home (c.keyboardHandler scan) := by
  rw [keyboardHandler_eq]
  refine perform_invariant (I := Home) (fun p hp hd => ?_) h
  rcases List.mem_cons.mp (mem_calls_snd act hp) with ha | ha
  · rw [ha]
    exact act_home hd trivial nofun
  · exact act_home hd (hscan p.2 ha).1 (hscan p.2 ha).2

theorem displaying_home (mem : Bytes) (t : Term) : Home (displaying mem t) := by
  have halt : ∀ {c : Console} {scan : UInt8} {press : Bool}, keyOf scan = .alt press →
      Home c → Home (c.keyboardHandler scan) := by
    intro c scan press hk h
    refine h.handled ?_
    unfold Keyboard.script
    rw [hk]
    exact Keyboard.setSti_forall (P := fun a => a.Harmless ∧ ∀ b, a ≠ .echo b)
      (fun _ => ⟨trivial, nofun⟩) ⟨trivial, nofun⟩ _
  have hf : ∀ {c : Console}, Home c → Home (c.keyboardHandler (fPush t)) := by
    intro c h
    refine h.handled fun a ha => ?_
    unfold Keyboard.script at ha
    rw [keyOf_fPush] at ha
    refine ⟨Keyboard.fScript_harmless true t c.kb a ha, ?_⟩
    rintro b rfl
    simp only [Keyboard.fScript, if_true] at ha
    split at ha <;> simp at ha
  rw [displaying_eq]
  exact halt (by decide : keyOf altRelease = .alt false)
    (hf (halt (by decide : keyOf altPush = .alt true) (booted_home mem)))

theorem keyboardHandler_scheduledTerm (scan : UInt8) (c : Console) :
    (c.keyboardHandler scan).vid.scheduledTerm = c.vid.scheduledTerm := by
  rw [keyboardHandler_eq]
  refine perform_invariant (I := fun d : Console => d.vid.scheduledTerm = c.vid.scheduledTerm)
    (fun p _ hd => Eq.trans ?_ hd) rfl
  obtain ⟨d, a⟩ := p
  cases a with
  | echo b => exact Video.keyboardputc_scheduledTerm _ b d.vid
  | clear => exact congrArg Video.Selection.scheduledTerm (Video.clear_selection d.vid)
  | setPaging t => exact Video.setPagingScheduling_scheduledTerm t d.vid
  | changing t => exact Video.terminalChanging_scheduledTerm t d.vid
  | _ => rfl

theorem keyboardHandler_termReadFlag (scan : UInt8) (c : Console) :
    (c.keyboardHandler scan).vid.termReadFlag = c.vid.termReadFlag := by
  rw [keyboardHandler_eq]
  refine perform_invariant (I := fun d : Console => d.vid.termReadFlag = c.vid.termReadFlag)
    (fun p _ hd => Eq.trans ?_ hd) rfl
  obtain ⟨d, a⟩ := p
  cases a with
  | echo b => exact Video.keyboardputc_termReadFlag _ b d.vid
  | clear => exact congrArg Video.Selection.termReadFlag (Video.clear_selection d.vid)
  | setPaging t =>
    show (d.vid.setPagingScheduling t).termReadFlag = _
    unfold Video.setPagingScheduling
    split <;> rfl
  | changing t =>
    show (d.vid.terminalChanging t).termReadFlag = _
    unfold Video.terminalChanging
    split <;> rfl
  | _ => rfl

theorem displaying_scheduledTerm (mem : Bytes) (t : Term) :
    (displaying mem t).vid.scheduledTerm = 0 := by
  rw [displaying_eq, keyboardHandler_scheduledTerm, keyboardHandler_scheduledTerm,
    keyboardHandler_scheduledTerm, booted_scheduledTerm]

theorem Home.setReadFlag (h : Home c) (b : Bool) : Home (c.setReadFlag b) := h

/-- A reader waits on the first terminal, and nothing has been typed. -/
def waiting (mem : Bytes) : Console := (displaying mem 0).setReadFlag true

theorem reaches_waiting (mem : Bytes) : Reaches (observe typingStep followed) ShortLine
    (displaying mem 0, Typist.start) (waiting mem, Typist.start) :=
  Reaches.step .refl (e := .read 128) trivial rfl

/-- An empty line at the origin of a terminal that is being read. -/
theorem Home.ready (h : Home c) (hread : c.vid.termReadFlag c.vid.currentTerminal = true)
    (hbuffer : Bytes.SameOn bufsize c.kb.keyboardBuf (Bytes.ofList [])) (hidx : c.kb.bufIdx = 0) :
    c.Ready := by
  obtain ⟨hx, hy⟩ := h c.vid.currentTerminal
  refine ⟨hread, ⟨?_, ?_⟩, ?_, ?_, ?_⟩
  · show 0 ≤ c.vid.termScreenx c.vid.currentTerminal ∧
      c.vid.termScreenx c.vid.currentTerminal < numCols
    rw [hx]
    decide
  · show 0 ≤ c.vid.termScreeny c.vid.currentTerminal ∧
      c.vid.termScreeny c.vid.currentTerminal < numRows
    rw [hy]
    decide
  · rw [hx]
    exact fun e => absurd e.1 (by decide)
  · rw [hidx]
    decide
  · intro j h0 hj
    rw [hbuffer j h0 hj, hidx]
    exact iff_of_true (Bytes.ofList_of_le h0) h0

theorem waiting_home (mem : Bytes) : Home (waiting mem) := (displaying_home mem 0).setReadFlag true

theorem waiting_ready (mem : Bytes) : (waiting mem).Ready := by
  have hdisplayed : (displaying mem 0).vid.scheduledTerm
      = (displaying mem 0).vid.currentTerminal := by
    rw [displaying_scheduledTerm, (displaying_follows mem 0).display]
  obtain ⟨hbuffer, hidx⟩ := (reaches_follows (reaches_waiting mem)).1.idx
  exact (waiting_home mem).ready (setReadFlag_displayed hdisplayed) hbuffer hidx

theorem waiting_types (mem : Bytes) : (waiting mem).kb.Types 0x1E 0x61 := by
  obtain ⟨d, hholds, -, htracks⟩ := (reaches_follows (reaches_waiting mem)).1.desk
  have hctrl : (waiting mem).kb.ctrlState = false := hholds.ctrl.trans htracks.ctrl
  have hcaps : (waiting mem).kb.capslockFlag = false := hholds.caps.trans htracks.caps
  have hshift : (waiting mem).kb.capitalFlag = false := hholds.shift.trans htracks.shift
  refine Or.inr ⟨by decide, ?_, ?_⟩
  · rw [hctrl]
    exact fun e => nomatch e.1
  · rw [hcaps, hshift]
    decide

/-- A character typed at the origin. -/
theorem Home.typed (h : Home c) (hready : c.Ready) {scan b : UInt8} (hkey : c.kb.Types scan b)
    (hb : Graphic b) : (c.keyboardHandler scan).vid.cursorCell = 1 := by
  obtain ⟨hx, hy⟩ := h c.vid.currentTerminal
  obtain ⟨-, hback, hnewline, hreturn⟩ := hb.ne
  obtain ⟨log, htyped⟩ := keyboardHandler_types hkey hready.idx.2
  have hcursor : Video.nextColumn 0 = 1 ∧ Video.nextRow 0 0 = 0 := by decide
  have hecho := Video.keyboardputc_glyph (v := c.vid.cli) hready.reading c.kb.bufIdx
    ⟨hback, hnewline, hreturn⟩ (by
      show Video.nextRow (c.vid.termScreenx c.vid.currentTerminal)
        (c.vid.termScreeny c.vid.currentTerminal) < numRows
      rw [hx, hy]
      decide)
  rw [htyped, hecho]
  refine (Video.setCursor_cursorCell (v := { c.vid.cli with
    mem := _, keyboardPutCFlag := false, interruptFlag := true }) _ _).trans ?_
  show numCols * Video.nextRow (c.vid.termScreenx c.vid.currentTerminal)
      (c.vid.termScreeny c.vid.currentTerminal)
    + Video.nextColumn (c.vid.termScreenx c.vid.currentTerminal) = 1
  rw [hx, hy]
  rfl

theorem reaches_letter (mem : Bytes) : Reaches (observe typingStep followed) ShortLine
    (displaying mem 0, Typist.start)
    ((waiting mem).keyboardHandler 0x1E, Typist.start.press 0x1E) := by
  have hletter : ShortLine (waiting mem, Typist.start) (.key 0x1E) :=
    (by decide : LineKey 0x1E ∧ (Typist.start.editor.press 0x1E).line.length ≤ 126)
  obtain ⟨hfollows, hbounded⟩ := reaches_follows (reaches_waiting mem)
  refine (reaches_waiting mem).step (e := .key 0x1E) hletter
    (hfollows.typingStep_eq hbounded hletter fun habove => ?_)
  have hcell : (waiting mem).vid.cursorCell = 0 := by
    obtain ⟨hx, hy⟩ := waiting_home mem (waiting mem).vid.currentTerminal
    unfold Video.cursorCell
    rw [hx, hy]
    rfl
  have hneg : (waiting mem).vid.cursorCell < 0 := habove.2.2
  omega

/-- The letter and a backspace. -/
theorem reaches_erased (mem : Bytes) : Reaches (observe typingStep followed) ShortLine
    (displaying mem 0, Typist.start)
    ((waiting mem).typedErased 0x1E, (Typist.start.press 0x1E).press backspacePress) := by
  have hback : ShortLine ((waiting mem).keyboardHandler 0x1E, Typist.start.press 0x1E)
      (.key backspacePress) :=
    (by decide : LineKey backspacePress ∧
      ((Typist.start.press 0x1E).editor.press backspacePress).line.length ≤ 126)
  obtain ⟨hfollows, hbounded⟩ := reaches_follows (reaches_letter mem)
  refine (reaches_letter mem).step (e := .key backspacePress) hback
    (hfollows.typingStep_eq hbounded hback fun habove => ?_)
  have hcell := (waiting_home mem).typed (waiting_ready mem) (waiting_types mem) graphic_letter
  have hfirst : ((waiting mem).keyboardHandler 0x1E).vid.cursorCell ≤ 0 := habove.2.2.1
  omega

/-- The line `a` typed for a waiting reader, and committed. -/
theorem line_round_trip :
    RoundTrips 0 (((waiting (Bytes.ofList [])).keyboardHandler 0x1E).keyboardHandler 0x1C)
      { editor := Editor.start, committed := some [0x61] } := by
  have hletter := reaches_letter (Bytes.ofList [])
  obtain ⟨hfollows, hbounded⟩ := reaches_follows hletter
  exact (lines_round_trip (Bytes.ofList []) 0 (s := (_, _)) (hletter.step (e := .key 0x1C)
    ⟨by decide, by decide⟩ (hfollows.typingStep_eq hbounded ⟨by decide, by decide⟩
      fun e => e.2))).1

/-- The letter A typed and erased in the first cell, and then the letter B. -/
theorem line_faults_above : ¬ ∀ (mem : Bytes) (t : Term) (s : Console × Typist),
    Reaches (observe typingStep followed) ShortLine (displaying mem t, Typist.start) s →
      RoundTrips t s.1 s.2 ∧ ∀ scan, ShortLine s (.key scan) →
        (s.1.typingStep (.key scan)).isSome := by
  intro h
  have hrun := reaches_erased (Bytes.ofList [])
  obtain ⟨hfollows, hbounded⟩ := reaches_follows hrun
  have hscan : ShortLine ((waiting (Bytes.ofList [])).typedErased 0x1E,
      (Typist.start.press 0x1E).press backspacePress) (.key 0x30) :=
    (by decide : LineKey 0x30 ∧
      (((Typist.start.press 0x1E).press backspacePress).editor.press 0x30).line.length ≤ 126)
  have hstep := (h _ _ _ hrun).2 0x30 hscan
  refine (typingStep_isSome_iff hfollows hbounded hscan).mp hstep ?_
  -- The backspace left the displayed cursor in the first column of the row above.
  have hready := waiting_ready (Bytes.ofList [])
  have herased := typedErased_erased hready (waiting_types (Bytes.ofList [])) graphic_letter
  have hsame : ((waiting (Bytes.ofList [])).typedErased 0x1E).vid.currentTerminal
      = (waiting (Bytes.ofList [])).vid.currentTerminal :=
    hfollows.display.trans (reaches_follows (reaches_waiting (Bytes.ofList []))).1.display.symm
  obtain ⟨hx, hy⟩ := waiting_home (Bytes.ofList [])
    (waiting (Bytes.ofList [])).vid.currentTerminal
  have hidx : (waiting (Bytes.ofList [])).kb.bufIdx = 0 :=
    (reaches_follows (reaches_waiting (Bytes.ofList []))).1.idx.2
  have hcolumn := herased.column
  have hrow := herased.row
  rw [hx, if_neg (by decide), ← hsame] at hcolumn
  rw [hx, hy, if_pos ⟨rfl, hidx⟩, ← hsame] at hrow
  refine ⟨?_, by decide, ?_⟩
  · have hread := hready.reading
    rw [← hsame] at hread
    unfold typedErased at hread ⊢
    rw [keyboardHandler_termReadFlag, keyboardHandler_termReadFlag]
    exact hread
  · unfold Video.cursorCell
    rw [hcolumn, hrow]
    decide

end Console

end StudentDistrib
