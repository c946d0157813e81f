import StudentDistrib.Console.Terminal

/-!
# The keyboard state without the screen

Printing does not write the keyboard's globals, so `keyboard_handler` acts on them
as a function of the scancode, the displayed terminal and the globals themselves.
`Keyboard.press` is that function, and `keyboardHandler_kb` is the theorem that
relates it to the handler.  The results about lines are proved about `press`.
-/

namespace StudentDistrib

open Machine

namespace Keyboard

/-- A byte stored at the end of the line. -/
def append (b : UInt8) (k : Keyboard) : Keyboard :=
  { k.store k.bufIdx b with bufIdx := k.bufIdx + 1 }

/-- The line break that `buffer_clear` stores before it clears. -/
def markCleared (k : Keyboard) : Keyboard :=
  if k.keyboardFlags k.currTerm ≠ lPress then k.store k.bufIdx newline else k

/-- The line ended and copied into `term_buf`, for the reader of terminal `t`. -/
def commit (t : Term) (k : Keyboard) : Keyboard :=
  let k := { k with ctrlKey := 0 }.append newline
  { k with
    enterFlag := Function.update k.enterFlag t true
    termBuf := Bytes.copy bufsize k.keyboardBuf k.termBuf }

/-- Enter while terminal `t` is displayed. -/
def enter (t : Term) (k : Keyboard) : Keyboard := (k.commit t).markCleared.clearBuffers

def erase (k : Keyboard) : Keyboard :=
  if k.bufIdx > 0 then { k with bufIdx := k.bufIdx - 1 }.store (k.bufIdx - 1) 0 else k

/-- At most `n` spaces, none past the limit of the line. -/
def appendSpaces : Nat → Keyboard → Keyboard
  | 0, k => k
  | n + 1, k => if k.bufIdx ≥ bufsize - 1 then k else appendSpaces n (k.append space)

def type (scan : UInt8) (k : Keyboard) : Keyboard :=
  if k.bufIdx ≥ bufsize - 1 then k
  else
    match scancodeHelper k.capslockFlag k.capitalFlag scan with
    | none => k
    | some b => { k with tableLog := scan.toNat :: k.tableLog }.append b

/-- `recentTermChoice` moved on to `t`. -/
def pick (t : Term) (k : Keyboard) : Keyboard := { k with prevTerm := k.currTerm, currTerm := t }

/-- A function key, which switches the lines if Alt is held. -/
def choose (t : Term) (k : Keyboard) : Keyboard :=
  if k.altInfo then (k.pick t).changeLine else k.pick t

/-- The effect of a scancode while terminal `t` is displayed. -/
def press (scan : UInt8) (t : Term) (k : Keyboard) : Keyboard :=
  match keyOf scan with
  | .enter => k.enter t
  | .backspace => k.erase
  | .leftControl press => { k with ctrlState := press }
  | .space => k.append space
  | .tab => k.appendSpaces 4
  | .capslock => { k with capslockFlag := !k.capslockFlag }
  | .shift press => { k with capitalFlag := press }
  | .alt press => { k with altInfo := press }
  | .f u press => if press then k.choose u else k
  | .other =>
    if k.ctrlState = true ∧ scan = lPress then { k with ctrlKey := lPress } else k.type scan

end Keyboard

namespace Console

/-- The choice of terminals and who reads: what the handler leaves alone unless
it switches the display. -/
@[ext]
structure Terms where
  currentTerminal : Term
  scheduledTerm : Term
  termReadFlag : Term → Bool

def terms (c : Console) : Terms :=
  { currentTerminal := c.vid.currentTerminal
    scheduledTerm := c.vid.scheduledTerm
    termReadFlag := c.vid.termReadFlag }

theorem terms_eq {c c' : Console} (h : c.vid.selection = c'.vid.selection) :
    c.terms = c'.terms := by
  ext1
  · exact congrArg Video.Selection.currentTerminal h
  · exact congrArg Video.Selection.scheduledTerm h
  · exact congrArg Video.Selection.termReadFlag h

theorem keyboardputc_terms (b : UInt8) (c : Console) : (c.keyboardputc b).terms = c.terms := by
  unfold terms keyboardputc
  rw [Video.keyboardputc_currentTerminal, Video.keyboardputc_scheduledTerm,
    Video.keyboardputc_termReadFlag]

theorem sti_terms (c : Console) : c.sti.terms = c.terms := rfl

/-! ## The helpers -/

theorem spaceHelper_kb (c : Console) : c.spaceHelper.kb = c.kb.append space := rfl

theorem spaceHelper_terms (c : Console) : c.spaceHelper.terms = c.terms :=
  keyboardputc_terms _ _

theorem bufferClearTerm_kb (t : Term) (c : Console) :
    (c.bufferClearTerm t).kb = if c.kb.currTerm = t then c.kb.markCleared else c.kb := by
  unfold bufferClearTerm Keyboard.markCleared
  by_cases h : c.kb.currTerm = t
  · by_cases hf : c.kb.keyboardFlags t ≠ lPress
    · rw [if_pos ⟨hf, h⟩, if_pos h, h, if_pos hf]
      rfl
    · rw [if_neg (fun e => hf e.1), if_pos h, h, if_neg hf]
  · rw [if_neg (fun e => h e.2), if_neg h]

theorem bufferClearTerm_terms (t : Term) (c : Console) :
    (c.bufferClearTerm t).terms = c.terms := by
  unfold bufferClearTerm
  split
  · exact keyboardputc_terms _ _
  · rfl

theorem markCleared_currTerm (k : Keyboard) : k.markCleared.currTerm = k.currTerm := by
  unfold Keyboard.markCleared
  split <;> rfl

/-- Of the three tests of `buffer_clear` only that of the terminal last chosen
can hold. -/
theorem bufferClear_kb (c : Console) : c.bufferClear.kb = c.kb.markCleared.clearBuffers := by
  have hkb : (((c.bufferClearTerm 0).bufferClearTerm 1).bufferClearTerm 2).kb
      = c.kb.markCleared := by
    have hterms : ∀ t : Term, t = 0 ∨ t = 1 ∨ t = 2 := by decide
    rcases hterms c.kb.currTerm with h | h | h <;>
      simp [bufferClearTerm_kb, markCleared_currTerm, h]
  unfold bufferClear
  dsimp only
  rw [hkb]

theorem bufferClear_terms (c : Console) : c.bufferClear.terms = c.terms := by
  have hkb : ∀ (k : Keyboard) (c : Console), { c with kb := k }.terms = c.terms := fun _ _ => rfl
  unfold bufferClear
  dsimp only
  rw [hkb, bufferClearTerm_terms, bufferClearTerm_terms, bufferClearTerm_terms]

/-- The line break that `enter_helper` prints after a control key. -/
def enterEcho (c : Console) : Console :=
  if c.kb.ctrlKey = 1 then c.keyboardputc newline else c

theorem enterEcho_kb (c : Console) : c.enterEcho.kb = c.kb := by
  unfold enterEcho
  split <;> rfl

theorem enterEcho_terms (c : Console) : c.enterEcho.terms = c.terms := by
  unfold enterEcho
  split
  · exact keyboardputc_terms _ _
  · rfl

theorem enterHelper_eq (c : Console) :
    c.enterHelper =
      (((c.enterEcho.setCtrlKey 0).storeAtIdx newline).advance 1).commitLine.bufferClear.sti := rfl

theorem enterHelper_kb (c : Console) : c.enterHelper.kb = c.kb.enter c.vid.currentTerminal := by
  have hterm : c.enterEcho.vid.currentTerminal = c.vid.currentTerminal :=
    congrArg Terms.currentTerminal (enterEcho_terms c)
  rw [enterHelper_eq]
  unfold sti
  dsimp only
  rw [bufferClear_kb]
  unfold Keyboard.enter Keyboard.commit commitLine advance storeAtIdx setCtrlKey
  dsimp only
  rw [hterm, enterEcho_kb]
  rfl

theorem enterHelper_terms (c : Console) : c.enterHelper.terms = c.terms := by
  rw [enterHelper_eq, sti_terms, bufferClear_terms]
  exact enterEcho_terms c

theorem backspaceHelper_kb (c : Console) : c.backspaceHelper.kb = c.kb.erase := by
  unfold backspaceHelper Keyboard.erase
  split <;> rfl

theorem backspaceHelper_terms (c : Console) : c.backspaceHelper.terms = c.terms := by
  unfold backspaceHelper
  split
  · exact keyboardputc_terms _ _
  · rfl

theorem tabLoop_kb (n : Nat) (c : Console) : (c.tabLoop n).kb = c.kb.appendSpaces n := by
  induction n generalizing c with
  | zero => rfl
  | succ n ih =>
    rw [tabLoop, Keyboard.appendSpaces]
    split
    · rfl
    · rw [ih, spaceHelper_kb]

theorem tabLoop_terms (n : Nat) (c : Console) : (c.tabLoop n).terms = c.terms := by
  induction n generalizing c with
  | zero => rfl
  | succ n ih =>
    rw [tabLoop]
    split
    · rfl
    · rw [ih, spaceHelper_terms]

theorem typeKey_kb (scan : UInt8) (c : Console) : (c.typeKey scan).kb = c.kb.type scan := by
  unfold typeKey Keyboard.type
  by_cases hfull : c.kb.bufIdx ≥ bufsize - 1
  · rw [if_pos hfull, if_pos hfull]
    rfl
  · rw [if_neg hfull, if_neg hfull]
    cases scancodeHelper c.kb.capslockFlag c.kb.capitalFlag scan <;> rfl

theorem typeKey_terms (scan : UInt8) (c : Console) : (c.typeKey scan).terms = c.terms := by
  unfold typeKey
  split
  · rfl
  · split
    · rfl
    · exact keyboardputc_terms _ _

theorem echoLine_kb (l : List Nat) (c : Console) : (c.echoLine l).kb = c.kb := by
  induction l generalizing c with
  | nil => rfl
  | cons i l ih =>
    rw [echoLine, List.foldl_cons]
    split
    · exact ih (c.keyboardputc (c.kb.keyboardBuf i))
    · exact ih c

theorem echoLine_terms (l : List Nat) (c : Console) : (c.echoLine l).terms = c.terms := by
  induction l generalizing c with
  | nil => rfl
  | cons i l ih =>
    rw [echoLine, List.foldl_cons]
    split
    · exact (ih (c.keyboardputc (c.kb.keyboardBuf i))).trans (keyboardputc_terms _ _)
    · exact ih c

theorem clear_kb (c : Console) : c.clear.kb = c.kb := by
  unfold clear
  dsimp only

theorem clear_terms (c : Console) : c.clear.terms = c.terms := by
  have hclear := Video.clear_selection c.vid
  unfold clear
  generalize c.vid.clear = v at hclear ⊢
  exact terms_eq hclear

theorem clearScreen_kb (c : Console) : c.clearScreen.kb = { c.kb with ctrlKey := lPress } := by
  have hecho : (c.clear.echoLine (List.range 128)).kb = c.kb := by
    rw [echoLine_kb, clear_kb]
  unfold clearScreen sti setCtrlKey clearHelp
  dsimp only
  rw [hecho]

theorem clearScreen_terms (c : Console) : c.clearScreen.terms = c.terms := by
  unfold clearScreen
  rw [sti_terms, ← clear_terms c, ← echoLine_terms (List.range 128) c.clear]
  generalize c.clear.echoLine (List.range 128) = c'
  rfl

theorem fHelper_press (t : Term) (c : Console) :
    c.fHelper true t =
      if c.kb.altInfo then (c.chooseTerm t).terminalChangingHandler.sti
      else (c.chooseTerm t).sti := rfl

theorem fHelper_kb (press : Bool) (t : Term) (c : Console) :
    (c.fHelper press t).kb = if press then c.kb.choose t else c.kb := by
  cases press with
  | false => rfl
  | true =>
    rw [fHelper_press, if_pos rfl]
    unfold Keyboard.choose
    split <;> rfl

/-! ## The handler -/

theorem keyboardHandler_kb (scan : UInt8) (c : Console) :
    (c.keyboardHandler scan).kb = c.kb.press scan c.vid.currentTerminal := by
  unfold keyboardHandler Keyboard.press
  cases keyOf scan with
  | enter => exact enterHelper_kb c.cli
  | backspace => exact backspaceHelper_kb c.cli
  | leftControl press => rfl
  | space => rfl
  | tab => exact tabLoop_kb 4 c.cli
  | capslock => rfl
  | shift press => rfl
  | alt press => rfl
  | f t press => exact fHelper_kb press t c.cli
  | other =>
    dsimp only
    split
    · rw [if_pos ‹_›]
      exact clearScreen_kb c.cli
    · rw [if_neg ‹_›]
      exact typeKey_kb scan c.cli

/-- The scancode switches the display: a function key while Alt is held. -/
def switches (scan : UInt8) (k : Keyboard) : Option Term :=
  match keyOf scan with
  | .f t true => if k.altInfo then some t else none
  | _ => none

/-- A scancode that is no switch leaves the terminals as they are. -/
theorem keyboardHandler_terms {scan : UInt8} {c : Console} (h : switches scan c.kb = none) :
    (c.keyboardHandler scan).terms = c.terms := by
  unfold switches at h
  unfold keyboardHandler
  cases hk : keyOf scan with
  | enter => exact enterHelper_terms c.cli
  | backspace => exact backspaceHelper_terms c.cli
  | leftControl press => rfl
  | space => exact spaceHelper_terms c.cli
  | tab => exact tabLoop_terms 4 c.cli
  | capslock => rfl
  | shift press => rfl
  | alt press => rfl
  | f t press =>
    rw [hk] at h
    cases press with
    | false => rfl
    | true =>
      have halt : ¬ c.cli.kb.altInfo = true := fun e : c.kb.altInfo = true => by simp [e] at h
      dsimp only
      rw [fHelper_press, if_neg halt]
      rfl
  | other =>
    dsimp only
    split
    · exact clearScreen_terms c.cli
    · exact typeKey_terms scan c.cli

theorem keyboardHandler_currentTerminal {scan : UInt8} {c : Console}
    (h : switches scan c.kb = none) :
    (c.keyboardHandler scan).vid.currentTerminal = c.vid.currentTerminal :=
  congrArg Terms.currentTerminal (keyboardHandler_terms h)

/-- A switch displays the terminal it names. -/
theorem keyboardHandler_switch {scan : UInt8} {c : Console} {t : Term}
    (h : switches scan c.kb = some t) :
    (c.keyboardHandler scan).vid = ((c.vid.cli.setPagingScheduling t).terminalChanging t).sti ∧
      (c.keyboardHandler scan).kb
        = (c.kb.pick t).changeLine := by
  unfold switches at h
  unfold keyboardHandler
  cases hk : keyOf scan with
  | f u press =>
    rw [hk] at h
    cases press with
    | false => simp at h
    | true =>
      by_cases halt : c.kb.altInfo = true
      · have hu : u = t := by simpa [halt] using h
        have halt' : c.cli.kb.altInfo = true := halt
        subst hu
        dsimp only
        rw [fHelper_press, if_pos halt']
        exact ⟨rfl, rfl⟩
      · simp [halt] at h
  | _ => simp [hk] at h

theorem keyboardHandler_switch_terms {scan : UInt8} {c : Console} {t : Term}
    (h : switches scan c.kb = some t) :
    (c.keyboardHandler scan).terms = { c.terms with currentTerminal := t } := by
  unfold terms
  rw [(keyboardHandler_switch h).1]
  show Terms.mk _ _ _ = _
  congr 1
  · exact Video.terminalChanging_currentTerminal _ _
  · show (Video.terminalChanging _ _).scheduledTerm = _
    rw [Video.terminalChanging_scheduledTerm, Video.setPagingScheduling_scheduledTerm]
    rfl
  · show (Video.terminalChanging _ _).termReadFlag = _
    unfold Video.terminalChanging Video.setPagingScheduling
    split <;> split <;> rfl

theorem keyboardHandler_switch_currentTerminal {scan : UInt8} {c : Console} {t : Term}
    (h : switches scan c.kb = some t) : (c.keyboardHandler scan).vid.currentTerminal = t :=
  congrArg Terms.currentTerminal (keyboardHandler_switch_terms h)

theorem keyOf_fPush (t : Term) : keyOf (fPush t) = .f t true := by
  revert t
  decide

/-- Alt and the function key of a terminal display it. -/
theorem switches_of_alt {t : Term} {c c₁ : Console} (h₁ : c.keyboardHandler altPush = c₁) :
    switches (fPush t) c₁.kb = some t := by
  have hinfo : c₁.kb.altInfo = true := by
    rw [← h₁, keyboardHandler_kb]
    rfl
  unfold switches
  rw [keyOf_fPush]
  exact if_pos hinfo

theorem terms_of_keys {t : Term} {c c₁ c₂ : Console} (h₁ : c.keyboardHandler altPush = c₁)
    (h₂ : c₁.keyboardHandler (fPush t) = c₂) :
    c₂.terms = { c.terms with currentTerminal := t } := by
  have hterms₁ : c₁.terms = c.terms := h₁ ▸ keyboardHandler_terms rfl
  rw [← h₂, keyboardHandler_switch_terms (switches_of_alt h₁), hterms₁]

end Console

end StudentDistrib
