import StudentDistrib.Console.Press
import StudentDistrib.Machine.Actions

/-!
# The keyboard handler as a sequence of actions

Which actions `keyboard_handler` takes follows from the scancode, the keyboard's
globals and the displayed terminal before it starts, since nothing that it draws is
read back.  `script` lists them, and `keyboardHandler_eq` is the theorem that the
handler carries them out.
-/

namespace StudentDistrib

open Machine

/-- The steps that `keyboard_handler` and its helpers consist of. -/
inductive Action
  /-- Assignments to the keyboard's globals. -/
  | set (k : Keyboard)
  | echo (b : UInt8)
  | clear
  | clearHelp
  | setPaging (t : Term)
  | changing (t : Term)
  | cli
  | sti

namespace Keyboard

/-- A byte stored at the end of the line and echoed. -/
def appendScript (b : UInt8) (k : Keyboard) : List Action :=
  [.set (k.store k.bufIdx b), .echo b, .set (k.append b), .sti]

/-- The line break that `buffer_clear` stores and echoes. -/
def markScript (k : Keyboard) : List Action :=
  if k.keyboardFlags k.currTerm ≠ lPress then [.set (k.store k.bufIdx newline), .echo newline]
  else []

def enterScript (t : Term) (k : Keyboard) : List Action :=
  (if k.ctrlKey = 1 then [.echo newline] else []) ++ .set (k.commit t) ::
    ((k.commit t).markScript ++ [.set (k.enter t), .sti])

def backspaceScript (k : Keyboard) : List Action :=
  if k.bufIdx > 0 then
    [.set { k with bufIdx := k.bufIdx - 1 }, .echo backspaceAscii, .set k.erase, .sti]
  else [.sti]

def tabScript : Nat → Keyboard → List Action
  | 0, _ => [.sti]
  | n + 1, k =>
    if k.bufIdx ≥ bufsize - 1 then [.sti]
    else k.appendScript space ++ tabScript n (k.append space)

def fScript (press : Bool) (t : Term) (k : Keyboard) : List Action :=
  if press then
    if k.altInfo then
      [.set (k.pick t), .setPaging t, .changing t, .set (k.pick t).changeLine, .sti]
    else [.set (k.pick t), .sti]
  else [.sti]

/-- The bytes of the line that Control and L print again. -/
def echoScript (l : List Nat) (k : Keyboard) : List Action :=
  (l.filter fun (i : Nat) => k.keyboardBuf i ≠ 0).map fun (i : Nat) => .echo (k.keyboardBuf i)

def clearScript (k : Keyboard) : List Action :=
  .clear :: (k.echoScript (List.range 128) ++
    [.clearHelp, .set { k with ctrlKey := lPress }, .sti])

def typeScript (scan : UInt8) (k : Keyboard) : List Action :=
  if k.bufIdx ≥ bufsize - 1 then [.sti]
  else
    match scancodeHelper k.capslockFlag k.capitalFlag scan with
    | none => [.sti]
    | some b => { k with tableLog := scan.toNat :: k.tableLog }.appendScript b

/-- What the handler does with a scancode while terminal `t` is displayed. -/
def script (scan : UInt8) (t : Term) (k : Keyboard) : List Action :=
  match keyOf scan with
  | .enter => k.enterScript t
  | .backspace => k.backspaceScript
  | .leftControl press => [.set { k with ctrlState := press }, .sti]
  | .space => k.appendScript space
  | .tab => k.tabScript 4
  | .capslock => [.set { k with capslockFlag := !k.capslockFlag }, .sti]
  | .shift press => [.set { k with capitalFlag := press }, .sti]
  | .alt press => [.set { k with altInfo := press }, .sti]
  | .f u press => k.fScript press u
  | .other => if k.ctrlState = true ∧ scan = lPress then k.clearScript else k.typeScript scan

/-! What holds of assignments, of `sti` and of the bytes echoed holds of every action
of the keys that edit the line. -/

section

variable {P : Action → Prop} (hset : ∀ k, P (.set k)) (hsti : P .sti)

include hset hsti

theorem setSti_forall (k : Keyboard) : ∀ a ∈ [Action.set k, .sti], P a := by
  intro a ha
  simp only [List.mem_cons, List.not_mem_nil, or_false] at ha
  rcases ha with rfl | rfl
  · exact hset k
  · exact hsti

theorem appendScript_forall {b : UInt8} (hecho : P (.echo b)) (k : Keyboard) :
    ∀ a ∈ k.appendScript b, P a := by
  intro a ha
  simp only [appendScript, List.mem_cons, List.not_mem_nil, or_false] at ha
  rcases ha with rfl | rfl | rfl | rfl
  · exact hset _
  · exact hecho
  · exact hset _
  · exact hsti

theorem tabScript_forall (hecho : P (.echo space)) (n : Nat) (k : Keyboard) :
    ∀ a ∈ k.tabScript n, P a := by
  induction n generalizing k with
  | zero =>
    intro a ha
    rw [List.mem_singleton.mp ha]
    exact hsti
  | succ n ih =>
    intro a ha
    rw [tabScript] at ha
    split at ha
    · rw [List.mem_singleton.mp ha]
      exact hsti
    · rcases List.mem_append.mp ha with ha | ha
      · exact appendScript_forall hset hsti hecho k a ha
      · exact ih _ a ha

theorem enterScript_forall (hecho : P (.echo newline)) (t : Term) (k : Keyboard) :
    ∀ a ∈ k.enterScript t, P a := by
  intro a ha
  unfold enterScript at ha
  rcases List.mem_append.mp ha with ha | ha
  · split at ha
    · rw [List.mem_singleton.mp ha]
      exact hecho
    · cases ha
  · rcases List.mem_cons.mp ha with rfl | ha
    · exact hset _
    · rcases List.mem_append.mp ha with ha | ha
      · unfold markScript at ha
        split at ha
        · simp only [List.mem_cons, List.not_mem_nil, or_false] at ha
          rcases ha with rfl | rfl
          · exact hset _
          · exact hecho
        · cases ha
      · exact setSti_forall hset hsti _ a ha

theorem typeScript_forall (scan : UInt8) (k : Keyboard)
    (hecho : ∀ b, scancodeHelper k.capslockFlag k.capitalFlag scan = some b → P (.echo b)) :
    ∀ a ∈ k.typeScript scan, P a := by
  unfold typeScript
  split
  · intro a ha
    rw [List.mem_singleton.mp ha]
    exact hsti
  · cases hb : scancodeHelper k.capslockFlag k.capitalFlag scan with
    | none =>
      intro a ha
      rw [List.mem_singleton.mp ha]
      exact hsti
    | some b => exact appendScript_forall hset hsti (hecho b hb) _

end

theorem echoScript_echo {l : List Nat} {k : Keyboard} {a : Action} (ha : a ∈ k.echoScript l) :
    ∃ i ∈ l, k.keyboardBuf (i : Nat) ≠ 0 ∧ a = .echo (k.keyboardBuf (i : Nat)) := by
  obtain ⟨i, hi, rfl⟩ := List.mem_map.mp ha
  obtain ⟨hmem, hne⟩ := List.mem_filter.mp hi
  exact ⟨i, hmem, of_decide_eq_true hne, rfl⟩

end Keyboard

namespace Console

def act : Action → Console → Console
  | .set k, c => { c with kb := k }
  | .echo b, c => c.keyboardputc b
  | .clear, c => c.clear
  | .clearHelp, c => c.clearHelp
  | .setPaging t, c => { c with vid := c.vid.setPagingScheduling t }
  | .changing t, c => { c with vid := c.vid.terminalChanging t }
  | .cli, c => c.cli
  | .sti, c => c.sti

/-! ## The helpers -/

/-- The path of `space_helper`, whichever byte it stores. -/
theorem append_eq (b : UInt8) (c : Console) :
    ((c.storeAtIdx b).echoAtIdx.advance 1).sti = perform act (c.kb.appendScript b) c := by
  have hread : (c.storeAtIdx b).kb.keyboardBuf (c.storeAtIdx b).kb.bufIdx = b :=
    Function.update_self _ _ _
  unfold echoAtIdx
  rw [hread]
  rfl

theorem spaceHelper_eq (c : Console) : c.spaceHelper = perform act (c.kb.appendScript space) c :=
  append_eq space c

theorem bufferClearTerm_eq {t : Term} {c : Console} (h : c.kb.currTerm = t) :
    c.bufferClearTerm t = perform act c.kb.markScript c := by
  unfold bufferClearTerm Keyboard.markScript
  rw [h]
  by_cases hf : c.kb.keyboardFlags t ≠ lPress
  · rw [if_pos ⟨hf, rfl⟩, if_pos hf]
    rfl
  · rw [if_neg fun e => hf e.1, if_neg hf]
    rfl

theorem bufferClearTerm_of_ne {t : Term} {c : Console} (h : c.kb.currTerm ≠ t) :
    c.bufferClearTerm t = c := if_neg fun e => h e.2

theorem bufferClearTerm_currTerm (t : Term) (c : Console) :
    (c.bufferClearTerm t).kb.currTerm = c.kb.currTerm := by
  rw [bufferClearTerm_kb]
  split
  · exact markCleared_currTerm c.kb
  · rfl

theorem bufferClear_eq (c : Console) : c.bufferClear
    = perform act (c.kb.markScript ++ [.set c.kb.markCleared.clearBuffers]) c := by
  have htests : ((c.bufferClearTerm 0).bufferClearTerm 1).bufferClearTerm 2
      = perform act c.kb.markScript c := by
    have hterms : ∀ t : Term, t = 0 ∨ t = 1 ∨ t = 2 := by decide
    rcases hterms c.kb.currTerm with h | h | h
    · have h0 := (bufferClearTerm_currTerm 0 c).trans h
      rw [bufferClearTerm_of_ne (t := 1) (by rw [h0]; decide),
        bufferClearTerm_of_ne (by rw [h0]; decide), bufferClearTerm_eq h]
    · have h1 := (bufferClearTerm_currTerm 1 c).trans h
      rw [bufferClearTerm_of_ne (t := 0) (by rw [h]; decide),
        bufferClearTerm_of_ne (by rw [h1]; decide), bufferClearTerm_eq h]
    · rw [bufferClearTerm_of_ne (t := 0) (by rw [h]; decide),
        bufferClearTerm_of_ne (t := 1) (by rw [h]; decide), bufferClearTerm_eq h]
  have hkb := bufferClear_kb c
  rw [perform_append, ← htests, ← hkb]
  rfl

theorem enterHelper_script (c : Console) :
    c.enterHelper = perform act (c.kb.enterScript c.vid.currentTerminal) c := by
  have hecho : c.enterEcho = perform act (if c.kb.ctrlKey = 1 then [.echo newline] else []) c := by
    unfold enterEcho
    split <;> rfl
  have hterm : c.enterEcho.vid.currentTerminal = c.vid.currentTerminal :=
    congrArg Terms.currentTerminal (enterEcho_terms c)
  have hcommit : (((c.enterEcho.setCtrlKey 0).storeAtIdx newline).advance 1).commitLine
      = { c.enterEcho with kb := c.kb.commit c.vid.currentTerminal } := by
    unfold Keyboard.commit commitLine advance storeAtIdx setCtrlKey
    dsimp only
    rw [hterm, enterEcho_kb]
    rfl
  have hscript : perform act (c.kb.enterScript c.vid.currentTerminal) c
      = perform act ((c.kb.commit c.vid.currentTerminal).markScript ++
          [.set (c.kb.enter c.vid.currentTerminal), .sti])
        { c.enterEcho with kb := c.kb.commit c.vid.currentTerminal } := by
    unfold Keyboard.enterScript
    rw [perform_append, ← hecho]
    rfl
  rw [enterHelper_eq, hcommit, hscript, bufferClear_eq, perform_append, perform_append]
  rfl

theorem tabLoop_script (n : Nat) (c : Console) :
    c.tabLoop n = perform act (c.kb.tabScript n) c := by
  induction n generalizing c with
  | zero => rfl
  | succ n ih =>
    rw [tabLoop, Keyboard.tabScript]
    split
    · rfl
    · rw [ih, spaceHelper_kb, perform_append, ← spaceHelper_eq]

theorem echoLine_script (l : List Nat) (c : Console) :
    c.echoLine l = perform act (c.kb.echoScript l) c := by
  induction l generalizing c with
  | nil => rfl
  | cons i l ih =>
    have hcons : c.echoLine (i :: l) = (if c.kb.keyboardBuf i ≠ 0 then
        c.keyboardputc (c.kb.keyboardBuf i) else c).echoLine l := rfl
    rw [hcons]
    unfold Keyboard.echoScript
    by_cases hi : c.kb.keyboardBuf i ≠ 0
    · rw [if_pos hi, List.filter_cons, if_pos (decide_eq_true hi), List.map_cons, ih]
      rfl
    · rw [if_neg hi, List.filter_cons, if_neg (by simpa using hi), ih]
      rfl

theorem clearScreen_script (c : Console) : c.clearScreen = perform act c.kb.clearScript c := by
  have hkb : (c.clear.echoLine (List.range 128)).kb = c.kb := by
    rw [echoLine_kb, clear_kb]
  have hecho := echoLine_script (List.range 128) c.clear
  rw [clear_kb] at hecho
  unfold clearScreen Keyboard.clearScript
  rw [perform, perform_append]
  show _ = perform act _ (perform act _ c.clear)
  rw [← hecho]
  generalize c.clear.echoLine (List.range 128) = c' at hkb ⊢
  rw [← hkb]
  rfl

theorem typeKey_script (scan : UInt8) (c : Console) :
    c.typeKey scan = perform act (c.kb.typeScript scan) c := by
  unfold typeKey Keyboard.typeScript
  by_cases hfull : c.kb.bufIdx ≥ bufsize - 1
  · rw [if_pos hfull, if_pos hfull]
    rfl
  · rw [if_neg hfull, if_neg hfull]
    cases scancodeHelper c.kb.capslockFlag c.kb.capitalFlag scan with
    | none => rfl
    | some b => exact append_eq b { c with kb := { c.kb with
        tableLog := scan.toNat :: c.kb.tableLog } }

theorem fHelper_script (press : Bool) (t : Term) (c : Console) :
    c.fHelper press t = perform act (c.kb.fScript press t) c := by
  cases press with
  | false => rfl
  | true =>
    rw [fHelper_press]
    unfold Keyboard.fScript
    rw [if_pos rfl]
    split <;> rfl

/-! ## The handler -/

theorem keyboardHandler_eq (scan : UInt8) (c : Console) :
    c.keyboardHandler scan
      = perform act (.cli :: c.kb.script scan c.vid.currentTerminal) c := by
  show _ = perform act (c.cli.kb.script scan c.cli.vid.currentTerminal) c.cli
  unfold keyboardHandler Keyboard.script
  cases keyOf scan with
  | enter => exact enterHelper_script c.cli
  | backspace =>
    dsimp only
    unfold backspaceHelper Keyboard.backspaceScript
    split
    · rename_i hpos
      unfold Keyboard.erase
      rw [if_pos hpos]
      rfl
    · rfl
  | leftControl press => rfl
  | space => exact spaceHelper_eq c.cli
  | tab => exact tabLoop_script 4 c.cli
  | capslock => rfl
  | shift press => rfl
  | alt press => rfl
  | f t press => exact fHelper_script press t c.cli
  | other =>
    dsimp only
    split
    · exact clearScreen_script c.cli
    · exact typeKey_script scan c.cli

end Console

/-! ## Runs of the console -/

inductive ConsoleStep
  | key (scan : UInt8)
  /-- A character that the process of the scheduled terminal prints. -/
  | write (b : UInt8)
  | tick
  /-- `terminal_read` of the scheduled process starts or ends. -/
  | reading (on : Bool)

namespace Console

def consoleStep : ConsoleStep → Console → Console
  | .key scan, c => c.keyboardHandler scan
  | .write b, c => { c with vid := c.vid.putc c.kb.bufIdx b }
  | .tick, c => c.nextTerminal
  | .reading on, c => c.setReadFlag on

/-- `terminal_write` prints the characters other than null bytes. -/
theorem terminalWrite_eq {buf : List UInt8} (hbuf : buf ≠ []) (c : Console) :
    (c.terminalWrite buf).1
      = perform consoleStep ((buf.filter (· ≠ 0)).map ConsoleStep.write) c := by
  unfold terminalWrite
  rw [if_neg hbuf]
  dsimp only
  induction buf.filter (· ≠ 0) generalizing c with
  | nil => rfl
  | cons b l ih => exact ih { c with vid := c.vid.putc c.kb.bufIdx b }

end Console

end StudentDistrib
