import StudentDistrib.Console.Video

/-!
# The keyboard driver

The globals of `keyboard.c`, with those of `terminal.c` that it writes, and
`keyboard_handler` with its helpers.  A handler runs with interrupts disabled and
ends with `send_eoi`, which only writes to the interrupt controller's ports.

`storeLog` and `tableLog` record the index of every store into `keyboard_buf` and
of every read of a scancode table.  Nothing reads them.
-/

namespace StudentDistrib

open Machine

/-- The fields of `terminal_info_t` that a switch saves and restores. -/
structure TerminalInfo where
  bufIdx : Int
  termBuf : Bytes

structure Keyboard where
  keyboardBuf : Bytes
  /-- `keyboard_buf1`, `keyboard_buf2` and `keyboard_buf3`. -/
  keyboardBufs : Term → Bytes
  bufIdx : Int
  /-- `ctrl_info[CTRL_STATE]`. -/
  ctrlState : Bool
  /-- `ctrl_info[KEY_PRESS]`. -/
  ctrlKey : UInt8
  capslockFlag : Bool
  capitalFlag : Bool
  altInfo : Bool
  /-- `recentTermChoice[PREV_TERM]`. -/
  prevTerm : Term
  /-- `recentTermChoice[CURR_TERM]`. -/
  currTerm : Term
  /-- `keyboard_flags[t].ctrl_info[KEY_PRESS]`. -/
  keyboardFlags : Term → UInt8
  enterFlag : Term → Bool
  termBuf : Bytes
  /-- `terminal_switch_array`. -/
  switchArray : Term → TerminalInfo
  storeLog : List Int
  tableLog : List Nat

/-- The state behind the keyboard and the screen. -/
structure Console where
  vid : Video
  kb : Keyboard

/-! ## Scancodes -/

def lPress : UInt8 := 0x26

/-- The cases of the switch in `keyboard_handler`. -/
inductive Key
  | enter
  | backspace
  | leftControl (press : Bool)
  | space
  | tab
  | capslock
  | shift (press : Bool)
  | alt (press : Bool)
  | f (t : Term) (press : Bool)
  | other
  deriving DecidableEq, Repr

/-- The constants of `keyboard.h`. -/
def keyOf (scan : UInt8) : Key :=
  if scan = 0x1C then .enter
  else if scan = 0x0E then .backspace
  else if scan = 0x1D then .leftControl true
  else if scan = 0x9D then .leftControl false
  else if scan = 0x39 then .space
  else if scan = 0x0F then .tab
  else if scan = 0x3A then .capslock
  else if scan = 0x2A then .shift true
  else if scan = 0xAA then .shift false
  else if scan = 0x36 then .shift true
  else if scan = 0xB6 then .shift false
  else if scan = 0x38 then .alt true
  else if scan = 0xB8 then .alt false
  else if scan = 0x3B then .f 0 true
  else if scan = 0xBB then .f 0 false
  else if scan = 0x3C then .f 1 true
  else if scan = 0xBC then .f 1 false
  else if scan = 0x3D then .f 2 true
  else if scan = 0xBD then .f 2 false
  else .other

def enterPress : UInt8 := 0x1C
def spacePush : UInt8 := 0x39
def altPush : UInt8 := 0x38

/-- `F1_PUSH`, `F2_PUSH` and `F3_PUSH`. -/
def fPush (t : Term) : UInt8 := 0x3B + t.val.toUInt8

def scanCodeOne : List UInt8 := [
  0x00, 0x00] ++ ['1', '2', '3', '4', '5', '6', '7', '8', '9',
  '0', '-', '='].map Char.toUInt8 ++ [0x08] ++ [' ', 'q', 'w', 'e', 'r', 't', 'y',
  'u', 'i', 'o', 'p', '[', ']'].map Char.toUInt8 ++ [newline, 0x00] ++ ['a', 's', 'd',
  'f', 'g', 'h', 'j', 'k', 'l', ';'].map Char.toUInt8 ++ [0x27, 0x00, 0x00, 0x5C] ++
  ['z', 'x', 'c', 'v', 'b', 'n', 'm', ',', '.', '/'].map Char.toUInt8

def scanCodeOneShift : List UInt8 := [
  0x00, 0x00] ++ ['!', '@', '#', '$', '%', '^', '&', '*', '(',
  ')', '_', '+'].map Char.toUInt8 ++ [0x08] ++ [' ', 'Q', 'W', 'E', 'R', 'T', 'Y',
  'U', 'I', 'O', 'P'].map Char.toUInt8 ++ [0x7B, 0x7D, newline, 0x00] ++ ['A', 'S', 'D',
  'F', 'G', 'H', 'J', 'K', 'L', ':'].map Char.toUInt8 ++ [0x22, 0x00, 0x00, 0x7C] ++
  ['Z', 'X', 'C', 'V', 'B', 'N', 'M', '<', '>', '?'].map Char.toUInt8

def scanCodeOneCaps : List UInt8 := [
  0x00, 0x00] ++ ['1', '2', '3', '4', '5', '6', '7', '8', '9',
  '0', '-', '='].map Char.toUInt8 ++ [0x08] ++ [' ', 'Q', 'W', 'E', 'R', 'T', 'Y',
  'U', 'I', 'O', 'P', '[', ']'].map Char.toUInt8 ++ [newline, 0x00] ++ ['A', 'S', 'D',
  'F', 'G', 'H', 'J', 'K', 'L', ';'].map Char.toUInt8 ++ [0x27, 0x00, 0x00, 0x5C] ++
  ['Z', 'X', 'C', 'V', 'B', 'N', 'M', ',', '.', '/'].map Char.toUInt8

def scanCodeOneShiftCaps : List UInt8 := [
  0x00, 0x00] ++ ['!', '@', '#', '$', '%', '^', '&', '*', '(',
  ')', '_', '+'].map Char.toUInt8 ++ [0x08] ++ [' ', 'q', 'w', 'e', 'r', 't', 'y',
  'u', 'i', 'o', 'p'].map Char.toUInt8 ++ [0x7B, 0x7D, newline, 0x00] ++ ['a', 's', 'd',
  'f', 'g', 'h', 'j', 'k', 'l', ':'].map Char.toUInt8 ++ [0x22, 0x00, 0x00, 0x7C] ++
  ['z', 'x', 'c', 'v', 'b', 'n', 'm', '<', '>', '?'].map Char.toUInt8

/-- The table that the two flags select. -/
def scancodeTable (caps capital : Bool) : List UInt8 :=
  if caps && !capital then scanCodeOneCaps
  else if capital && !caps then scanCodeOneShift
  else if capital && caps then scanCodeOneShiftCaps
  else scanCodeOne

/-- `scancode_helper`, with `none` for -1.  The bound admits index 54, one past
the tables. -/
def scancodeHelper (caps capital : Bool) (scan : UInt8) : Option UInt8 :=
  if scan.toNat > scanCodeOne.length then none
  else some ((scancodeTable caps capital).getD scan.toNat 0)

theorem scanCodeOne_length : scanCodeOne.length = 54 := by decide

theorem scancodeTable_length (caps capital : Bool) : (scancodeTable caps capital).length = 54 := by
  cases caps <;> cases capital <;> decide

namespace Keyboard

def init : Keyboard :=
  { keyboardBuf := Bytes.ofList []
    keyboardBufs := fun _ => Bytes.ofList []
    bufIdx := 0
    ctrlState := false
    ctrlKey := 0
    capslockFlag := false
    capitalFlag := false
    altInfo := false
    prevTerm := 0
    currTerm := 0
    keyboardFlags := fun _ => 0
    enterFlag := fun _ => false
    termBuf := Bytes.ofList []
    switchArray := fun _ => { bufIdx := 0, termBuf := Bytes.ofList [] }
    storeLog := []
    tableLog := [] }

/-- `keyboard_buf[i] = b`. -/
def store (i : Int) (b : UInt8) (k : Keyboard) : Keyboard :=
  { k with keyboardBuf := Function.update k.keyboardBuf i b, storeLog := i :: k.storeLog }

/-- `keyboard_switch`. -/
def switch (prev curr : Term) (k : Keyboard) : Keyboard :=
  let bufs := Function.update k.keyboardBufs prev
    (Bytes.copy bufsize k.keyboardBuf (k.keyboardBufs prev))
  { k with
    keyboardBufs := bufs
    keyboardBuf := Bytes.copy bufsize (bufs curr) k.keyboardBuf
    storeLog := (List.range 128).map (fun i : Nat => (i : Int)) ++ k.storeLog }

/-- The loop of `buffer_clear`, which clears the active buffer and the saved one
of the terminal last chosen. -/
def clearBuffers (k : Keyboard) : Keyboard :=
  { k with
    bufIdx := 0
    keyboardBuf := Bytes.zero bufsize k.keyboardBuf
    keyboardBufs := Function.update k.keyboardBufs k.currTerm
      (Bytes.zero bufsize (k.keyboardBufs k.currTerm))
    storeLog := (List.range 128).map (fun i : Nat => (i : Int)) ++ k.storeLog }

/-- What `terminal_changing_handler` does to the line and to the committed line,
around `update_cursor`. -/
def changeLine (k : Keyboard) : Keyboard :=
  let k := k.switch k.prevTerm k.currTerm
  let array := Function.update k.switchArray k.prevTerm
    { bufIdx := k.bufIdx,
      termBuf := Bytes.copy bufsize k.termBuf (k.switchArray k.prevTerm).termBuf }
  { k with
    switchArray := array
    termBuf := Bytes.copy bufsize (array k.currTerm).termBuf k.termBuf
    bufIdx := (array k.currTerm).bufIdx }

end Keyboard

namespace Console

/-- The console when the kernel enables interrupts. -/
def init (mem : Bytes) : Console := { vid := Video.init mem, kb := Keyboard.init }

def cli (c : Console) : Console := { c with vid := c.vid.cli }

def sti (c : Console) : Console := { c with vid := c.vid.sti }

def keyboardputc (b : UInt8) (c : Console) : Console :=
  { c with vid := c.vid.keyboardputc c.kb.bufIdx b }

/-- `keyboard_buf[buf_idx] = b`. -/
def storeAtIdx (b : UInt8) (c : Console) : Console :=
  { c with kb := c.kb.store c.kb.bufIdx b }

def advance (n : Int) (c : Console) : Console :=
  { c with kb := { c.kb with bufIdx := c.kb.bufIdx + n } }

/-- `keyboardputc(keyboard_buf[buf_idx])`. -/
def echoAtIdx (c : Console) : Console := c.keyboardputc (c.kb.keyboardBuf c.kb.bufIdx)

/-- One of the three tests of `buffer_clear`. -/
def bufferClearTerm (t : Term) (c : Console) : Console :=
  if c.kb.keyboardFlags t ≠ lPress ∧ c.kb.currTerm = t then
    (c.storeAtIdx newline).keyboardputc newline
  else c

def bufferClear (c : Console) : Console :=
  let c := ((c.bufferClearTerm 0).bufferClearTerm 1).bufferClearTerm 2
  { c with kb := c.kb.clearBuffers }

def setCtrlKey (b : UInt8) (c : Console) : Console := { c with kb := { c.kb with ctrlKey := b } }

/-- The copy of the whole line into `term_buf`, after the enter flag of the
displayed terminal is set. -/
def commitLine (c : Console) : Console :=
  { c with kb := { c.kb with
      enterFlag := Function.update c.kb.enterFlag c.vid.currentTerminal true
      termBuf := Bytes.copy bufsize c.kb.keyboardBuf c.kb.termBuf } }

def enterHelper (c : Console) : Console :=
  let c := if c.kb.ctrlKey = 1 then c.keyboardputc newline else c
  let c := ((c.setCtrlKey 0).storeAtIdx newline).advance 1
  c.commitLine.bufferClear.sti

def backspaceHelper (c : Console) : Console :=
  if c.kb.bufIdx > 0 then
    (((c.advance (-1)).keyboardputc backspaceAscii).storeAtIdx 0).sti
  else c.sti

def controlHelper (press : Bool) (c : Console) : Console :=
  { c with kb := { c.kb with ctrlState := press } }.sti

def spaceHelper (c : Console) : Console :=
  ((c.storeAtIdx space).echoAtIdx.advance 1).sti

/-- The loop of `tab_helper`, with the number of spaces still to add. -/
def tabLoop : Nat → Console → Console
  | 0, c => c.sti
  | n + 1, c => if c.kb.bufIdx ≥ bufsize - 1 then c.sti else tabLoop n c.spaceHelper

def tabHelper (c : Console) : Console := c.tabLoop 4

def capslockHelper (c : Console) : Console :=
  { c with kb := { c.kb with capslockFlag := !c.kb.capslockFlag } }.sti

def shiftHelper (press : Bool) (c : Console) : Console :=
  { c with kb := { c.kb with capitalFlag := press } }.sti

def altHelper (press : Bool) (c : Console) : Console :=
  { c with kb := { c.kb with altInfo := press } }.sti

def terminalChangingHandler (c : Console) : Console :=
  { vid := (c.vid.setPagingScheduling c.kb.currTerm).terminalChanging c.kb.currTerm
    kb := c.kb.changeLine }

/-- `recentTermChoice` moved on to `t`. -/
def chooseTerm (t : Term) (c : Console) : Console :=
  { c with kb := { c.kb with prevTerm := c.kb.currTerm, currTerm := t } }

/-- The release of a function key only resets `f1_info` to `f3_info`, which
nothing reads. -/
def fHelper (press : Bool) (t : Term) (c : Console) : Console :=
  if press then
    let c := c.chooseTerm t
    if c.kb.altInfo then c.terminalChangingHandler.sti else c.sti
  else c.sti

/-- `clear` on the displayed terminal. -/
def clear (c : Console) : Console := { c with vid := c.vid.clear }

/-- The pending line printed again, the indices of `l` in order. -/
def echoLine (l : List Nat) (c : Console) : Console :=
  l.foldl (fun c (i : Nat) =>
    if c.kb.keyboardBuf i ≠ 0 then c.keyboardputc (c.kb.keyboardBuf i) else c) c

def clearHelp (c : Console) : Console := { c with vid := c.vid.clearHelp c.kb.bufIdx }

/-- Control and L: clear the screen and print the pending line again. -/
def clearScreen (c : Console) : Console :=
  ((c.clear.echoLine (List.range 128)).clearHelp.setCtrlKey lPress).sti

/-- The path of a scancode that the switch does not name. -/
def typeKey (scan : UInt8) (c : Console) : Console :=
  if c.kb.bufIdx ≥ bufsize - 1 then c.sti
  else
    match scancodeHelper c.kb.capslockFlag c.kb.capitalFlag scan with
    | none => c.sti
    | some b =>
      let c := { c with kb := { c.kb with tableLog := scan.toNat :: c.kb.tableLog } }
      ((c.storeAtIdx b).echoAtIdx.advance 1).sti

def keyboardHandler (scan : UInt8) (c : Console) : Console :=
  let c := c.cli
  match keyOf scan with
  | .enter => c.enterHelper
  | .backspace => c.backspaceHelper
  | .leftControl press => c.controlHelper press
  | .space => c.spaceHelper
  | .tab => c.tabHelper
  | .capslock => c.capslockHelper
  | .shift press => c.shiftHelper press
  | .alt press => c.altHelper press
  | .f t press => c.fHelper press t
  | .other =>
    if c.kb.ctrlState = true ∧ scan = lPress then c.clearScreen else c.typeKey scan

/-! ## The timer and the boot -/

/-- The next terminal scheduled, with its page of video memory mapped. -/
def nextTerminal (c : Console) : Console :=
  let vid := { c.vid with scheduledTerm := c.vid.scheduledTerm + 1 }
  { c with vid := vid.setPagingScheduling vid.currentTerminal }

/-- The display switched from `prev` to `t`, as the timer does while it starts the
shells. -/
def display (prev t : Term) (c : Console) : Console :=
  { c with kb := { c.kb with prevTerm := prev, currTerm := t } }.terminalChangingHandler

/-- What the timer does to the console before it starts the shell of terminal `t`. -/
def startScreen (t : Term) (c : Console) : Console := (c.display c.kb.currTerm t).clear

/-- The console after the third timer interrupt, when the three shells have been
started and the first terminal is displayed again. -/
def booted (mem : Bytes) : Console :=
  ((((init mem).nextTerminal.startScreen 1).nextTerminal.startScreen 2).nextTerminal).display 2 0

end Console

end StudentDistrib
