import StudentDistrib.Console.Keyboard

/-!
# The terminal driver

`terminal_read` is cut at its wait loop.  `terminalReadBegin` runs up to the loop
and `terminalReadFinish` from the loop's exit on, which exists only while the
enter flag of the scheduled terminal is set.  `terminal_open` is installed in the
jump tables of descriptors 0 and 1 but never called.
-/

namespace StudentDistrib

open Machine

namespace Console

/-- `terminal_close`.  It also marks entry `curr_terminal_idx` of
`terminal_switch_array` as closed, a mark that nothing reads. -/
def terminalClose (c : Console) : Console :=
  { c with kb := { c.kb with termBuf := Bytes.zero bufsize c.kb.termBuf } }

/-- The size that `terminal_read` works with. -/
def clampRead (nbytes : Int) : Int :=
  if nbytes ≥ bufsize then bufsize - 1 else nbytes

def setReadFlag (b : Bool) (c : Console) : Console :=
  { c with vid := { c.vid with
      termReadFlag := Function.update c.vid.termReadFlag c.vid.scheduledTerm b } }

/-- `terminal_read` up to its wait loop, or `none` where it returns -1. -/
def terminalReadBegin (nbytes : Int) (c : Console) : Option Console :=
  if clampRead nbytes ≤ 0 then none else some (c.setReadFlag true)

/-- The count of `terminal_read`'s copy loop: bytes up to and including the first
line break among those copied. -/
def countLine : List UInt8 → Nat
  | [] => 0
  | b :: bs => if b = newline then 1 else countLine bs + 1

/-- `terminal_read` after its wait loop: the state, the bytes stored in the
buffer, from its start, and the value returned. -/
def terminalReadFinish (nbytes : Int) (c : Console) : Option (Console × List UInt8 × Nat) :=
  if c.kb.enterFlag c.vid.scheduledTerm then
    let c := c.setReadFlag false
    let c := { c with kb := { c.kb with
      enterFlag := Function.update c.kb.enterFlag c.vid.scheduledTerm false } }
    -- The loop bound is inclusive.
    let stored := Bytes.take ((clampRead nbytes).toNat + 1) c.kb.termBuf
    some (c, stored, countLine stored)
  else none

/-- `terminal_write` for a buffer of `nbytes` bytes, with the value returned. -/
def terminalWrite (buf : List UInt8) (c : Console) : Console × Int :=
  if buf = [] then (c, -1)
  else
    ({ c with vid := (buf.filter (· ≠ 0)).foldl (fun v b => v.putc c.kb.bufIdx b) c.vid }, 0)

end Console

end StudentDistrib
