import StudentDistrib.Kernel.Process

/-!
# Starting and halting a program

`execute` and `halt`.  Both run with interrupts disabled, so each is one step.

A command is a string in user memory, seen from its first byte with the bytes
before it and after its terminator, since `execute` reads both.  `execute` ends in
one of three ways: it returns to its caller, it leaves the kernel with `iret` into
the program it started, or its copy of the program leaves the pages that are mapped
from 128 MB on, the 4 MB page of the program and one page of video memory behind it,
and the next store faults.
-/

namespace StudentDistrib

open Machine

/-- A string terminated by a null byte, in the memory around it. -/
structure CString where
  mem : Bytes
  len : Nat
  terminated : mem len = 0
  nonzero : ∀ i : Int, 0 ≤ i → i < len → mem i ≠ 0

namespace CString

/-- A string of given bytes with zeros around it. -/
def ofList (l : List UInt8) (h : ∀ b ∈ l, b ≠ 0) : CString where
  mem := Bytes.ofList l
  len := l.length
  terminated := Bytes.ofList_of_le (Int.le_refl _)
  nonzero := by
    intro i h0 hi
    obtain ⟨n, rfl⟩ := Int.eq_ofNat_of_zero_le h0
    have hn : n < l.length := by omega
    rw [Bytes.ofList_of_lt hn]
    exact h _ (List.getElem_mem hn)

end CString

namespace Kernel

/-! ## The command line -/

/-- The two loops of `execute` that copy the first word into `function`, from
index `i` on with `n` indices left.  They differ in the index at which the loop
is left, which the second one lacks. -/
def copyWord (command : CString) (stop : Int → Bool) :
    (n : Nat) → (i : Int) → (spaceFound : Bool) → Bytes → Bytes
  | 0, _, _, function => function
  | n + 1, i, spaceFound, function =>
    if stop i then function
    else if !spaceFound then
      if i < command.len ∧ (command.mem i = space ∨ command.mem i = newline) then
        copyWord command stop n (i + 1) true (Function.update function i 0)
      else
        copyWord command stop n (i + 1) false (Function.update function i (command.mem i))
    else copyWord command stop n (i + 1) true (Function.update function i 0)

/-- The array `function`, in the memory that follows it on the stack. -/
def firstWord (command : CString) (stack : Bytes) : Bytes :=
  let function := Bytes.zero filenameLen stack
  if command.mem ((command.len : Int) - 1) = newline then
    copyWord command (fun i => i ≥ u32 ((command.len : Int) - 1)) filenameLen 0 false function
  else copyWord command (fun _ => false) filenameLen 0 false function

/-- The index that the scan for a space ends with, or -1. -/
def lastSpace (command : CString) : Int :=
  (List.range command.len).foldl
    (fun found (i : Nat) => if command.mem i = space then (i : Int) else found) (-1)

/-- The buffer `args` after `execute` has filled it. -/
def parseArgs (command : CString) : Bytes := fun j =>
  let start := lastSpace command + 1
  if lastSpace command ≠ -1 ∧ 0 ≤ j ∧ j < bufsize ∧ start + j < command.len then
    command.mem (start + j)
  else 0

/-! ## Execute -/

/-- What a call of `execute` finds: the command, the stack after its local array
and the other uninitialised local. -/
structure ExecCall where
  command : Option CString
  stack : Bytes
  garbage : Image.Dentry

inductive Outcome
  | returns (v : Int)
  | starts (p : Pid)
  | faults
  deriving DecidableEq, Repr

def setArgs (args : Bytes) (k : Kernel) : Kernel := { k with tab := { k.tab with args } }

/-- The loop of `execute` over `pcb_arr`: the first free slot. -/
def newestPid (pcbArr : Pid → Bool) : Option Pid :=
  (List.finRange 6).find? fun p => !pcbArr p

/-- A base shell has one of the first three pids. -/
def isBase (p : Pid) : Bool := p = 0 || p = 1 || p = 2

/-- The slot taken, the tables of the displayed terminal moved on and the
program's page mapped. -/
def allocate (p : Pid) (k : Kernel) : Kernel :=
  let t := k.con.vid.currentTerminal
  { k with tab := { k.tab with
      pcbArr := Function.update k.tab.pcbArr p true
      parentPidForTerm := Function.update k.tab.parentPidForTerm t (k.tab.currPidForTerm t)
      currPidForTerm := Function.update k.tab.currPidForTerm t p
      userPageAddress := (mb8 + mb4 * p) / 2 ^ 22 } }

/-- `PROGRAM_IMG` in the page at 128 MB. -/
def programOffset : Nat := 0x48000

/-- The bytes from `program_image` to the end of the program's page. -/
def pageRoom : Nat := mb4 - programOffset

/-- The bytes from `program_image` to the end of the page behind it, which is that of
`vidmap`. -/
def loadRoom : Nat := pageRoom + 4096

/-- The image copied to `program_image`.  What the program's page does not hold goes to
video memory. -/
def loadImage (p : Pid) (image : List UInt8) (k : Kernel) : Kernel :=
  { k with
    con := { k.con with vid := k.con.vid.vidmapCopy (image.drop pageRoom) }
    tab := { k.tab with
      userPage := Function.update k.tab.userPage p fun i =>
        if programOffset ≤ i ∧ i < programOffset + image.length ∧ i < mb4 then
          Bytes.ofList image (i - programOffset)
        else k.tab.userPage p i } }

/-- The control block that `execute` leaves in the slot, over whatever it held. -/
def freshPcb (parent : Pid) (eip : Nat) (old : PCB) : PCB :=
  { old with
    parent
    eip
    openIndexes := fun i => if 0 ≤ i ∧ i < 6 then 0 else old.openIndexes i
    fdArray := fun fd =>
      if fd = 0 ∨ fd = 1 then
        { old.fdArray fd with jumpTable := some .terminal, inodeCheck := 0, flags := full }
      else if 2 ≤ fd ∧ fd < 8 then { old.fdArray fd with flags := empty }
      else old.fdArray fd }

/-- The part of `execute` after the program is loaded: the control block, the TSS
and the registers to which `halt` will return. -/
def launch (p : Pid) (r : Regs) (k : Kernel) : Kernel :=
  let parent := if isBase p then p else k.tab.parentPidForTerm k.con.vid.currentTerminal
  let eip := (Image.word (k.tab.userPage p) (programOffset + 24)).toNat
  let pcb := Function.update k.tab.pcb p (freshPcb parent eip (k.tab.pcb p))
  { k with tab := { k.tab with
      pcb := if isBase p then pcb else Function.update pcb parent { pcb parent with saved := r }
      currPcb := p
      tssEsp0 := mb8 - kb8 * p
      running := some p } }

/-- The first four bytes of an executable. -/
def elfMagic : List UInt8 := [0x7F, 0x45, 0x4C, 0x46]

/-- `execute` where a slot is free and the file is an executable.  A copy that faults
has stored what fits the mapped pages. -/
def startProgram (p : Pid) (inode : Int) (r : Regs) (k : Kernel) : Kernel × Outcome :=
  let k := k.allocate p
  match k.img.readData inode 0 0x400000 with
  | none => (k, .returns (-1))
  | some image =>
    if image.length > loadRoom then (k.loadImage p (image.take loadRoom), .faults)
    else ((k.loadImage p image).launch p r, .starts p)

def noSlotMessage : List UInt8 :=
  ['C', 'a', 'n', Char.ofNat 39, 't', ' ', 'O', 'p', 'e', 'n', ' ', 'A', 'n', 'y', ' ',
    'M', 'o', 'r', 'e', ' ', 'F', 'i', 'l', 'e', 's', Char.ofNat 10].map Char.toUInt8

/-- `execute`.  `r` holds the registers that its frame has on the caller's kernel
stack.  The source scans `pcb_arr` twice, for a free slot and for the first one,
with nothing in between that writes it. -/
def execute (call : ExecCall) (r : Regs) (k : Kernel) : Kernel × Outcome :=
  match call.command with
  | none => (k, .returns (-1))
  | some command =>
    let k := k.setArgs (parseArgs command)
    match k.img.readDentryByName (firstWord command call.stack) call.garbage with
    | none => (k, .returns (-1))
    | some dentry =>
      match newestPid k.tab.pcbArr with
      | none =>
        ({ k with con := { k.con with
            vid := k.con.vid.printf k.con.kb.bufIdx noSlotMessage } }, .returns 0)
      | some p =>
        match k.img.readData dentry.inodeNum 0 4 with
        | none => (k, .returns (-1))
        | some buf =>
          if buf ≠ elfMagic then (k, .returns (-1))
          else k.startProgram p dentry.inodeNum r

/-! ## Halt -/

/-- The process whose 8 KB kernel stack an address lies in. -/
def stackOwner (esp : Nat) : Option Pid :=
  if h : esp < mb8 ∧ (mb8 - 1 - esp) / kb8 < 6 then some ⟨(mb8 - 1 - esp) / kb8, h.2⟩ else none

/-- The kernel stack switched to one that was saved. -/
def switchTo (r : Regs) (k : Kernel) : Kernel :=
  { k with tab := { k.tab with cpu := r, running := stackOwner r.esp } }

/-- The descriptors that the closing loop of `halt` visits, from index `i` on with
`n` indices left. -/
def closeLoop (openIndexes : Int → Int) : (n : Nat) → (i : Int) → List Int
  | 0, _ => []
  | n + 1, i => if openIndexes (i - 2) ≠ 0 then i :: closeLoop openIndexes n (i + 1) else []

/-- The descriptors whose close routine `halt` calls, in order. -/
def haltCloses (pcb : PCB) : List Int := 0 :: 1 :: closeLoop pcb.openIndexes 6 2

/-- The tables of the scheduled terminal moved back to the parent. -/
def releaseSlot (k : Kernel) : Kernel :=
  let t := k.scheduledTerm
  let parent := k.tab.parentPidForTerm t
  { k with tab := { k.tab with
      pcbArr := Function.update k.tab.pcbArr k.currPid false
      currPidForTerm := Function.update k.tab.currPidForTerm t parent
      parentPidForTerm := Function.update k.tab.parentPidForTerm t (k.tab.pcb parent).parent
      userPageAddress := (mb8 + mb4 * parent) / 2 ^ 22
      tssEsp0 := mb8 - kb8 * parent } }

def clearEnter (k : Kernel) : Kernel :=
  { k with con := { k.con with kb := { k.con.kb with
      enterFlag := Function.update k.con.kb.enterFlag k.scheduledTerm false } } }

/-- `halt`.  A base shell is started again at its entry point. -/
def halt (k : Kernel) : Kernel :=
  let k := k.clearEnter.setCurrPcb
  if isBase k.currPid then k
  else
    let pcb := k.callerPcb
    let parentPcb := k.tab.pcb (k.tab.parentPidForTerm k.scheduledTerm)
    let k := k.releaseSlot
    let con := (haltCloses pcb).foldl (fun con fd => closeFunc (pcb.fdArray fd).jumpTable con) k.con
    { k with con }.switchTo parentPcb.saved

end Kernel

end StudentDistrib
