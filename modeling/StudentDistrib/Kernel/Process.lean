import StudentDistrib.Console.Terminal
import StudentDistrib.Files.Image

/-!
# Process control blocks and the system calls on descriptors

The globals of `systemCall.c`, `scheduling.c` and `rtc.c`, the process control
blocks with their descriptor tables, and the calls `open`, `close`, `read`,
`write`, `getargs` and `vidmap` on the process of the scheduled terminal.
-/

namespace StudentDistrib

open Machine

/-- The driver whose four routines a jump table holds.  The source assigns the
four pointers together. -/
inductive Driver
  | terminal
  | rtc
  | directory
  | file
  deriving DecidableEq, Repr

/-- `full` and `empty`. -/
def full : Int := 1
def empty : Int := 0

/-- `file_descriptor_t`.  A jump table that was never assigned is `none`. -/
structure FileDescriptor where
  jumpTable : Option Driver
  inodeCheck : Int
  filePosition : Int
  flags : Int

/-- `PCB_t` without the fields that nothing reads (`active`, `id`,
`esp_program_start` and `terminal`).  The registers come in the two pairs that
are always stored and loaded together. -/
structure PCB where
  parent : Pid
  /-- `scheduledEbp` and `scheduledEsp`. -/
  scheduled : Regs
  /-- `ebp` and `esp`. -/
  saved : Regs
  eip : Nat
  fdArray : Int → FileDescriptor
  openIndexes : Int → Int

/-- The process tables and the processor state that a context switch moves. -/
structure Tables where
  /-- `pcb_arr`, with `true` for 1. -/
  pcbArr : Pid → Bool
  currPidForTerm : Term → Pid
  parentPidForTerm : Term → Pid
  pcb : Pid → PCB
  currPcb : Pid
  args : Bytes
  terminalInstantiated : Term → Bool
  doneInstantiating : Bool
  /-- `page_directory[USR_MEM_IDX].MB.pt_address`. -/
  userPageAddress : Nat
  tssEsp0 : Nat
  /-- The 4 MB page of each process, from its first byte at 128 MB. -/
  userPage : Pid → Bytes
  /-- The `ebp` and `esp` that the last switch on the kernel stack loaded. -/
  cpu : Regs
  /-- The process that the processor executes: the one just started, or the one
  whose kernel stack was loaded. -/
  running : Option Pid

/-- The globals of `rtc.c`. -/
structure Rtc where
  currFreq : Term → Int
  currCount : Term → Int
  freqCount : Term → Int
  flag : Term → Bool

structure Kernel where
  con : Console
  tab : Tables
  rtc : Rtc
  img : Image

namespace Rtc

def rtcHandler (r : Rtc) : Rtc :=
  { r with
    currCount := fun t => if r.currCount t = 0 then r.freqCount t else r.currCount t - 1
    flag := fun t => if r.currCount t = 0 then true else r.flag t }

def rtcOpen (t : Term) (r : Rtc) : Rtc :=
  { r with
    freqCount := Function.update r.freqCount t 512
    currFreq := Function.update r.currFreq t 2 }

/-- The loop that halves `temp` while it is even, with `fuel` bounding the number
of halvings. -/
def halve : Nat → Int → Int
  | 0, temp => temp
  | fuel + 1, temp => if temp.tmod 2 = 0 then halve fuel (temp.tdiv 2) else temp

/-- `rtc_write` for a buffer of `nbytes` bytes that begins with `value`, with the
value returned.  A frequency within bounds is halved at most ten times. -/
def rtcWrite (t : Term) (value nbytes : Int) (r : Rtc) : Rtc × Int :=
  let frequency := i32 value
  if nbytes ≠ 4 then (r, -1)
  else if frequency < 1 ∨ frequency > 1024 then (r, -1)
  else if halve 10 frequency = 1 then
    ({ r with
      currFreq := Function.update r.currFreq t frequency
      freqCount := Function.update r.freqCount t
        (if frequency = 1024 then 1 else if frequency = 512 then 2
          else if frequency = 256 then 4 else if frequency = 128 then 8
          else if frequency = 64 then 16 else if frequency = 32 then 32
          else if frequency = 16 then 64 else if frequency = 8 then 128
          else if frequency = 4 then 256 else if frequency = 2 then 512
          else if frequency = 1 then 1024 else r.freqCount t) }, 0)
  else (r, -1)

end Rtc

namespace Kernel

/-- What a call hands back: the value returned and the bytes stored through the
user pointer, or that it waits in a driver's loop. -/
inductive Returned
  | value (v : Int) (stored : List UInt8)
  | waits
  deriving DecidableEq, Repr

def scheduledTerm (k : Kernel) : Term := k.con.vid.scheduledTerm

/-- `curr_pid_for_term[scheduled_term]`. -/
def currPid (k : Kernel) : Pid := k.tab.currPidForTerm k.scheduledTerm

/-- The control block that a system call works on. -/
def callerPcb (k : Kernel) : PCB := k.tab.pcb k.currPid

/-- `curr_pcb` set to the process of the scheduled terminal. -/
def setCurrPcb (k : Kernel) : Kernel := { k with tab := { k.tab with currPcb := k.currPid } }

def setPcb (p : Pid) (pcb : PCB) (k : Kernel) : Kernel :=
  { k with tab := { k.tab with pcb := Function.update k.tab.pcb p pcb } }

/-- The scheduled process's descriptor `fd` replaced. -/
def setFd (fd : Int) (d : FileDescriptor) (k : Kernel) : Kernel :=
  k.setPcb k.currPid
    { k.callerPcb with fdArray := Function.update k.callerPcb.fdArray fd d }

/-- The scheduled process's `openIndexes[i]` replaced. -/
def setOpenIndex (i v : Int) (k : Kernel) : Kernel :=
  k.setPcb k.currPid
    { k.callerPcb with openIndexes := Function.update k.callerPcb.openIndexes i v }

def sti (k : Kernel) : Kernel := { k with con := k.con.sti }

/-! ## Reading and writing through the jump table -/

/-- `read_file`. -/
def readFile (fd nbytes : Int) (k : Kernel) : Kernel × Returned :=
  let d := k.callerPcb.fdArray fd
  if d.flags = full then
    let length := k.img.inodeLength d.inodeCheck
    let nbytes :=
      if i32 (d.filePosition + nbytes) ≥ length then i32 (length - d.filePosition) else nbytes
    match k.img.readData d.inodeCheck d.filePosition nbytes with
    | none => (k, .value (-1) [])
    | some bytes =>
      (k.setFd fd { d with filePosition := d.filePosition + bytes.length },
        .value bytes.length bytes)
  else (k, .value (-1) [])

/-- `read_directory`.  The name's length is counted up to the 32 bytes that the
copy loop takes. -/
def readDirectory (fd : Int) (k : Kernel) : Kernel × Returned :=
  let d := k.callerPcb.fdArray fd
  if d.flags = full then
    if d.filePosition < 0 ∨ d.filePosition ≥ k.img.numDirectoryEntries then
      (k.setFd fd { d with filePosition := 0 }, .value 0 [])
    else
      let name := k.img.entryFilename d.filePosition
      let stored := name.take (Image.strlen name filenameLen)
      (k.setFd fd { d with filePosition := d.filePosition + 1 }, .value stored.length stored)
  else (k, .value (-1) [])

/-- `terminal_read` up to its wait loop. -/
def readTerminal (nbytes : Int) (k : Kernel) : Kernel × Returned :=
  match k.con.terminalReadBegin nbytes with
  | none => (k, .value (-1) [])
  | some con => ({ k with con }, .waits)

/-- `rtc_read` up to its wait loop. -/
def rtcRead (k : Kernel) : Kernel × Returned :=
  ({ k with rtc := { k.rtc with flag := Function.update k.rtc.flag k.scheduledTerm false } },
    .waits)

/-- `read` into a buffer that is not `NULL`.  A jump table that was never
assigned leads nowhere, which the model leaves as a call that does not return. -/
def read (fd nbytes : Int) (k : Kernel) : Kernel × Returned :=
  if fd = 1 then (k, .value (-1) [])
  else if fd < 0 ∨ fd > 7 then (k, .value (-1) [])
  else
    let k := k.sti.setCurrPcb
    if (k.callerPcb.fdArray fd).flags = full then
      match (k.callerPcb.fdArray fd).jumpTable with
      | some .terminal => k.readTerminal nbytes
      | some .rtc => k.rtcRead
      | some .directory => k.readDirectory fd
      | some .file => k.readFile fd nbytes
      | none => (k, .waits)
    else (k, .value (-1) [])

/-- `write` from a buffer that is not `NULL` and holds `buf`.  The write routines
of files and directories return -1. -/
def write (fd : Int) (buf : List UInt8) (k : Kernel) : Kernel × Int :=
  let k := k.sti
  if fd ≤ 0 ∨ fd > 7 then (k, -1)
  else
    let k := k.setCurrPcb
    if (k.callerPcb.fdArray fd).flags = full then
      match (k.callerPcb.fdArray fd).jumpTable with
      | some .terminal =>
        let (con, v) := k.con.terminalWrite buf
        ({ k with con }, v)
      | some .rtc =>
        let (rtc, v) := k.rtc.rtcWrite k.scheduledTerm
          (Image.word (Bytes.ofList buf) 0) buf.length
        ({ k with rtc }, v)
      | _ => (k, -1)
    else ({ k with con := { k.con with vid := k.con.vid.putc k.con.kb.bufIdx newline } }, -1)

/-! ## Opening and closing -/

/-- The driver that `open` installs for a file type. -/
def driverOf (filetype : Int) (old : Option Driver) : Option Driver :=
  if filetype = 0 then some .rtc
  else if filetype = 1 then some .directory
  else if filetype = 2 then some .file
  else old

/-- The loop of `open`: the first index below 6 whose entry is empty. -/
def openIndex (openIndexes : Int → Int) : Option Int :=
  ((List.range 6).map fun (i : Nat) => (i : Int)).find? fun i => openIndexes i = empty

/-- `open` of a name that is not `NULL`.  `rtc_open` is the only open routine
with an effect, on the clock of the scheduled terminal. -/
def openFile (fname : Bytes) (garbage : Image.Dentry) (k : Kernel) : Kernel × Int :=
  match k.img.readDentryByName fname garbage with
  | none => (k, -1)
  | some dentry =>
    let k := k.setCurrPcb
    match openIndex k.callerPcb.openIndexes with
    | none => (k, -1)
    | some i =>
      let fd := i + 2
      let d : FileDescriptor :=
        { jumpTable := driverOf dentry.filetype (k.callerPcb.fdArray fd).jumpTable
          inodeCheck := dentry.inodeNum
          filePosition := 0
          flags := full }
      let k := (k.setOpenIndex i full).setFd fd d
      let k :=
        if d.jumpTable = some .rtc then { k with rtc := k.rtc.rtcOpen k.scheduledTerm } else k
      (k, fd)

/-- The close routine of a driver.  Only `terminal_close` has an effect. -/
def closeFunc (driver : Option Driver) (con : Console) : Console :=
  if driver = some .terminal then con.terminalClose else con

/-- `close`, whose routines all return 0. -/
def closeFile (fd : Int) (k : Kernel) : Kernel × Int :=
  let k := k.setCurrPcb
  if fd < 2 ∨ fd > 7 ∨ (k.callerPcb.fdArray fd).flags = empty then (k, -1)
  else
    let d := k.callerPcb.fdArray fd
    let k := (k.setOpenIndex (fd - 2) empty).setFd fd { d with flags := empty, filePosition := 0 }
    ({ k with con := closeFunc d.jumpTable k.con }, 0)

/-! ## Arguments and video -/

/-- `getargs` into a buffer that is not `NULL`: the value returned and the bytes
stored from the buffer's start. -/
def getargs (args : Bytes) (nbytes : Int) : Int × List UInt8 :=
  if args 0 = 0 then (-1, [])
  else (0, (List.range nbytes.toNat).map fun (i : Nat) => if i < 128 then args i else 0)

/-- `vidmap` of a pointer, with the value returned and whether the pointer is
written. -/
def vidmap (screenStart : Int) (k : Kernel) : Kernel × Int :=
  if screenStart = 0 then (k, -1)
  else if screenStart < 0x8000000 ∨ screenStart > 0x8000000 + mb4 then (k, -1)
  else ({ k with con := { k.con with vid := k.con.vid.vidmapPage } }, 0)

end Kernel

end StudentDistrib
