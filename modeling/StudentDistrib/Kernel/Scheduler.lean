import StudentDistrib.Kernel.Execute

/-!
# The scheduler, the boot and the machine's steps

`pit_handler`, the kernel's entry, and the events of the machine: interrupts and
system calls of the process that the processor executes.  Each handler and each
call up to its wait loop is one step.
-/

namespace StudentDistrib

open Machine

/-- The command with which the kernel starts the shell of each terminal. -/
def shellCommand : CString := CString.ofList [0x73, 0x68, 0x65, 0x6C, 0x6C] (by simp)

/-- A name shorter than the local array hides what the stack holds after it. -/
def shellCall : Kernel.ExecCall :=
  { command := some shellCommand
    stack := Bytes.ofList []
    garbage := { filename := Bytes.ofList [], filetype := 0, inodeNum := 0 } }

namespace Kernel

def onConsole (f : Console → Console) (k : Kernel) : Kernel := { k with con := f k.con }

def onVideo (f : Video → Video) (k : Kernel) : Kernel :=
  { k with con := { k.con with vid := f k.con.vid } }

/-! ## The timer interrupt -/

/-- The registers of the interrupted process stored in its control block. -/
def saveScheduled (r : Regs) (k : Kernel) : Kernel :=
  k.setPcb k.currPid { k.callerPcb with scheduled := r }

/-- The interrupted process saved and the next terminal scheduled. -/
def preempted (r : Regs) (k : Kernel) : Kernel :=
  (k.saveScheduled r).onConsole Console.nextTerminal

/-- The terminal just scheduled still waits for its shell. -/
def WaitsForShell (k : Kernel) : Prop :=
  (k.scheduledTerm = 1 ∨ k.scheduledTerm = 2) ∧
    k.tab.terminalInstantiated k.scheduledTerm = false

instance (k : Kernel) : Decidable k.WaitsForShell :=
  inferInstanceAs (Decidable ((k.scheduledTerm = 1 ∨ k.scheduledTerm = 2) ∧
    k.tab.terminalInstantiated k.scheduledTerm = false))

/-- The kernel when the timer calls `execute` for the shell of terminal `t`. -/
def shellReady (t : Term) (k : Kernel) : Kernel :=
  let k := k.onConsole (Console.startScreen t)
  { k with tab := { k.tab with
      terminalInstantiated := Function.update k.tab.terminalInstantiated t true } }

/-- The kernel after a call of `execute` that does not fault. -/
def unlessFaults : Kernel × Outcome → Option Kernel
  | (_, .faults) => none
  | (k, .returns _) => some k
  | (k, .starts _) => some k

theorem unlessFaults_eq_some {result : Kernel × Outcome} {k : Kernel} :
    unlessFaults result = some k ↔ result.1 = k ∧ result.2 ≠ .faults := by
  obtain ⟨j, o⟩ := result
  cases o <;> simp [unlessFaults]

/-- The kernel after a call of `execute` that starts a program. -/
def ifStarts : Kernel × Outcome → Option Kernel
  | (k, .starts _) => some k
  | _ => none

theorem ifStarts_eq_some {result : Kernel × Outcome} {k : Kernel} :
    ifStarts result = some k ↔ ∃ p, result = (k, .starts p) := by
  obtain ⟨j, o⟩ := result
  cases o <;> simp [ifStarts]

/-- The base shell of terminal `t` started on the timer's frame. -/
def startShell (t : Term) (r : Regs) (k : Kernel) : Kernel × Outcome :=
  (k.shellReady t).execute shellCall r

/-- The process of the scheduled terminal resumed from its last timer frame. -/
def resume (k : Kernel) : Kernel :=
  let k :=
    if k.tab.doneInstantiating then k
    else
      let k := k.onConsole (Console.display 2 0)
      { k with tab := { k.tab with doneInstantiating := true } }
  let next := k.currPid
  let k := { k with tab := { k.tab with
    userPageAddress := (mb8 + mb4 * next) / 2 ^ 22
    tssEsp0 := mb8 - kb8 * next } }
  k.switchTo (k.tab.pcb next).scheduled

/-- `pit_handler`, with the registers of its frame.  Its call of `execute` cannot fault
after the kernel's entry, which has started the same file. -/
def pitHandler (r : Regs) (k : Kernel) : Option Kernel :=
  let k := k.preempted r
  if k.WaitsForShell then unlessFaults (k.startShell k.scheduledTerm r) else some k.resume

/-! ## Page faults -/

def pageFaultMessage : List UInt8 :=
  ['P', 'a', 'g', 'e', '-', 'F', 'a', 'u', 'l', 't', ' ', 'E', 'x', 'c', 'e', 'p', 't', 'i', 'o',
    'n', Char.ofNat 10].map Char.toUInt8

/-- Every close routine that `halt` is about to call was assigned. -/
def ClosesAssigned (k : Kernel) : Prop :=
  isBase k.currPid = true ∨
    ∀ fd ∈ haltCloses k.callerPcb, (k.callerPcb.fdArray fd).jumpTable ≠ none

instance (k : Kernel) : Decidable k.ClosesAssigned :=
  inferInstanceAs (Decidable (isBase k.currPid = true ∨ ∀ fd ∈ haltCloses k.callerPcb, _ ≠ none))

/-- The message that `interrupt_14_handler` prints. -/
def reportFault (k : Kernel) : Kernel :=
  k.onVideo (Video.printf k.con.kb.bufIdx pageFaultMessage)

/-- `interrupt_14_handler`, which halts the process of the scheduled terminal.  It is
undefined where the control block has a routine that was never assigned, since the call
goes where the memory of the block happens to point. -/
def pageFault (k : Kernel) : Option Kernel :=
  let k := k.reportFault
  if k.ClosesAssigned then some k.halt else none

/-- The kernel after a call of `execute`. -/
def afterExecute : Kernel × Outcome → Option Kernel
  | (k, .faults) => k.pageFault
  | (k, .returns _) => some k
  | (k, .starts _) => some k

theorem pageFault_eq_some {k k' : Kernel} (h : k.pageFault = some k') :
    k' = k.reportFault.halt := by
  unfold pageFault at h
  dsimp only at h
  split at h
  · exact (Option.some.inj h).symm
  · cases h

/-! ## Boot -/

/-- What memory holds before the kernel runs. -/
structure Ram where
  mem : Bytes
  pcb : Pid → PCB
  userPage : Pid → Bytes

/-- The kernel when `entry` calls `execute`. -/
def init (ram : Ram) (img : Image) : Kernel :=
  { con := Console.init ram.mem
    tab :=
      { pcbArr := fun _ => false
        currPidForTerm := basePid
        parentPidForTerm := basePid
        pcb := ram.pcb
        currPcb := 0
        args := Bytes.ofList []
        terminalInstantiated := fun t => t = 0
        doneInstantiating := false
        userPageAddress := 0
        tssEsp0 := mb8
        userPage := ram.userPage
        cpu := { ebp := 0, esp := 0 }
        running := none }
    rtc :=
      { currFreq := fun _ => 1024
        currCount := fun _ => 1
        freqCount := fun _ => 1
        flag := fun _ => false }
    img }

/-- The kernel's entry, which starts the shell of the first terminal. -/
def entry (ram : Ram) (img : Image) : Option Kernel :=
  ifStarts ((init ram img).execute shellCall { ebp := 0, esp := 0 })

/-- All three base shells have been started. -/
def ShellsUp (k : Kernel) : Prop := ∀ t, k.tab.terminalInstantiated t = true

/-- The boot up to the third timer interrupt, which displays the first terminal. -/
def boot (ram : Ram) (img : Image) (r₁ r₂ r₃ : Regs) : Option Kernel :=
  (((entry ram img).bind (pitHandler r₁)).bind (pitHandler r₂)).bind (pitHandler r₃)

/-! ## Events -/

inductive Event
  | key (scan : UInt8)
  | tick (r : Regs)
  | rtc
  | execute (call : ExecCall) (r : Regs)
  | halt (status : UInt8)
  | read (fd nbytes : Int)
  | readDone (nbytes : Int)
  | write (fd : Int) (buf : List UInt8)
  | openFile (fname : Bytes) (garbage : Image.Dentry)
  | closeFile (fd : Int)
  | getargs (nbytes : Int)
  | vidmap (screenStart : Int)
  | vidmapStore (offset : Int) (b : UInt8)

/-- One step of the machine. -/
def step (k : Kernel) : Event → Option Kernel
  | .key scan => some (k.onConsole (Console.keyboardHandler scan))
  | .tick r => k.pitHandler r
  | .rtc => some { k with rtc := k.rtc.rtcHandler }
  | .execute call r => afterExecute (k.execute call r)
  | .halt _ => some k.halt
  | .read fd nbytes => some (k.read fd nbytes).1
  | .readDone nbytes =>
    (k.con.terminalReadFinish nbytes).map fun (con, _) => { k with con }
  | .write fd buf => some (k.write fd buf).1
  | .openFile fname garbage => some (k.openFile fname garbage).1
  | .closeFile fd => some (k.closeFile fd).1
  | .getargs _ => some k
  | .vidmap screenStart => some (k.vidmap screenStart).1
  | .vidmapStore offset b => some (k.onVideo (Video.vidmapStore offset b))

/-- The event is a call of `execute` that starts a program. -/
def StartsProgram (k : Kernel) (e : Event) (p : Pid) : Prop :=
  ∃ call r, e = .execute call r ∧ (k.execute call r).2 = .starts p

/-- The event is a call of `execute` whose copy of the program faults. -/
def Overruns (k : Kernel) (e : Event) : Prop :=
  ∃ call r, e = .execute call r ∧ (k.execute call r).2 = .faults

/-- No program is started before the three base shells. -/
def AfterShells (k : Kernel) (e : Event) : Prop := ∀ p, k.StartsProgram e p → k.ShellsUp

/-- No program is started before the three base shells, and one that does not fit only
by a process whose terminal is displayed. -/
structure KeepsTables (k : Kernel) (e : Event) : Prop where
  afterShells : k.AfterShells e
  displayed : k.Overruns e → k.ShellsUp ∧ k.con.vid.currentTerminal = k.scheduledTerm

end Kernel

end StudentDistrib
