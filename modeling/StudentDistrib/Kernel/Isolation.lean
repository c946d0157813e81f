import StudentDistrib.Machine.Routine
import StudentDistrib.Console.Fault
import StudentDistrib.Kernel.Closing
import StudentDistrib.Kernel.FileReads
import StudentDistrib.Kernel.Rates
import StudentDistrib.Kernel.Switch

/-!
# A process and its files

The calls of a user program in a kernel that does anything else between two of them:
interrupts, and calls of other processes.  In an orderly run the process that runs is
the current one of the scheduled terminal, whose descriptors the calls go to.  What a
process sees of the file system, its descriptors and what it wrote are then its own, so
that a program that reads regular files and directories and writes to its terminal runs
as if it were alone.
-/

namespace StudentDistrib

open Machine

/-- The calls of a program on its arguments and its descriptors. -/
inductive UserCall
  | getargs (nbytes : Int)
  | openFile (fname : Bytes)
  | closeFile (fd : Int)
  | read (fd nbytes : Int)
  | write (fd : Int) (buf : List UInt8)

/-- The value returned and the bytes stored through the pointer. -/
structure Answer where
  value : Int
  stored : List UInt8
  deriving DecidableEq, Repr

/-! ## Alone -/

/-- What belongs to a process: its open files and the bytes that it wrote to its
terminal, besides the image, which nothing writes. -/
structure Files where
  img : Image
  table : Int → Option OpenFile
  out : List UInt8

/-- What the stack held where `open` keeps the entry that it finds. -/
def noDentry : Image.Dentry := { filename := Bytes.ofList [], filetype := 0, inodeNum := 0 }

/-- The first of the descriptors 2 to 7 that is free. -/
def leastFree (table : Int → Option OpenFile) : Option Int :=
  ((List.range 6).map fun (i : Nat) => (i : Int) + 2).find? fun fd => (table fd).isNone

/-- A read of an open file, with the file after it.  What a read of the terminal delivers
depends on more than the file. -/
def OpenFile.read (img : Image) (nbytes : Int) (f : OpenFile) : Option (OpenFile × Answer) :=
  match f.kind with
  | .file =>
    let length := img.inodeLength f.inode
    let nbytes := if i32 (f.position + nbytes) ≥ length then i32 (length - f.position) else nbytes
    match img.readData f.inode f.position nbytes with
    | none => some (f, ⟨-1, []⟩)
    | some bytes => some ({ f with position := f.position + bytes.length }, ⟨bytes.length, bytes⟩)
  | .directory =>
    if f.position < 0 ∨ f.position ≥ img.numDirectoryEntries then
      some ({ f with position := 0 }, ⟨0, []⟩)
    else
      let name := img.entryFilename f.position
      let stored := name.take (Image.strlen name filenameLen)
      some ({ f with position := f.position + 1 }, ⟨stored.length, stored⟩)
  | .rtc => some (f, ⟨0, []⟩)
  | .terminal => none

namespace Files

def openFile (fname : Bytes) (v : Files) : Files × Answer :=
  match v.img.readDentryByName fname noDentry with
  | none => (v, ⟨-1, []⟩)
  | some dentry =>
    match leastFree v.table with
    | none => (v, ⟨-1, []⟩)
    | some fd =>
      let file := (Kernel.driverOf dentry.filetype none).map fun kind =>
        ({ kind, inode := dentry.inodeNum, position := 0 } : OpenFile)
      ({ v with table := Function.update v.table fd file }, ⟨fd, []⟩)

def closeFile (fd : Int) (v : Files) : Files × Answer :=
  match v.table fd with
  | none => (v, ⟨-1, []⟩)
  | some _ => ({ v with table := Function.update v.table fd none }, ⟨0, []⟩)

def read (fd nbytes : Int) (v : Files) : Option (Files × Answer) :=
  match v.table fd with
  | some f =>
    (f.read v.img nbytes).map fun (f', a) =>
      ({ v with table := Function.update v.table fd (some f') }, a)
  | none => if fd = 0 then none else some (v, ⟨-1, []⟩)

def write (fd : Int) (buf : List UInt8) (v : Files) : Option (Files × Answer) :=
  if fd = 1 then some ({ v with out := v.out ++ buf }, ⟨if buf = [] then -1 else 0, []⟩)
  else
    match (v.table fd).map OpenFile.kind with
    | some .terminal => none
    | some .rtc =>
      let (_, value) := Rtc.init.rtcWrite 0 (Image.word (Bytes.ofList buf) 0) buf.length
      some (v, ⟨value, []⟩)
    | _ => some (v, ⟨-1, []⟩)

/-- The answers that a process alone gets, where `args` are its arguments. -/
def serve (args : Bytes) : UserCall → Files → Option (Files × Answer)
  | .getargs nbytes, v =>
    let (value, stored) := Kernel.getargs args nbytes
    some (v, ⟨value, stored⟩)
  | .openFile fname, v => some (v.openFile fname)
  | .closeFile fd, v => some (v.closeFile fd)
  | .read fd nbytes, v => v.read fd nbytes
  | .write fd buf, v => v.write fd buf

end Files

namespace Kernel

/-! ## In the kernel -/

/-- A call served by the kernel. -/
def answered (garbage : Image.Dentry) (c : UserCall) (k : Kernel) : Kernel × Returned :=
  match c with
  | .getargs nbytes =>
    let (value, stored) := getargs k.tab.args nbytes
    (k, .value value stored)
  | .openFile fname =>
    let (k, value) := k.openFile fname garbage
    (k, .value value [])
  | .closeFile fd =>
    let (k, value) := k.closeFile fd
    (k, .value value [])
  | .read fd nbytes => k.read fd nbytes
  | .write fd buf =>
    let (k, value) := k.write fd buf
    (k, .value value [])

/-- The call as an event of the machine. -/
def callEvent (garbage : Image.Dentry) : UserCall → Event
  | .getargs nbytes => .getargs nbytes
  | .openFile fname => .openFile fname garbage
  | .closeFile fd => .closeFile fd
  | .read fd nbytes => .read fd nbytes
  | .write fd buf => .write fd buf

theorem step_callEvent (garbage : Image.Dentry) (c : UserCall) (k : Kernel) :
    k.step (callEvent garbage c) = some (k.answered garbage c).1 := by
  cases c <;> rfl

/-- The kernel, and what the process wrote to its terminal. -/
structure World where
  kernel : Kernel
  out : List UInt8

/-- The bytes that a call has printed. -/
def printed : UserCall → Answer → List UInt8
  | .write fd buf, a => if fd = 1 ∧ a.value = 0 then buf else []
  | _, _ => []

/-- An interrupt. -/
def Event.Interrupts : Event → Prop
  | .key _ => True
  | .tick _ => True
  | .rtc => True
  | _ => False

/-- An orderly run from the entry has reached the state. -/
def InOrder (k : Kernel) : Prop :=
  ∃ ram img k₀, entry ram img = some k₀ ∧ Reaches step Orderly k₀ k

/-- Anything but a call of process `p`, which calls while it runs. -/
structure Others (p : Pid) (w w' : World) : Prop where
  step : ∃ e, w.kernel.Orderly e ∧ w.kernel.step e = some w'.kernel ∧
    (w.kernel.tab.running = some p → e.Interrupts)
  out : w'.out = w.out

/-- The call draws above the screen, and page-faults. -/
def CallFaults (c : UserCall) (k : Kernel) : Prop :=
  ∃ buf, c = .write 1 buf ∧ k.con.WriteFaults buf

/-- A read that waits, from the exit of its driver's loop on. -/
def resumed (fd nbytes : Int) (k : Kernel) : Option (Kernel × Answer) :=
  match (k.callerPcb.fdArray fd).jumpTable with
  | some .terminal =>
    (k.con.terminalReadFinish nbytes).map fun (con, stored, count) =>
      ({ k with con }, ⟨count, stored⟩)
  | some .rtc => if k.rtc.flag k.scheduledTerm then some (k, ⟨0, []⟩) else none
  | _ => none

/-- Process `p` calls while it runs, and goes on with the answer.  Its arguments are found
as they were passed. -/
inductive Acts (p : Pid) (args : Bytes) : UserCall → World → Answer → World → Prop
  | returns {c : UserCall} {w : World} {a : Answer} {k : Kernel} (garbage : Image.Dentry)
      (hruns : w.kernel.tab.running = some p)
      (hanswered : w.kernel.answered garbage c = (k, .value a.value a.stored))
      (hargs : ∀ nbytes, c = .getargs nbytes → w.kernel.tab.args = args)
      (hdrawn : ¬ w.kernel.CallFaults c) :
      Acts p args c w a ⟨k, w.out ++ printed c a⟩
  | waited {fd nbytes : Int} {w w' : World} {a : Answer} {k₁ k : Kernel}
      (hruns : w.kernel.tab.running = some p) (hwaits : w.kernel.read fd nbytes = (k₁, .waits))
      (hothers : Relation.ReflTransGen (Others p) ⟨k₁, w.out⟩ w')
      (hruns' : w'.kernel.tab.running = some p)
      (hdone : w'.kernel.resumed fd nbytes = some (k, a)) :
      Acts p args (.read fd nbytes) w a ⟨k, w'.out⟩

/-- The files of process `p`. -/
def World.files (p : Pid) (w : World) : Files where
  img := w.kernel.img
  table := (w.kernel.tab.pcb p).table
  out := w.out

/-- Process `p` has a slot and a consistent block, in an orderly run. -/
structure World.Holds (p : Pid) (w : World) : Prop where
  inOrder : w.kernel.InOrder
  wellFormed : w.kernel.img.WellFormed
  consistent : (w.kernel.tab.pcb p).Consistent
  slot : w.kernel.tab.pcbArr p = true

theorem InOrder.running {k : Kernel} (h : k.InOrder) : k.tab.running = some k.currPid := by
  obtain ⟨ram, img, k₀, hentry, hrun⟩ := h
  exact (reaches_runs hentry hrun).running

theorem InOrder.step {k k' : Kernel} (h : k.InOrder) {e : Event} (he : k.Orderly e)
    (hstep : k.step e = some k') : k'.InOrder := by
  obtain ⟨ram, img, k₀, hentry, hrun⟩ := h
  exact ⟨ram, img, k₀, hentry, hrun.step he hstep⟩

/-- The process that runs is the one whose descriptors a call finds. -/
theorem World.Holds.currPid {p : Pid} {w : World} (h : w.Holds p)
    (hruns : w.kernel.tab.running = some p) : w.kernel.currPid = p :=
  Option.some.inj (h.inOrder.running.symm.trans hruns)

/-! ### The slot -/

section Slot

variable {k k' : Kernel} {p : Pid} {e : Event}

theorem slot_of_taken (q : Pid) (hp : k.tab.pcbArr p = true) :
    Function.update k.tab.pcbArr q true p = true := by
  by_cases hpq : p = q
  · rw [hpq, Function.update_self]
  · rw [Function.update_of_ne hpq, hp]

theorem slot_of_execute {call : ExecCall} {r : Regs}
    (h : unlessFaults (k.execute call r) = some k') (hp : k.tab.pcbArr p = true) :
    k'.tab.pcbArr p = true := by
  rcases execute_unlessFaults h with ⟨q, image, -, hk⟩ | hrefused
  · show k'.core.pcbArr p = true
    rw [hk, launched_core]
    exact slot_of_taken q hp
  · rw [hrefused.tab]
    exact hp

/-- A halt releases the slot of the current process only. -/
theorem slot_of_halt (hp : k.tab.pcbArr p = true) (hne : p ≠ k.currPid) :
    k.halt.tab.pcbArr p = true := by
  show k.halt.core.pcbArr p = true
  rw [halt_core]
  split
  · exact hp
  · show Function.update k.tab.pcbArr k.currPid false p = true
    rw [Function.update_of_ne hne, hp]

/-- A call that faults takes a free slot and halts the process that is current then. -/
theorem slot_of_faulted {call : ExecCall} {q : Pid} {image : List UInt8}
    (hover : k.Overrunning call q image) (hp : k.tab.pcbArr p = true) (hne : p ≠ k.currPid) :
    (k.faulted call q image).halt.tab.pcbArr p = true := by
  have hcore := faulted_core call q image k
  have hsched := faulted_scheduledTerm call q image k
  generalize k.faulted call q image = j at hcore hsched
  have hpq : p ≠ q := by
    rintro rfl
    have hfree := newestPid_free hover.free
    rw [hp] at hfree
    cases hfree
  refine slot_of_halt ?_ ?_
  · show j.core.pcbArr p = true
    rw [hcore]
    exact slot_of_taken q hp
  · show p ≠ j.core.currPidForTerm j.scheduledTerm
    rw [hcore, hsched]
    show p ≠ Function.update k.tab.currPidForTerm k.con.vid.currentTerminal q k.scheduledTerm
    by_cases hterm : k.scheduledTerm = k.con.vid.currentTerminal
    · rw [hterm, Function.update_self]
      exact hpq
    · rw [Function.update_of_ne hterm]
      exact hne

/-- A process that has a slot is not started. -/
theorem not_restarts_of_slot (hp : k.tab.pcbArr p = true) : ¬ k.Restarts e p := by
  rintro (⟨call, r, rfl, hstarts⟩ | ⟨r, rfl, -, hstarts⟩)
  · obtain ⟨image, hstart⟩ := execute_eq_starts hstarts
    have hfree := newestPid_free hstart.free
    rw [hp] at hfree
    cases hfree
  · have hready : ((k.preempted r).shellReady (k.preempted r).scheduledTerm).tab.pcbArr
        = k.tab.pcbArr := rfl
    obtain ⟨image, hstart⟩ := execute_eq_starts hstarts
    have hfree := newestPid_free hstart.free
    rw [hready, hp] at hfree
    cases hfree

/-- A process keeps its slot until it halts. -/
theorem step_slot (h : k.step e = some k') (hp : k.tab.pcbArr p = true)
    (hcaller : k.currPid = p → e.Interrupts) : k'.tab.pcbArr p = true := by
  by_cases hchooses : e.Chooses
  · cases e with
    | tick r =>
      have htick : k.pitHandler r = some k' := h
      by_cases hwaits : (k.preempted r).WaitsForShell
      · rw [pitHandler_shell hwaits] at htick
        exact slot_of_execute htick hp
      · rw [pitHandler_resume hwaits, Option.some.injEq] at htick
        show k'.core.pcbArr p = true
        rw [← htick, resumed_core]
        exact hp
    | execute call r =>
      by_cases hfaults : (k.execute call r).2 = .faults
      · obtain ⟨q, image, hover⟩ := execute_eq_faults hfaults
        rw [hover.step_eq h]
        exact slot_of_faulted hover hp fun heq => hcaller heq.symm
      · exact slot_of_execute (unlessFaults_of_step hfaults h) hp
    | halt status =>
      have hhalt : k.halt = k' := Option.some.inj h
      rw [← hhalt]
      exact slot_of_halt hp fun heq => hcaller heq.symm
    | _ => exact absurd hchooses id
  · show k'.core.pcbArr p = true
    rw [(aside_step hchooses h).core]
    exact hp

end Slot

/-! ### The other moves -/

variable {p : Pid} {w w' : World}

/-- Whatever else happens leaves the files of the process. -/
theorem Others.files (h : Others p w w') (hw : w.Holds p) :
    w'.Holds p ∧ w'.files p = w.files p := by
  obtain ⟨⟨e, horderly, hstep, hruns⟩, hout⟩ := h
  have hcaller : w.kernel.currPid = p → e.Interrupts := by
    rintro rfl
    exact hruns hw.inOrder.running
  have hrestarts := not_restarts_of_slot (e := e) hw.slot
  have htable : (w'.kernel.tab.pcb p).table = (w.kernel.tab.pcb p).table := by
    by_cases hdesc : e.OnDescriptor
    · have hne : p ≠ w.kernel.currPid := by
        intro heq
        have hinterrupts := hcaller heq.symm
        cases e with
        | read | write | openFile | closeFile => exact hinterrupts
        | _ => exact hdesc
      rw [onDescriptor_pcb_of_ne hdesc hstep hne]
    · obtain ⟨-, hfds⟩ := step_sameTable hdesc hrestarts hstep
      unfold PCB.table
      rw [hfds]
  refine ⟨⟨hw.inOrder.step horderly hstep, (step_img hstep).symm ▸ hw.wellFormed,
    step_consistent hw.wellFormed hrestarts hstep hw.consistent,
    step_slot hstep hw.slot hcaller⟩, ?_⟩
  simp only [World.files, step_img hstep, htable, hout]

/-! ### The calls -/

/-- What `open` looks at in the entry that it finds does not depend on the stack. -/
theorem found_same (img : Image) (fname : Bytes) (old old' : Image.Dentry) :
    (img.readDentryByName fname old).map (fun d => (d.filetype, d.inodeNum))
      = (img.readDentryByName fname old').map (fun d => (d.filetype, d.inodeNum)) := by
  unfold Image.readDentryByName
  split
  · rfl
  · split
    · rfl
    · unfold Image.readDentryByIndex
      split <;> rfl

theorem leastFree_of_isLeastFree {table : Int → Option OpenFile} {fd : Int}
    (h : IsLeastFree table fd) : leastFree table = some fd := by
  obtain ⟨h2, h7, hfree, hfirst⟩ := h
  have hfd : ((fd - 2).toNat : Int) + 2 = fd := by omega
  rw [leastFree, List.find?_map, Option.map_eq_some_iff]
  refine ⟨(fd - 2).toNat, List.find?_range_eq_some.mpr ⟨?_, List.mem_range.mpr (by omega), ?_⟩, hfd⟩
  · simp only [Function.comp_apply, hfd, hfree, Option.isNone_none]
  · intro j hj
    have htaken := hfirst ((j : Int) + 2) (by omega) (by omega)
    simpa [Option.isSome_iff_ne_none] using htaken

theorem leastFree_eq_none {table : Int → Option OpenFile}
    (h : ∀ fd, 2 ≤ fd → fd ≤ 7 → table fd ≠ none) : leastFree table = none := by
  rw [leastFree, List.find?_eq_none]
  intro fd hmem
  obtain ⟨i, hi, rfl⟩ := List.mem_map.mp hmem
  have hlt := List.mem_range.mp hi
  have htaken := h ((i : Int) + 2) (by omega) (by omega)
  simpa [Option.isNone_iff_eq_none] using htaken

/-- The caller's part of the kernel after a call, with the answer. -/
structure Served (k : Kernel) (garbage : Image.Dentry) (c : UserCall) (v : Files) (a : Answer)
    (v' : Files) : Prop where
  answer : (k.answered garbage c).2 = .value a.value a.stored
  img : (k.answered garbage c).1.img = v'.img
  table : ((k.answered garbage c).1.tab.pcb k.currPid).table = v'.table
  out : v'.out = v.out ++ printed c a

section Calls

variable {k : Kernel} {out : List UInt8}

/-- The caller's files. -/
def callerFiles (k : Kernel) (out : List UInt8) : Files :=
  { img := k.img, table := k.callerPcb.table, out }

theorem served_openFile (hwf : k.img.WellFormed) (h : k.callerPcb.Consistent)
    (garbage : Image.Dentry) (fname : Bytes) :
    k.Served garbage (.openFile fname) (k.callerFiles out)
      ((k.callerFiles out).openFile fname).2 ((k.callerFiles out).openFile fname).1 := by
  have hspec := openSpec hwf h fname garbage
  have haside := aside_openFile fname garbage k
  have hafter : (k.openFile fname garbage).1.callerPcb
      = (k.openFile fname garbage).1.tab.pcb k.currPid := callerPcb_of_aside haside
  have hsame := found_same k.img fname garbage noDentry
  by_cases hret : (k.openFile fname garbage).2 = -1
  · have hfails : (k.callerFiles out).openFile fname = (k.callerFiles out, ⟨-1, []⟩) := by
      rcases hspec.fails_iff.mp hret with hnone | htaken
      · rw [hnone, Option.map_none, eq_comm, Option.map_eq_none_iff] at hsame
        simp only [Files.openFile, callerFiles, hsame]
      · have hfull : leastFree (k.callerFiles out).table = none := leastFree_eq_none htaken
        unfold Files.openFile
        rw [hfull]
        split <;> rfl
    rw [hfails]
    refine ⟨congrArg (fun v => Returned.value v []) hret, haside.img, ?_, ?_⟩
    · exact hafter ▸ hspec.unchanged hret
    · simp only [printed, List.append_nil]
  · obtain ⟨dentry, kind, hfound, hkind, htable⟩ := hspec.opened hret
    have hleast := leastFree_of_isLeastFree (hspec.least hret)
    rw [hfound, Option.map_some, eq_comm, Option.map_eq_some_iff] at hsame
    obtain ⟨dentry', hfound', hfields⟩ := hsame
    obtain ⟨htype, hinode⟩ := Prod.mk.inj hfields
    have hopens : (k.callerFiles out).openFile fname =
        ({ img := k.img
           table := Function.update k.callerPcb.table (k.openFile fname garbage).2
             (some { kind, inode := dentry.inodeNum, position := 0 })
           out }, ⟨(k.openFile fname garbage).2, []⟩) := by
      simp only [Files.openFile, callerFiles, hfound', hleast, htype, hinode, hkind,
        Option.map_some]
    rw [hopens]
    refine ⟨rfl, haside.img, hafter ▸ htable, ?_⟩
    simp only [printed, List.append_nil, callerFiles]

theorem served_closeFile (h : k.callerPcb.Consistent) (garbage : Image.Dentry) (fd : Int) :
    k.Served garbage (.closeFile fd) (k.callerFiles out)
      ((k.callerFiles out).closeFile fd).2 ((k.callerFiles out).closeFile fd).1 := by
  have hspec := closeSpec h fd
  have haside := aside_closeFile fd k
  have hafter : (k.closeFile fd).1.callerPcb = (k.closeFile fd).1.tab.pcb k.currPid :=
    callerPcb_of_aside haside
  have hreturns := hspec.returns
  have hclosed := hspec.closed
  rw [hafter] at hclosed
  cases hopen : k.callerPcb.table fd with
  | none =>
    have hfails : (k.callerFiles out).closeFile fd = (k.callerFiles out, ⟨-1, []⟩) := by
      simp only [Files.closeFile, callerFiles, hopen]
    rw [hopen] at hreturns
    rw [← hopen, Function.update_eq_self] at hclosed
    rw [hfails]
    refine ⟨congrArg (fun v => Returned.value v []) hreturns, haside.img, hclosed, ?_⟩
    simp only [printed, List.append_nil]
  | some f =>
    have hcloses : (k.callerFiles out).closeFile fd = ({ k.callerFiles out with
        table := Function.update k.callerPcb.table fd none }, ⟨0, []⟩) := by
      simp only [Files.closeFile, callerFiles, hopen]
    rw [hopen] at hreturns
    rw [hcloses]
    refine ⟨congrArg (fun v => Returned.value v []) hreturns, haside.img, hclosed, ?_⟩
    simp only [printed, List.append_nil]

/-- The descriptor of an open file. -/
def descriptorOf (f : OpenFile) : FileDescriptor where
  jumpTable := some f.kind
  inodeCheck := f.inode
  filePosition := f.position
  flags := full

theorem table_eq_some {pcb : PCB} {fd : Int} {f : OpenFile} (h : pcb.table fd = some f) :
    2 ≤ fd ∧ fd ≤ 7 ∧ pcb.fdArray fd = descriptorOf f := by
  unfold PCB.table at h
  split at h
  · rename_i hin
    obtain ⟨h2, h7, hflags⟩ := hin
    obtain ⟨kind, hkind, hf⟩ := Option.map_eq_some_iff.mp h
    refine ⟨h2, h7, ?_⟩
    rw [← hf, descriptorOf, ← hkind, ← hflags]
  · cases h

theorem table_of_fdArray {pcb : PCB} {fd : Int} {f : OpenFile} (h2 : 2 ≤ fd) (h7 : fd ≤ 7)
    (h : pcb.fdArray fd = descriptorOf f) : pcb.table fd = some f := by
  unfold PCB.table
  rw [h, if_pos ⟨h2, h7, rfl⟩]
  rfl

/-- The table after the position of a descriptor has moved. -/
theorem table_setFd {f : OpenFile} {fd : Int} (h : k.callerPcb.table fd = some f) (position : Int) :
    ((k.setFd fd { k.callerPcb.fdArray fd with filePosition := position }).tab.pcb
      k.currPid).table = Function.update k.callerPcb.table fd (some { f with position }) := by
  obtain ⟨h2, h7, hd⟩ := table_eq_some h
  have hpcb : (k.setFd fd { k.callerPcb.fdArray fd with filePosition := position }).tab.pcb
      k.currPid = k.callerPcb.setPosition fd position := callerPcb_setPcb k _
  rw [hpcb]
  funext fd'
  by_cases hfd : fd' = fd
  · rw [hfd, Function.update_self]
    refine table_of_fdArray h2 h7 ?_
    show Function.update k.callerPcb.fdArray fd _ fd = _
    rw [Function.update_self, hd]
    rfl
  · rw [Function.update_of_ne hfd, PCB.table_setPosition_of_ne hfd]

theorem served_readFile {f f' : OpenFile} {fd nbytes : Int} {a : Answer}
    (h : k.callerPcb.table fd = some f) (hkind : f.kind = .file)
    (hread : f.read k.img nbytes = some (f', a)) :
    (k.readFile fd nbytes).2 = .value a.value a.stored ∧
      ((k.readFile fd nbytes).1.tab.pcb k.currPid).table
        = Function.update k.callerPcb.table fd (some f') := by
  obtain ⟨-, -, hd⟩ := table_eq_some h
  simp only [OpenFile.read, hkind] at hread
  unfold readFile
  simp only [hd, descriptorOf, if_true]
  cases hdata : k.img.readData f.inode f.position
      (if i32 (f.position + nbytes) ≥ k.img.inodeLength f.inode
        then i32 (k.img.inodeLength f.inode - f.position) else nbytes) with
  | none =>
    simp only [hdata, Option.some.injEq, Prod.mk.injEq] at hread
    obtain ⟨rfl, rfl⟩ := hread
    refine ⟨rfl, ?_⟩
    show k.callerPcb.table = _
    rw [← h, Function.update_eq_self]
  | some bytes =>
    simp only [hdata, Option.some.injEq, Prod.mk.injEq] at hread
    obtain ⟨rfl, rfl⟩ := hread
    refine ⟨rfl, ?_⟩
    have hmoved := table_setFd h (f.position + bytes.length)
    simp only [hd, descriptorOf, hkind] at hmoved ⊢
    exact hmoved

theorem served_readDirectory {f f' : OpenFile} {fd nbytes : Int} {a : Answer}
    (h : k.callerPcb.table fd = some f) (hkind : f.kind = .directory)
    (hread : f.read k.img nbytes = some (f', a)) :
    (k.readDirectory fd).2 = .value a.value a.stored ∧
      ((k.readDirectory fd).1.tab.pcb k.currPid).table
        = Function.update k.callerPcb.table fd (some f') := by
  obtain ⟨-, -, hd⟩ := table_eq_some h
  simp only [OpenFile.read, hkind] at hread
  have hmoved := table_setFd h
  simp only [hd, descriptorOf, hkind] at hmoved
  unfold readDirectory
  simp only [hd, descriptorOf, hkind, if_true]
  split at hread
  · rename_i hend
    simp only [Option.some.injEq, Prod.mk.injEq] at hread
    obtain ⟨rfl, rfl⟩ := hread
    rw [if_pos hend]
    exact ⟨rfl, hmoved 0⟩
  · rename_i hin
    simp only [Option.some.injEq, Prod.mk.injEq] at hread
    obtain ⟨rfl, rfl⟩ := hread
    rw [if_neg hin]
    exact ⟨rfl, hmoved _⟩

/-- A read of an open file is one of its driver. -/
theorem read_driver {k : Kernel} {fd : Int} {f : OpenFile} (h : k.callerPcb.table fd = some f)
    (nbytes : Int) :
    (f.kind = .rtc → k.read fd nbytes = k.sti.setCurrPcb.rtcRead) ∧
    (f.kind = .directory → k.read fd nbytes = k.sti.setCurrPcb.readDirectory fd) ∧
    (f.kind = .file → k.read fd nbytes = k.sti.setCurrPcb.readFile fd nbytes) := by
  obtain ⟨h2, h7, hd⟩ := table_eq_some h
  have hcaller : k.sti.setCurrPcb.callerPcb = k.callerPcb := rfl
  unfold read
  rw [if_neg (by omega), if_neg (by omega)]
  simp only [hcaller, hd, descriptorOf, if_true]
  refine ⟨?_, ?_, ?_⟩
  all_goals
    intro hkind
    rw [hkind]

/-- The call is a read of the clock. -/
def ReadsClock (c : UserCall) (v : Files) : Prop :=
  ∃ fd nbytes, c = .read fd nbytes ∧ (v.table fd).map OpenFile.kind = some .rtc

theorem served_read (h : k.callerPcb.Consistent) (garbage : Image.Dentry) {fd nbytes : Int}
    {a : Answer} {v' : Files} (hread : (k.callerFiles out).read fd nbytes = some (v', a))
    (hclock : ¬ ReadsClock (.read fd nbytes) (k.callerFiles out)) :
    k.Served garbage (.read fd nbytes) (k.callerFiles out) a v' := by
  have haside := aside_read fd nbytes k
  unfold Files.read at hread
  cases hopen : k.callerPcb.table fd with
  | none =>
    have hfiles : (k.callerFiles out).table fd = none := hopen
    rw [hfiles] at hread
    dsimp only at hread
    split at hread
    · cases hread
    · rename_i hzero
      simp only [Option.some.injEq, Prod.mk.injEq] at hread
      obtain ⟨rfl, rfl⟩ := hread
      have hsame : k.read fd nbytes = ((k.read fd nbytes).1, .value (-1) []) ∧
          (k.read fd nbytes).1.tab.pcb = k.tab.pcb := by
        unfold read
        split
        · exact ⟨rfl, rfl⟩
        · split
          · exact ⟨rfl, rfl⟩
          · have hflags := h.flags_ne_full (by omega) (by omega) hopen
            have hcaller : k.sti.setCurrPcb.callerPcb = k.callerPcb := rfl
            dsimp only
            rw [hcaller, if_neg hflags]
            exact ⟨rfl, rfl⟩
      refine ⟨congrArg Prod.snd hsame.1, haside.img, ?_, ?_⟩
      · show ((k.read fd nbytes).1.tab.pcb k.currPid).table = _
        rw [hsame.2]
        rfl
      · simp only [printed, List.append_nil]
  | some f =>
    have hfiles : (k.callerFiles out).table fd = some f := hopen
    rw [hfiles] at hread
    obtain ⟨⟨f', a'⟩, hfile, hresult⟩ := Option.map_eq_some_iff.mp hread
    obtain ⟨rfl, rfl⟩ := Prod.mk.inj hresult
    obtain ⟨-, hdirectory, hregular⟩ := read_driver hopen nbytes
    have hserved : (k.read fd nbytes).2 = .value a'.value a'.stored ∧
        ((k.read fd nbytes).1.tab.pcb k.currPid).table
          = Function.update k.callerPcb.table fd (some f') := by
      cases hkind : f.kind with
      | terminal => simp only [OpenFile.read, hkind, reduceCtorEq] at hfile
      | rtc => exact absurd ⟨fd, nbytes, rfl, by rw [hfiles, Option.map_some, hkind]⟩ hclock
      | directory =>
        rw [hdirectory hkind]
        exact served_readDirectory (k := k.sti.setCurrPcb) hopen hkind hfile
      | file =>
        rw [hregular hkind]
        exact served_readFile (k := k.sti.setCurrPcb) hopen hkind hfile
    refine ⟨hserved.1, haside.img, hserved.2, ?_⟩
    simp only [printed, List.append_nil]

/-- The value of `rtc_write` depends on its argument only. -/
theorem rtcWrite_value (t t' : Term) (value nbytes : Int) (r r' : Rtc) :
    (r.rtcWrite t value nbytes).2 = (r'.rtcWrite t' value nbytes).2 := by
  simp only [Rtc.rtcWrite, apply_ite Prod.snd]

theorem served_write (h : k.callerPcb.Consistent) (garbage : Image.Dentry) {fd : Int}
    {buf : List UInt8} {a : Answer} {v' : Files}
    (hwrite : (k.callerFiles out).write fd buf = some (v', a)) :
    k.Served garbage (.write fd buf) (k.callerFiles out) a v' := by
  have haside := aside_write fd buf k
  have htable : ((k.write fd buf).1.tab.pcb k.currPid).table = k.callerPcb.table := by
    rw [write_pcb]
    rfl
  have hcaller : k.sti.setCurrPcb.callerPcb = k.callerPcb := rfl
  unfold Files.write at hwrite
  by_cases hone : fd = 1
  · rw [if_pos hone] at hwrite
    simp only [Option.some.injEq, Prod.mk.injEq] at hwrite
    obtain ⟨rfl, rfl⟩ := hwrite
    obtain ⟨hflags, hdriver⟩ := h.standard fd (Or.inr hone)
    have hvalue : (k.write fd buf).2 = if buf = [] then -1 else 0 := by
      unfold write
      dsimp only
      rw [if_neg (by omega), hcaller, if_pos hflags, hdriver]
      unfold Console.terminalWrite
      by_cases hbuf : buf = []
      · simp only [hbuf, if_true]
      · simp only [hbuf, if_false]
    refine ⟨congrArg (fun v => Returned.value v []) hvalue, haside.img, htable, ?_⟩
    by_cases hbuf : buf = []
    · simp [printed, hbuf, callerFiles]
    · simp [printed, hbuf, hone, callerFiles]
  · rw [if_neg hone] at hwrite
    have hresult : v' = k.callerFiles out ∧ a = ⟨(k.write fd buf).2, []⟩ := by
      cases hopen : k.callerPcb.table fd with
      | none =>
        have hfiles : (k.callerFiles out).table fd = none := hopen
        have hvalue : (k.write fd buf).2 = -1 := by
          by_cases hin : fd ≤ 0 ∨ fd > 7
          · unfold write
            dsimp only
            rw [if_pos hin]
          · have hflags := h.flags_ne_full (by omega) (by omega) hopen
            exact write_eq_fails (Or.inr (Or.inr hflags)) buf
        rw [hfiles] at hwrite
        obtain ⟨hv, ha⟩ := Prod.mk.inj (Option.some.inj hwrite)
        rw [hvalue]
        exact ⟨hv.symm, ha.symm⟩
      | some f =>
        have hfiles : (k.callerFiles out).table fd = some f := hopen
        obtain ⟨h2, h7, hd⟩ := table_eq_some hopen
        rw [hfiles, Option.map_some] at hwrite
        unfold write
        dsimp only
        rw [if_neg (by omega), hcaller, hd, if_pos (show (descriptorOf f).flags = full from rfl)]
        rw [show (descriptorOf f).jumpTable = some f.kind from rfl]
        cases hkind : f.kind with
        | terminal =>
          rw [hkind] at hwrite
          cases hwrite
        | rtc =>
          rw [hkind] at hwrite
          obtain ⟨hv, ha⟩ := Prod.mk.inj (Option.some.inj hwrite)
          rw [← hv, ← ha]
          exact ⟨rfl, congrArg (fun v => Answer.mk v []) (rtcWrite_value ..)⟩
        | directory =>
          rw [hkind] at hwrite
          obtain ⟨hv, ha⟩ := Prod.mk.inj (Option.some.inj hwrite)
          exact ⟨hv.symm, ha.symm⟩
        | file =>
          rw [hkind] at hwrite
          obtain ⟨hv, ha⟩ := Prod.mk.inj (Option.some.inj hwrite)
          exact ⟨hv.symm, ha.symm⟩
    obtain ⟨rfl, rfl⟩ := hresult
    refine ⟨rfl, haside.img, htable, ?_⟩
    simp only [printed, hone, false_and, if_false, List.append_nil]

/-- A call that a process alone has answered. -/
theorem served (hwf : k.img.WellFormed) (h : k.callerPcb.Consistent) (garbage : Image.Dentry)
    {args : Bytes} {c : UserCall} {v' : Files} {a : Answer}
    (hargs : ∀ nbytes, c = .getargs nbytes → k.tab.args = args)
    (hserve : Files.serve args c (k.callerFiles out) = some (v', a))
    (hclock : ¬ ReadsClock c (k.callerFiles out)) :
    k.Served garbage c (k.callerFiles out) a v' := by
  cases c with
  | getargs nbytes =>
    simp only [Files.serve, Option.some.injEq, Prod.mk.injEq] at hserve
    obtain ⟨rfl, rfl⟩ := hserve
    refine ⟨?_, rfl, rfl, ?_⟩
    · simp only [answered, hargs nbytes rfl]
    · simp only [printed, List.append_nil]
  | openFile fname =>
    have hresult : (k.callerFiles out).openFile fname = (v', a) := Option.some.inj hserve
    have hopened : k.Served garbage (.openFile fname) (k.callerFiles out) _ _ :=
      served_openFile hwf h garbage fname
    rw [hresult] at hopened
    exact hopened
  | closeFile fd =>
    have hresult : (k.callerFiles out).closeFile fd = (v', a) := Option.some.inj hserve
    have hclosed : k.Served garbage (.closeFile fd) (k.callerFiles out) _ _ :=
      served_closeFile h garbage fd
    rw [hresult] at hclosed
    exact hclosed
  | read fd nbytes => exact served_read h garbage hserve hclock
  | write fd buf => exact served_write h garbage hserve

theorem orderly_callEvent (garbage : Image.Dentry) (c : UserCall) (k : Kernel) :
    k.Orderly (callEvent garbage c) := by
  cases c <;> exact orderly_of_ne (by rintro _ _ ⟨⟩) trivial

/-- The calls choose no process. -/
theorem callEvent_not_chooses (garbage : Image.Dentry) (c : UserCall) :
    ¬ (callEvent garbage c).Chooses := by
  cases c <;> exact id

end Calls

theorem World.files_eq (h : w.kernel.currPid = p) : w.files p = w.kernel.callerFiles w.out := by
  rw [← h]
  rfl

theorem World.Holds.callerPcb (h : w.Holds p) (hcurrent : w.kernel.currPid = p) :
    w.kernel.callerPcb.Consistent := by
  show (w.kernel.tab.pcb w.kernel.currPid).Consistent
  rw [hcurrent]
  exact h.consistent

/-- A call that a process alone has answered is answered when the process runs. -/
theorem World.Holds.acts (h : w.Holds p) (hruns : w.kernel.tab.running = some p) {args : Bytes}
    {c : UserCall} {v' : Files} {a : Answer}
    (hargs : ∀ nbytes, c = .getargs nbytes → w.kernel.tab.args = args)
    (hserve : Files.serve args c (w.files p) = some (v', a))
    (hclock : ¬ ReadsClock c (w.files p)) (hdrawn : ¬ w.kernel.CallFaults c) :
    Acts p args c w a ⟨(w.kernel.answered noDentry c).1, w.out ++ printed c a⟩ := by
  have hcurrent := h.currPid hruns
  rw [World.files_eq hcurrent] at hserve hclock
  have hserved := served h.wellFormed (h.callerPcb hcurrent) noDentry hargs hserve hclock
  exact .returns noDentry hruns (Prod.ext rfl hserved.answer) hargs hdrawn

theorem World.Holds.call {w : World} (h : w.Holds p) (garbage : Image.Dentry) (c : UserCall)
    (out : List UInt8) : World.Holds p ⟨(w.kernel.answered garbage c).1, out⟩ := by
  have hstep := step_callEvent garbage c w.kernel
  have haside := aside_step (callEvent_not_chooses garbage c) hstep
  refine ⟨h.inOrder.step (orderly_callEvent garbage c w.kernel) hstep,
    haside.img.symm ▸ h.wellFormed, ?_, ?_⟩
  · exact step_consistent h.wellFormed (not_restarts_of_slot h.slot) hstep h.consistent
  · show (w.kernel.answered garbage c).1.core.pcbArr p = true
    rw [haside.core]
    exact h.slot

theorem Others.files_star (h : Relation.ReflTransGen (Others p) w w') (hw : w.Holds p) :
    w'.Holds p ∧ w'.files p = w.files p := by
  induction h with
  | refl => exact ⟨hw, rfl⟩
  | tail _ hother ih =>
    obtain ⟨hok, hfiles⟩ := ih
    obtain ⟨hok', hfiles'⟩ := Others.files hother hok
    exact ⟨hok', hfiles'.trans hfiles⟩

/-- The answer of a call that returns at once. -/
theorem World.Holds.returns {args : Bytes} {c : UserCall} {a a' : Answer} {k : Kernel} {v' : Files}
    (h : w.Holds p) (garbage : Image.Dentry) (hcurrent : w.kernel.currPid = p)
    (hanswered : w.kernel.answered garbage c = (k, .value a.value a.stored))
    (hargs : ∀ nbytes, c = .getargs nbytes → w.kernel.tab.args = args)
    (hserve : Files.serve args c (w.files p) = some (v', a'))
    (hclock : ¬ ReadsClock c (w.files p)) :
    World.Holds p ⟨k, w.out ++ printed c a⟩ ∧
      World.files p ⟨k, w.out ++ printed c a⟩ = v' ∧ a = a' := by
  rw [World.files_eq hcurrent] at hserve hclock
  have hserved := served h.wellFormed (h.callerPcb hcurrent) garbage hargs hserve hclock
  obtain ⟨hanswer, himg, htable, hprinted⟩ := hserved
  rw [hanswered] at hanswer himg htable
  obtain ⟨hvalue, hstored⟩ := Returned.value.inj hanswer
  have ha : a = a' := by
    cases a
    cases a'
    simp only [Answer.mk.injEq]
    exact ⟨hvalue, hstored⟩
  have hkept := h.call garbage c (w.out ++ printed c a)
  rw [hanswered] at hkept
  refine ⟨hkept, ?_, ha⟩
  rw [hcurrent] at htable
  rw [World.files, himg, htable, ha]
  exact congrArg (Files.mk v'.img v'.table) hprinted.symm

/-- The answer of a read that waits. -/
theorem World.Holds.waited {args : Bytes} {fd nbytes : Int} {a a' : Answer} {k₁ k : Kernel}
    {v' : Files} (h : w.Holds p) (hruns : w.kernel.tab.running = some p)
    (hwaits : w.kernel.read fd nbytes = (k₁, .waits))
    (hothers : Relation.ReflTransGen (Others p) ⟨k₁, w.out⟩ w')
    (hruns' : w'.kernel.tab.running = some p)
    (hdone : w'.kernel.resumed fd nbytes = some (k, a))
    (hserve : Files.serve args (.read fd nbytes) (w.files p) = some (v', a')) :
    World.Holds p ⟨k, w'.out⟩ ∧ World.files p ⟨k, w'.out⟩ = v' ∧ a = a' := by
  have hcurrent := h.currPid hruns
  have hclock : ReadsClock (.read fd nbytes) (w.files p) := by
    by_contra hother
    rw [World.files_eq hcurrent] at hserve hother
    have hserved := served_read (h.callerPcb hcurrent) noDentry hserve hother
    have hanswer : (w.kernel.read fd nbytes).2 = .value a'.value a'.stored := hserved.answer
    rw [hwaits] at hanswer
    cases hanswer
  obtain ⟨_, _, hcall, hkind⟩ := hclock
  obtain ⟨rfl, rfl⟩ := UserCall.read.inj hcall
  obtain ⟨f, hf, hkind⟩ := Option.map_eq_some_iff.mp hkind
  have hserved : v' = w.files p ∧ a' = ⟨0, []⟩ := by
    simp only [Files.serve, Files.read, hf, OpenFile.read, hkind, Option.map_some,
      Option.some.injEq, Prod.mk.injEq] at hserve
    obtain ⟨rfl, rfl⟩ := hserve
    refine ⟨?_, rfl⟩
    rw [← hf, Function.update_eq_self]
  have hcaller : w.kernel.callerPcb.table fd = some f := by
    rw [World.files_eq hcurrent] at hf
    exact hf
  have hk₁ : k₁ = (w.kernel.sti.setCurrPcb.rtcRead).1 := by
    rw [← (read_driver hcaller nbytes).1 hkind, hwaits]
  have hwaiting : World.Holds p ⟨k₁, w.out⟩ ∧ World.files p ⟨k₁, w.out⟩ = w.files p := by
    have hread : w.kernel.step (.read fd nbytes) = some k₁ :=
      congrArg (fun x : Kernel × Returned => some x.1) hwaits
    have horderly : w.kernel.Orderly (.read fd nbytes) := orderly_of_ne (by rintro _ _ ⟨⟩) trivial
    have hreading := h.inOrder.step horderly hread
    rw [hk₁] at hreading ⊢
    exact ⟨⟨hreading, h.wellFormed, h.consistent, h.slot⟩, rfl⟩
  obtain ⟨hholds, hfiles⟩ := Others.files_star hothers hwaiting.1
  rw [hwaiting.2] at hfiles
  have hcurrent' := hholds.currPid hruns'
  have hcaller' : w'.kernel.callerPcb.table fd = some f := by
    rw [← hf, ← hfiles, World.files_eq hcurrent']
    rfl
  obtain ⟨-, -, hd⟩ := table_eq_some hcaller'
  have hflag : k = w'.kernel ∧ a = ⟨0, []⟩ := by
    rw [resumed, hd, show (descriptorOf f).jumpTable = some .rtc from congrArg some hkind] at hdone
    dsimp only at hdone
    split at hdone
    · simp only [Option.some.injEq, Prod.mk.injEq] at hdone
      exact ⟨hdone.1.symm, hdone.2.symm⟩
    · cases hdone
  obtain ⟨rfl, rfl⟩ := hflag
  obtain ⟨rfl, rfl⟩ := hserved
  exact ⟨hholds, hfiles, rfl⟩

/-- What a process has when it starts. -/
def startFiles (img : Image) : Files := { img, table := fun _ => none, out := [] }

/-- The kernel when a call of `execute` in an orderly run has started a process. -/
structure Created (p : Pid) (k : Kernel) : Prop where
  wellFormed : k.img.WellFormed
  started : ∃ j call r, InOrder j ∧ j.Orderly (.execute call r) ∧
    Kernel.execute call r j = (k, .starts p)

theorem Created.holds {k : Kernel} (h : Created p k) :
    World.Holds p ⟨k, []⟩ ∧ World.files p ⟨k, []⟩ = startFiles k.img := by
  obtain ⟨hwf, j, call, r, hinOrder, horderly, hcreated⟩ := h
  have hreached : k.InOrder := hinOrder.step horderly (step_starts hcreated)
  obtain ⟨image, hstart⟩ := execute_eq_starts (congrArg Prod.snd hcreated)
  have hk : j.launched call p image r = k := by
    rw [execute_starts hstart] at hcreated
    exact congrArg Prod.fst hcreated
  refine ⟨⟨hreached, hwf, ?_, ?_⟩, ?_⟩
  · show (k.tab.pcb p).Consistent
    rw [← hk]
    exact launched_consistent call p image r j
  · show k.core.pcbArr p = true
    rw [← hk, launched_core]
    exact Function.update_self ..
  · show Files.mk k.img (k.tab.pcb p).table [] = startFiles k.img
    rw [← hk, launched_table]
    rfl

/-- Process `p` of terminal `t` runs, and nothing has been drawn above the screen. -/
structure OnScreen (t : Term) (p : Pid) (k : Kernel) : Prop where
  inOrder : k.InOrder
  up : k.ShellsUp
  done : k.core.doneInstantiating = true
  scheduledTerm : k.scheduledTerm = t
  currPid : k.core.currPidForTerm t = p
  inRange : k.con.vid.InRange

section OnScreen

variable {t : Term} {k k' : Kernel}

theorem OnScreen.running (h : OnScreen t p k) : k.tab.running = some p := by
  have hcurr : k.currPid = p := by
    show k.core.currPidForTerm k.scheduledTerm = p
    rw [h.scheduledTerm, h.currPid]
  rw [h.inOrder.running, hcurr]

/-- A timer interrupt that changes no display. -/
theorem resume_con_done (h : k.core.doneInstantiating = true) (r : Regs) :
    (k.preempted r).resume.con = k.con.nextTerminal := by
  have hdone : (k.preempted r).tab.doneInstantiating = true := h
  unfold resume
  dsimp only
  rw [if_pos hdone]
  rfl

/-- A timer interrupt on the stack of the running process. -/
theorem OnScreen.tick (h : OnScreen t p k) : ∃ k', Others q ⟨k, []⟩ ⟨k', []⟩ ∧
    k'.core.currPidForTerm = k.core.currPidForTerm ∧
    OnScreen (t + 1) (k.core.currPidForTerm (t + 1)) k' := by
  obtain ⟨r, hr⟩ : ∃ r, k.OnKernelStack r := by
    obtain ⟨ram, img, k₀, hentry, hrun⟩ := h.inOrder
    have hstack : k.tab.tssEsp0 = mb8 - kb8 * k.currPid := (reaches_runs hentry hrun).stack
    have hmb8 : mb8 = 0x800000 := rfl
    have hkb8 : kb8 = 0x2000 := rfl
    have hlt := k.currPid.isLt
    refine ⟨{ ebp := 0, esp := k.tab.tssEsp0 - 64 }, ?_⟩
    unfold OnKernelStack
    dsimp only
    rw [hstack, hmb8, hkb8]
    omega
  have hcore := resumed_core r k
  have hstep : k.step (.tick r) = some (k.preempted r).resume :=
    pitHandler_resume (not_waitsForShell h.up r)
  have hcon := resume_con_done h.done r
  have hterm : (k.preempted r).resume.scheduledTerm = t + 1 := by simp [h.scheduledTerm]
  have hinOrder := h.inOrder.step (orderly_tick hr) hstep
  rw [h.scheduledTerm] at hcore
  generalize (k.preempted r).resume = k' at *
  have hcurr : k'.core.currPidForTerm = k.core.currPidForTerm := by
    rw [hcore]
    rfl
  refine ⟨k', ⟨⟨_, orderly_tick hr, hstep, fun _ => trivial⟩, rfl⟩, hcurr, hinOrder,
    step_shellsUp h.up hstep, ?_, hterm, ?_, ?_⟩
  · rw [hcore]
    rfl
  · rw [hcore]
    rfl
  · rw [hcon]
    intro u
    unfold Console.nextTerminal
    dsimp only
    rw [Video.screenOf_setPagingScheduling]
    exact h.inRange u

/-- An event that leaves the tables and the cursors. -/
theorem OnScreen.aside (h : OnScreen t p k) {e : Event} (he : k.Orderly e)
    (hstep : k.step e = some k') (hchooses : ¬ e.Chooses) (hrange : k'.con.vid.InRange) :
    OnScreen t p k' ∧ k'.core = k.core := by
  have haside := aside_step hchooses hstep
  refine ⟨⟨h.inOrder.step he hstep, step_shellsUp h.up hstep, ?_, ?_, ?_, hrange⟩, haside.core⟩
  · rw [haside.core]
    exact h.done
  · exact haside.scheduledTerm.trans h.scheduledTerm
  · rw [haside.core]
    exact h.currPid

end OnScreen

end Kernel

end StudentDistrib
