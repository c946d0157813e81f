import StudentDistrib.Console.Lines
import StudentDistrib.Files.Data
import StudentDistrib.Kernel.Core

/-!
# What `execute` and the timer do

A call of `execute` either starts a program, is refused with nothing changed but
the argument buffer, or faults and halts a process.  A timer interrupt either
starts the shell of the terminal that it schedules or resumes that terminal's
process.
-/

namespace StudentDistrib

open Machine

namespace Kernel

/-! ## Free slots -/

theorem newestPid_free {pcbArr : Pid → Bool} {p : Pid} (h : newestPid pcbArr = some p) :
    pcbArr p = false := by
  have hp := List.find?_some h
  simpa using hp

/-! ## The exits of `execute` -/

@[simp] theorem setArgs_img (args : Bytes) (k : Kernel) : (k.setArgs args).img = k.img := rfl

@[simp] theorem setArgs_pcbArr (args : Bytes) (k : Kernel) :
    (k.setArgs args).tab.pcbArr = k.tab.pcbArr := rfl

@[simp] theorem allocate_img (p : Pid) (k : Kernel) : (k.allocate p).img = k.img := rfl

section Exits

variable {k : Kernel} {call : ExecCall} {command : CString} {dentry : Image.Dentry} {p : Pid}

theorem execute_null (hcommand : call.command = none) (r : Regs) :
    k.execute call r = (k, .returns (-1)) := by
  simp only [execute, hcommand]

/-- A call with a command that names no program. -/
theorem execute_missing (hcommand : call.command = some command)
    (hnone : k.img.readDentryByName (firstWord command call.stack) call.garbage = none) (r : Regs) :
    k.execute call r = (k.setArgs (parseArgs command), .returns (-1)) := by
  simp only [execute, hcommand, setArgs_img, hnone]

theorem execute_noSlot (hcommand : call.command = some command)
    (hfound : k.img.readDentryByName (firstWord command call.stack) call.garbage = some dentry)
    (hfree : newestPid k.tab.pcbArr = none) (r : Regs) :
    k.execute call r = ({ k.setArgs (parseArgs command) with con := { k.con with
      vid := k.con.vid.printf k.con.kb.bufIdx noSlotMessage } }, .returns 0) := by
  simp only [execute, hcommand, setArgs_img, hfound, setArgs_pcbArr, hfree]
  rfl

theorem execute_notProgram (hcommand : call.command = some command)
    (hfound : k.img.readDentryByName (firstWord command call.stack) call.garbage = some dentry)
    (hfree : newestPid k.tab.pcbArr = some p)
    (hhead : k.img.readData dentry.inodeNum 0 4 ≠ some elfMagic) (r : Regs) :
    k.execute call r = (k.setArgs (parseArgs command), .returns (-1)) := by
  simp only [execute, hcommand, setArgs_img, hfound, setArgs_pcbArr, hfree]
  cases hread : k.img.readData dentry.inodeNum 0 4 with
  | none => rfl
  | some buf =>
    have hne : buf ≠ elfMagic := fun h => hhead (hread.trans (congrArg some h))
    exact if_pos hne

theorem execute_program (hcommand : call.command = some command)
    (hfound : k.img.readDentryByName (firstWord command call.stack) call.garbage = some dentry)
    (hfree : newestPid k.tab.pcbArr = some p)
    (hhead : k.img.readData dentry.inodeNum 0 4 = some elfMagic) (r : Regs) :
    k.execute call r = (k.setArgs (parseArgs command)).startProgram p dentry.inodeNum r := by
  simp only [execute, hcommand, setArgs_img, hfound, setArgs_pcbArr, hfree, hhead]
  exact if_neg (not_not.mpr rfl)

/-- A call with a command changes no table but `args`, or it comes to the allocation. -/
theorem execute_tab (hcommand : call.command = some command) (r : Regs) :
    (k.execute call r).1.tab = (k.setArgs (parseArgs command)).tab ∨ ∃ dentry p,
      k.img.readDentryByName (firstWord command call.stack) call.garbage = some dentry ∧
      newestPid k.tab.pcbArr = some p ∧
      k.img.readData dentry.inodeNum 0 4 = some elfMagic ∧
      k.execute call r = (k.setArgs (parseArgs command)).startProgram p dentry.inodeNum r := by
  cases hfound : k.img.readDentryByName (firstWord command call.stack) call.garbage with
  | none =>
    rw [execute_missing hcommand hfound]
    exact Or.inl rfl
  | some dentry =>
    cases hfree : newestPid k.tab.pcbArr with
    | none =>
      rw [execute_noSlot hcommand hfound hfree]
      exact Or.inl rfl
    | some p =>
      by_cases hhead : k.img.readData dentry.inodeNum 0 4 = some elfMagic
      · exact Or.inr ⟨dentry, p, rfl, rfl, hhead, execute_program hcommand hfound hfree hhead r⟩
      · rw [execute_notProgram hcommand hfound hfree hhead]
        exact Or.inl rfl

theorem startProgram_fits {inode : Int} {image : List UInt8}
    (himage : k.img.readData inode 0 0x400000 = some image)
    (hfits : image.length ≤ loadRoom) (r : Regs) : k.startProgram p inode r =
      (((k.allocate p).loadImage p image).launch p r, .starts p) := by
  simp only [startProgram, allocate_img, himage]
  exact if_neg (Nat.not_lt.mpr hfits)

theorem startProgram_faults {inode : Int} {image : List UInt8}
    (himage : k.img.readData inode 0 0x400000 = some image)
    (hlong : loadRoom < image.length) (r : Regs) : k.startProgram p inode r =
      ((k.allocate p).loadImage p (image.take loadRoom), .faults) := by
  simp only [startProgram, allocate_img, himage]
  exact if_pos hlong

/-- Behind the allocation the image can be read: it has the inode of the magic number. -/
theorem readData_image {img : Image} {inode : Int} {buf : List UInt8}
    (hhead : img.readData inode 0 4 = some buf) :
    ∃ image, img.readData inode 0 0x400000 = some image := by
  refine Option.ne_none_iff_exists'.mp fun himage => ?_
  rw [Image.readData_eq_none_iff, ← Image.readData_eq_none_iff img _ 0 4, hhead] at himage
  exact absurd himage (Option.some_ne_none _)

end Exits

/-! ## What a call does -/

/-- The buffer `args` after a call of `execute`. -/
def ExecCall.argsAfter (call : ExecCall) (args : Bytes) : Bytes :=
  match call.command with
  | none => args
  | some command => parseArgs command

/-- The command names an executable, of which `read_data` delivers `image`. -/
def Loads (k : Kernel) (call : ExecCall) (image : List UInt8) : Prop :=
  ∃ command dentry, call.command = some command ∧
    k.img.readDentryByName (firstWord command call.stack) call.garbage = some dentry ∧
    k.img.readData dentry.inodeNum 0 4 = some elfMagic ∧
    k.img.readData dentry.inodeNum 0 0x400000 = some image

/-- The call starts process `p` from `image`. -/
structure Starting (k : Kernel) (call : ExecCall) (p : Pid) (image : List UInt8) : Prop where
  found : k.Loads call image
  free : newestPid k.tab.pcbArr = some p
  fits : image.length ≤ loadRoom

/-- The call takes slot `p` for an image that does not fit the mapped pages. -/
structure Overrunning (k : Kernel) (call : ExecCall) (p : Pid) (image : List UInt8) : Prop where
  found : k.Loads call image
  free : newestPid k.tab.pcbArr = some p
  long : loadRoom < image.length

/-- The kernel when the program starts. -/
def launched (call : ExecCall) (p : Pid) (image : List UInt8) (r : Regs) (k : Kernel) : Kernel :=
  (((k.setArgs (call.argsAfter k.tab.args)).allocate p).loadImage p image).launch p r

/-- The kernel when the copy faults. -/
def overrun (call : ExecCall) (p : Pid) (image : List UInt8) (k : Kernel) : Kernel :=
  ((k.setArgs (call.argsAfter k.tab.args)).allocate p).loadImage p (image.take loadRoom)

/-- The call returns with nothing changed but `args` and what it printed. -/
structure Refused (k : Kernel) (call : ExecCall) (k' : Kernel) : Prop where
  tab : k'.tab = { k.tab with args := call.argsAfter k.tab.args }
  rtc : k'.rtc = k.rtc
  img : k'.img = k.img
  kb : k'.con.kb = k.con.kb
  selection : k'.con.vid.selection = k.con.vid.selection

theorem execute_starts {k : Kernel} {call : ExecCall} {p : Pid} {image : List UInt8}
    (h : k.Starting call p image) (r : Regs) :
    k.execute call r = (k.launched call p image r, .starts p) := by
  obtain ⟨⟨command, dentry, hcommand, hfound, helf, himage⟩, hfree, hfits⟩ := h
  have hargs : call.argsAfter k.tab.args = parseArgs command := by
    simp only [ExecCall.argsAfter, hcommand]
  rw [execute_program hcommand hfound hfree helf,
    startProgram_fits (k := k.setArgs (parseArgs command)) himage hfits, launched, hargs]

theorem execute_overruns {k : Kernel} {call : ExecCall} {p : Pid} {image : List UInt8}
    (h : k.Overrunning call p image) (r : Regs) :
    k.execute call r = (k.overrun call p image, .faults) := by
  obtain ⟨⟨command, dentry, hcommand, hfound, helf, himage⟩, hfree, hlong⟩ := h
  have hargs : call.argsAfter k.tab.args = parseArgs command := by
    simp only [ExecCall.argsAfter, hcommand]
  rw [execute_program hcommand hfound hfree helf,
    startProgram_faults (k := k.setArgs (parseArgs command)) himage hlong, overrun, hargs]

/-- What a call of `execute` can do. -/
theorem execute_cases (call : ExecCall) (r : Regs) (k : Kernel) :
    (∃ p image, k.Starting call p image) ∨
    (∃ v, (k.execute call r).2 = .returns v ∧ k.Refused call (k.execute call r).1) ∨
    (∃ p image, k.Overrunning call p image) := by
  cases hcommand : call.command with
  | none =>
    have hargs : call.argsAfter k.tab.args = k.tab.args := by
      simp only [ExecCall.argsAfter, hcommand]
    rw [execute_null hcommand]
    exact Or.inr (Or.inl ⟨-1, rfl, by rw [hargs], rfl, rfl, rfl, rfl⟩)
  | some command =>
    have hargs : call.argsAfter k.tab.args = parseArgs command := by
      simp only [ExecCall.argsAfter, hcommand]
    have hrefused : k.Refused call (k.setArgs (parseArgs command)) :=
      ⟨by rw [hargs]; rfl, rfl, rfl, rfl, rfl⟩
    cases hfound : k.img.readDentryByName (firstWord command call.stack) call.garbage with
    | none =>
      rw [execute_missing hcommand hfound]
      exact Or.inr (Or.inl ⟨-1, rfl, hrefused⟩)
    | some dentry =>
      cases hfree : newestPid k.tab.pcbArr with
      | none =>
        rw [execute_noSlot hcommand hfound hfree]
        refine Or.inr (Or.inl ⟨0, rfl, hrefused.tab, rfl, rfl, rfl, ?_⟩)
        exact Video.printf_selection _ _ _
      | some p =>
        by_cases hhead : k.img.readData dentry.inodeNum 0 4 = some elfMagic
        · obtain ⟨image, himage⟩ := readData_image hhead
          have hloads : k.Loads call image := ⟨command, dentry, hcommand, hfound, hhead, himage⟩
          by_cases hfits : image.length ≤ loadRoom
          · exact Or.inl ⟨p, image, hloads, hfree, hfits⟩
          · exact Or.inr (Or.inr ⟨p, image, hloads, hfree, Nat.lt_of_not_le hfits⟩)
        · rw [execute_notProgram hcommand hfound hfree hhead]
          exact Or.inr (Or.inl ⟨-1, rfl, hrefused⟩)

/-- A call starts `p` exactly where the image and the slots let it. -/
theorem execute_eq_starts {k : Kernel} {call : ExecCall} {r : Regs} {p : Pid}
    (h : (k.execute call r).2 = .starts p) : ∃ image, k.Starting call p image := by
  rcases execute_cases call r k with ⟨q, image, hstart⟩ | ⟨v, hv, -⟩ | ⟨q, image, hover⟩
  · rw [execute_starts hstart] at h
    cases h
    exact ⟨image, hstart⟩
  · rw [hv] at h
    cases h
  · rw [execute_overruns hover] at h
    cases h

theorem Starting.startsProgram {k : Kernel} {call : ExecCall} {p : Pid} {image : List UInt8}
    (h : k.Starting call p image) (r : Regs) : k.StartsProgram (.execute call r) p :=
  ⟨call, r, rfl, congrArg Prod.snd (execute_starts h r)⟩

theorem Overrunning.overruns {k : Kernel} {call : ExecCall} {p : Pid} {image : List UInt8}
    (h : k.Overrunning call p image) (r : Regs) : k.Overruns (.execute call r) :=
  ⟨call, r, rfl, congrArg Prod.snd (execute_overruns h r)⟩

theorem launched_core (call : ExecCall) (p : Pid) (image : List UInt8) (r : Regs) (k : Kernel) :
    (k.launched call p image r).core
      = k.core.launch k.con.vid.currentTerminal p r (call.argsAfter k.tab.args) := by
  have hcaller : (Function.update k.tab.parentPidForTerm k.con.vid.currentTerminal
      (k.tab.currPidForTerm k.con.vid.currentTerminal)) k.con.vid.currentTerminal
        = k.tab.currPidForTerm k.con.vid.currentTerminal := Function.update_self ..
  unfold launched launch
  dsimp only [loadImage, allocate, setArgs]
  rw [Video.vidmapCopy_currentTerminal, hcaller]
  cases hbase : isBase p with
  | true =>
    ext1
    case parent =>
      unfold Core.launch Core.newParent
      rw [hbase]
      exact update_field PCB.parent _ _ _
    case scheduled => exact update_field_same PCB.scheduled rfl
    case saved =>
      unfold Core.launch
      rw [hbase]
      exact update_field_same PCB.saved rfl
    all_goals rfl
  | false =>
    -- The parent's block differs in the saved registers only.
    ext1
    case parent =>
      unfold Core.launch Core.newParent
      rw [hbase]
      refine Eq.trans (update_field_same PCB.parent ?_) (update_field PCB.parent _ _ _)
      rfl
    case scheduled =>
      refine Eq.trans (update_field_same PCB.scheduled ?_) (update_field_same PCB.scheduled ?_)
      · rfl
      · rfl
    case saved =>
      unfold Core.launch
      rw [hbase]
      refine (update_field PCB.saved _ _ _).trans ?_
      rw [update_field_same PCB.saved]
      · rfl
      · rfl
    all_goals rfl

@[simp] theorem launched_kb (call : ExecCall) (p : Pid) (image : List UInt8) (r : Regs)
    (k : Kernel) :
    (k.launched call p image r).con.kb = k.con.kb := rfl

@[simp] theorem launched_selection (call : ExecCall) (p : Pid) (image : List UInt8) (r : Regs)
    (k : Kernel) : (k.launched call p image r).con.vid.selection = k.con.vid.selection :=
  Video.vidmapCopy_selection _ _

/-- A program that fits its page leaves the console alone. -/
theorem launched_con {image : List UInt8} (hpage : image.length ≤ pageRoom) (call : ExecCall)
    (p : Pid) (r : Regs) (k : Kernel) : (k.launched call p image r).con = k.con := by
  show { k.con with vid := k.con.vid.vidmapCopy (image.drop pageRoom) } = k.con
  rw [List.drop_eq_nil_of_le hpage]
  rfl

theorem launched_scheduledTerm (call : ExecCall) (p : Pid) (image : List UInt8) (r : Regs)
    (k : Kernel) : (k.launched call p image r).scheduledTerm = k.scheduledTerm :=
  congrArg Video.Selection.scheduledTerm (launched_selection call p image r k)

/-- Where the caller's terminal is displayed, the new process is current in it. -/
theorem launched_currPid {k : Kernel} (hdisplay : k.con.vid.currentTerminal = k.scheduledTerm)
    (call : ExecCall) (p : Pid) (image : List UInt8) (r : Regs) :
    (k.launched call p image r).currPid = p := by
  show (k.launched call p image r).core.currPidForTerm (k.launched call p image r).scheduledTerm = p
  rw [launched_core, launched_scheduledTerm, hdisplay]
  exact Function.update_self ..

theorem launched_currentTerminal (call : ExecCall) (p : Pid) (image : List UInt8) (r : Regs)
    (k : Kernel) : (k.launched call p image r).con.vid.currentTerminal
      = k.con.vid.currentTerminal :=
  congrArg Video.Selection.currentTerminal (launched_selection call p image r k)

@[simp] theorem launched_img (call : ExecCall) (p : Pid) (image : List UInt8) (r : Regs)
    (k : Kernel) :
    (k.launched call p image r).img = k.img := rfl

theorem Refused.core {k k' : Kernel} {call : ExecCall} (h : k.Refused call k') :
    k'.core = { k.core with args := call.argsAfter k.tab.args } := by
  unfold Kernel.core
  rw [h.tab]

theorem Refused.scheduledTerm {k k' : Kernel} {call : ExecCall} (h : k.Refused call k') :
    k'.scheduledTerm = k.scheduledTerm := congrArg Video.Selection.scheduledTerm h.selection

theorem Refused.currentTerminal {k k' : Kernel} {call : ExecCall} (h : k.Refused call k') :
    k'.con.vid.currentTerminal = k.con.vid.currentTerminal :=
  congrArg Video.Selection.currentTerminal h.selection

theorem overrun_core (call : ExecCall) (p : Pid) (image : List UInt8) (k : Kernel) :
    (k.overrun call p image).core
      = k.core.claim k.con.vid.currentTerminal p (call.argsAfter k.tab.args) := rfl

theorem overrun_selection (call : ExecCall) (p : Pid) (image : List UInt8) (k : Kernel) :
    (k.overrun call p image).con.vid.selection = k.con.vid.selection :=
  Video.vidmapCopy_selection _ _

/-- The handler's message. -/
theorem reportFault_eq (k : Kernel) :
    ∃ vid : Video, k.reportFault = { k with con := { k.con with vid } } ∧
    vid.selection = k.con.vid.selection :=
  ⟨_, rfl, Video.printf_selection _ _ _⟩

theorem reportFault_core (k : Kernel) : k.reportFault.core = k.core := by
  obtain ⟨vid, hk, -⟩ := reportFault_eq k
  rw [hk]
  rfl

theorem reportFault_selection (k : Kernel) :
    k.reportFault.con.vid.selection = k.con.vid.selection := by
  obtain ⟨vid, hk, hvid⟩ := reportFault_eq k
  rw [hk]
  exact hvid

/-- The kernel where `interrupt_14_handler` halts a process. -/
def faulted (call : ExecCall) (p : Pid) (image : List UInt8) (k : Kernel) : Kernel :=
  (k.overrun call p image).reportFault

theorem faulted_core (call : ExecCall) (p : Pid) (image : List UInt8) (k : Kernel) :
    (k.faulted call p image).core
      = k.core.claim k.con.vid.currentTerminal p (call.argsAfter k.tab.args) :=
  (reportFault_core _).trans (overrun_core call p image k)

theorem faulted_selection (call : ExecCall) (p : Pid) (image : List UInt8) (k : Kernel) :
    (k.faulted call p image).con.vid.selection = k.con.vid.selection :=
  (reportFault_selection _).trans (overrun_selection call p image k)

theorem faulted_scheduledTerm (call : ExecCall) (p : Pid) (image : List UInt8) (k : Kernel) :
    (k.faulted call p image).scheduledTerm = k.scheduledTerm := by
  have hsel := faulted_selection call p image k
  generalize k.faulted call p image = j at hsel
  exact congrArg Video.Selection.scheduledTerm hsel

theorem faulted_currentTerminal (call : ExecCall) (p : Pid) (image : List UInt8) (k : Kernel) :
    (k.faulted call p image).con.vid.currentTerminal = k.con.vid.currentTerminal := by
  have hsel := faulted_selection call p image k
  generalize k.faulted call p image = j at hsel
  exact congrArg Video.Selection.currentTerminal hsel

@[simp] theorem faulted_kb (call : ExecCall) (p : Pid) (image : List UInt8) (k : Kernel) :
    (k.faulted call p image).con.kb = k.con.kb := by
  obtain ⟨vid, hk, -⟩ := reportFault_eq (k.overrun call p image)
  rw [faulted, hk]
  rfl

@[simp] theorem faulted_pcb (call : ExecCall) (p : Pid) (image : List UInt8) (k : Kernel) :
    (k.faulted call p image).tab.pcb = k.tab.pcb := by
  obtain ⟨vid, hk, -⟩ := reportFault_eq (k.overrun call p image)
  rw [faulted, hk]
  rfl

@[simp] theorem faulted_img (call : ExecCall) (p : Pid) (image : List UInt8) (k : Kernel) :
    (k.faulted call p image).img = k.img := by
  obtain ⟨vid, hk, -⟩ := reportFault_eq (k.overrun call p image)
  rw [faulted, hk]
  rfl

@[simp] theorem faulted_rtc (call : ExecCall) (p : Pid) (image : List UInt8) (k : Kernel) :
    (k.faulted call p image).rtc = k.rtc := by
  obtain ⟨vid, hk, -⟩ := reportFault_eq (k.overrun call p image)
  rw [faulted, hk]
  rfl

theorem step_execute (k : Kernel) (call : ExecCall) (r : Regs) :
    k.step (.execute call r) = afterExecute (k.execute call r) := rfl

theorem step_starts {j k : Kernel} {call : ExecCall} {r : Regs} {p : Pid}
    (h : j.execute call r = (k, .starts p)) : j.step (.execute call r) = some k := by
  rw [step_execute, h]
  rfl

theorem Overrunning.step_eq {k k' : Kernel} {call : ExecCall} {r : Regs} {p : Pid}
    {image : List UInt8} (hover : k.Overrunning call p image)
    (h : k.step (.execute call r) = some k') : k' = (k.faulted call p image).halt := by
  rw [step_execute, execute_overruns hover] at h
  exact pageFault_eq_some h

/-- The halt of a base shell calls no close routine. -/
theorem Overrunning.step_base {k : Kernel} {call : ExecCall} {p : Pid} {image : List UInt8}
    (hover : k.Overrunning call p image) (hbase : isBase (k.faulted call p image).currPid = true)
    (r : Regs) : k.step (.execute call r) = some (k.faulted call p image).halt := by
  have hcloses : (k.faulted call p image).ClosesAssigned := Or.inl hbase
  rw [step_execute, execute_overruns hover]
  show pageFault (k.overrun call p image) = _
  unfold faulted at hcloses ⊢
  unfold pageFault
  dsimp only
  rw [if_pos hcloses]

/-- The step of a call of `execute`. -/
theorem execute_step {k k' : Kernel} {call : ExecCall} {r : Regs}
    (h : k.step (.execute call r) = some k') :
    (∃ p image, k.Starting call p image ∧ (k.execute call r).2 = .starts p ∧
      k' = k.launched call p image r) ∨ k.Refused call k' ∨
    ∃ p image, k.Overrunning call p image ∧ k' = (k.faulted call p image).halt := by
  rcases execute_cases call r k with ⟨p, image, hstart⟩ | ⟨v, hv, hrefused⟩ | ⟨p, image, hover⟩
  · rw [step_execute, execute_starts hstart] at h
    rw [execute_starts hstart]
    exact Or.inl ⟨p, image, hstart, rfl, (Option.some.inj h).symm⟩
  · rw [step_execute] at h
    have hk : (k.execute call r).1 = k' := by
      generalize k.execute call r = result at h hv
      obtain ⟨j, o⟩ := result
      cases hv
      exact Option.some.inj h
    exact Or.inr (Or.inl (hk ▸ hrefused))
  · exact Or.inr (Or.inr ⟨p, image, hover, hover.step_eq h⟩)

/-- The calls of the timer are calls of `execute`. -/
theorem step_of_unlessFaults {k k' : Kernel} {call : ExecCall} {r : Regs}
    (h : unlessFaults (k.execute call r) = some k') : k.step (.execute call r) = some k' := by
  obtain ⟨hk, hfaults⟩ := unlessFaults_eq_some.mp h
  rw [step_execute]
  generalize k.execute call r = result at hk hfaults
  obtain ⟨j, o⟩ := result
  cases o with
  | faults => exact absurd rfl hfaults
  | _ => exact congrArg some hk

theorem unlessFaults_of_step {k k' : Kernel} {call : ExecCall} {r : Regs}
    (hfaults : (k.execute call r).2 ≠ .faults) (h : k.step (.execute call r) = some k') :
    unlessFaults (k.execute call r) = some k' := by
  rw [step_execute] at h
  refine unlessFaults_eq_some.mpr ⟨?_, hfaults⟩
  generalize k.execute call r = result at h hfaults
  obtain ⟨j, o⟩ := result
  cases o with
  | faults => exact absurd rfl hfaults
  | _ => exact Option.some.inj h

/-- A call that faults. -/
theorem execute_eq_faults {k : Kernel} {call : ExecCall} {r : Regs}
    (h : (k.execute call r).2 = .faults) : ∃ p image, k.Overrunning call p image := by
  rcases execute_cases call r k with ⟨q, image, hstart⟩ | ⟨v, hv, -⟩ | hover
  · rw [execute_starts hstart] at h
    cases h
  · rw [hv] at h
    cases h
  · exact hover

/-- A call of the timer, which does not fault. -/
theorem execute_unlessFaults {k k' : Kernel} {call : ExecCall} {r : Regs}
    (h : unlessFaults (k.execute call r) = some k') :
    (∃ p image, k.Starting call p image ∧ k' = k.launched call p image r) ∨
      k.Refused call k' := by
  obtain ⟨hk, hfaults⟩ := unlessFaults_eq_some.mp h
  rcases execute_cases call r k with ⟨p, image, hstart⟩ | ⟨v, -, hrefused⟩ | ⟨p, image, hover⟩
  · rw [execute_starts hstart] at hk
    exact Or.inl ⟨p, image, hstart, hk.symm⟩
  · exact Or.inr (hk ▸ hrefused)
  · exact absurd (congrArg Prod.snd (execute_overruns hover r)) hfaults

/-! ## The timer -/

theorem preempted_core (r : Regs) (k : Kernel) :
    (k.preempted r).core = k.core.preempt k.scheduledTerm r := by
  ext1
  case parent => exact update_field_same PCB.parent rfl
  case scheduled => exact update_field PCB.scheduled _ _ _
  case saved => exact update_field_same PCB.saved rfl
  all_goals rfl

@[simp] theorem preempted_con (r : Regs) (k : Kernel) :
    (k.preempted r).con = k.con.nextTerminal := rfl

@[simp] theorem preempted_img (r : Regs) (k : Kernel) : (k.preempted r).img = k.img := rfl

@[simp] theorem preempted_scheduledTerm (r : Regs) (k : Kernel) :
    (k.preempted r).scheduledTerm = k.scheduledTerm + 1 := Console.nextTerminal_scheduledTerm _

theorem pitHandler_resume {k : Kernel} {r : Regs} (h : ¬ (k.preempted r).WaitsForShell) :
    k.pitHandler r = some (k.preempted r).resume := by
  unfold pitHandler
  dsimp only
  rw [if_neg h]

theorem pitHandler_shell {k : Kernel} {r : Regs} (h : (k.preempted r).WaitsForShell) :
    k.pitHandler r = unlessFaults
      (((k.preempted r).shellReady (k.preempted r).scheduledTerm).execute shellCall r) := by
  unfold pitHandler
  dsimp only
  rw [if_pos h]
  rfl

theorem resume_core (k : Kernel) : k.resume.core = k.core.resume k.scheduledTerm := by
  have hsched : (k.con.display 2 0).vid.scheduledTerm = k.scheduledTerm :=
    Console.display_scheduledTerm 2 0 k.con
  unfold resume
  dsimp only
  cases hdone : k.tab.doneInstantiating with
  | true =>
    rw [if_pos rfl]
    unfold Core.resume Core.select Core.load core switchTo
    dsimp only
    rw [hdone]
    rfl
  | false =>
    rw [if_neg (by decide)]
    unfold Core.resume Core.select Core.load core switchTo currPid scheduledTerm onConsole
    dsimp only
    rw [hsched]
    rfl

@[simp] theorem resume_scheduledTerm (k : Kernel) : k.resume.scheduledTerm = k.scheduledTerm := by
  unfold resume
  dsimp only
  split
  · rfl
  · exact Console.display_scheduledTerm 2 0 k.con

@[simp] theorem resume_img (k : Kernel) : k.resume.img = k.img := by
  unfold resume
  dsimp only
  split <;> rfl

theorem shellReady_core (t : Term) (k : Kernel) :
    (k.shellReady t).core = { k.core with
      terminalInstantiated := Function.update k.core.terminalInstantiated t true } := rfl

@[simp] theorem shellReady_img (t : Term) (k : Kernel) : (k.shellReady t).img = k.img := by
  unfold shellReady onConsole
  rfl

@[simp] theorem shellReady_con (t : Term) (k : Kernel) :
    (k.shellReady t).con = k.con.startScreen t := rfl

@[simp] theorem shellReady_scheduledTerm (t : Term) (k : Kernel) :
    (k.shellReady t).scheduledTerm = k.scheduledTerm := Console.startScreen_scheduledTerm t k.con

@[simp] theorem shellReady_currentTerminal (t : Term) (k : Kernel) :
    (k.shellReady t).con.vid.currentTerminal = t := Console.startScreen_currentTerminal t k.con

/-! ## The image -/

theorem execute_img {k k' : Kernel} {call : ExecCall} {r : Regs}
    (h : k.step (.execute call r) = some k') : k'.img = k.img := by
  rcases execute_step h with ⟨p, image, -, -, hk⟩ | hrefused | ⟨p, image, -, hk⟩
  · rw [hk, launched_img]
  · exact hrefused.img
  · rw [hk, halt_img, faulted_img]

theorem step_img {k k' : Kernel} {e : Event} (h : k.step e = some k') : k'.img = k.img := by
  by_cases hchooses : e.Chooses
  · cases e with
    | tick r =>
      have hstep : k.pitHandler r = some k' := h
      by_cases hwaits : (k.preempted r).WaitsForShell
      · rw [pitHandler_shell hwaits] at hstep
        rw [execute_img (step_of_unlessFaults hstep), shellReady_img, preempted_img]
      · rw [pitHandler_resume hwaits, Option.some.injEq] at hstep
        simp [← hstep]
    | execute call r => exact execute_img h
    | halt status =>
      cases h
      exact halt_img k
    | _ => exact absurd hchooses id
  · exact (aside_step hchooses h).img

end Kernel

end StudentDistrib
