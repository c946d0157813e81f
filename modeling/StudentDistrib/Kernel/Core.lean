import StudentDistrib.Console.Press
import StudentDistrib.Kernel.Scheduler

/-!
# What each event does to the process tables

`Core` is the part of the kernel that decides which process runs and with which
registers.  Four operations on it, `preempt`, `resume`, `launch` and `release`,
account for the timer, `execute` and `halt`; every other event leaves the core
alone.  A call of `execute` that page-faults takes a slot, `claim`, and halts.  The
results about processes are proved from these facts and do not unfold the kernel again.
-/

namespace StudentDistrib

open Machine

@[ext]
structure Core where
  pcbArr : Pid → Bool
  currPidForTerm : Term → Pid
  parentPidForTerm : Term → Pid
  parent : Pid → Pid
  scheduled : Pid → Regs
  saved : Pid → Regs
  terminalInstantiated : Term → Bool
  doneInstantiating : Bool
  userPageAddress : Nat
  tssEsp0 : Nat
  cpu : Regs
  running : Option Pid
  args : Bytes

namespace Core

/-- The process of terminal `t` is interrupted with registers `r`. -/
def preempt (t : Term) (r : Regs) (c : Core) : Core :=
  { c with scheduled := Function.update c.scheduled (c.currPidForTerm t) r }

/-- The page and the kernel stack of process `p`. -/
def select (p : Pid) (c : Core) : Core :=
  { c with
    userPageAddress := (mb8 + mb4 * p) / 2 ^ 22
    tssEsp0 := mb8 - kb8 * p }

/-- The registers loaded, and with them the process whose stack they point to. -/
def load (r : Regs) (c : Core) : Core :=
  { c with cpu := r, running := Kernel.stackOwner r.esp }

/-- The process of terminal `t` goes on. -/
def resume (t : Term) (c : Core) : Core :=
  ({ c with doneInstantiating := true }.select (c.currPidForTerm t)).load
    (c.scheduled (c.currPidForTerm t))

/-- The parent of a process that `execute` starts while terminal `t` is displayed. -/
def newParent (t : Term) (p : Pid) (c : Core) : Pid :=
  if Kernel.isBase p then p else c.currPidForTerm t

/-- Process `p` is started by `execute` while terminal `t` is displayed. -/
def launch (t : Term) (p : Pid) (r : Regs) (args : Bytes) (c : Core) : Core :=
  { c with
    pcbArr := Function.update c.pcbArr p true
    currPidForTerm := Function.update c.currPidForTerm t p
    parentPidForTerm := Function.update c.parentPidForTerm t (c.currPidForTerm t)
    parent := Function.update c.parent p (c.newParent t p)
    saved :=
      if Kernel.isBase p then c.saved else Function.update c.saved (c.currPidForTerm t) r
    userPageAddress := (mb8 + mb4 * p) / 2 ^ 22
    tssEsp0 := mb8 - kb8 * p
    running := some p
    args }

/-- Slot `p` taken by an `execute` that comes no further than its copy of the program. -/
def claim (t : Term) (p : Pid) (args : Bytes) (c : Core) : Core :=
  { c with
    pcbArr := Function.update c.pcbArr p true
    currPidForTerm := Function.update c.currPidForTerm t p
    parentPidForTerm := Function.update c.parentPidForTerm t (c.currPidForTerm t)
    userPageAddress := (mb8 + mb4 * p) / 2 ^ 22
    args }

/-- The process of terminal `t` halts and its parent goes on. -/
def release (t : Term) (c : Core) : Core :=
  ({ c with
    pcbArr := Function.update c.pcbArr (c.currPidForTerm t) false
    currPidForTerm := Function.update c.currPidForTerm t (c.parentPidForTerm t)
    parentPidForTerm :=
      Function.update c.parentPidForTerm t (c.parent (c.parentPidForTerm t)) }.select
        (c.parentPidForTerm t)).load (c.saved (c.parentPidForTerm t))

/-- The process of terminal `t` goes on with the registers of its last call of
`execute`. -/
def recalled (t : Term) (args : Bytes) (c : Core) : Core :=
  ({ c with args }.select (c.currPidForTerm t)).load (c.saved (c.currPidForTerm t))

/-- A slot that is taken and released again. -/
theorem claim_release {c : Core} {t : Term} {p : Pid} (hfree : c.pcbArr p = false)
    (hparents : c.parentPidForTerm t = c.parent (c.currPidForTerm t)) (args : Bytes) :
    (c.claim t p args).release t = c.recalled t args := by
  have hp : Function.update c.currPidForTerm t p t = p := Function.update_self ..
  have hcaller : Function.update c.parentPidForTerm t (c.currPidForTerm t) t
      = c.currPidForTerm t := Function.update_self ..
  unfold release recalled claim select load
  dsimp only
  rw [hp, hcaller, Function.update_idem, Function.update_idem, Function.update_idem,
    Function.update_eq_self, ← hparents, Function.update_eq_self, ← hfree,
    Function.update_eq_self]

end Core

namespace Kernel

def core (k : Kernel) : Core :=
  { pcbArr := k.tab.pcbArr
    currPidForTerm := k.tab.currPidForTerm
    parentPidForTerm := k.tab.parentPidForTerm
    parent := fun p => (k.tab.pcb p).parent
    scheduled := fun p => (k.tab.pcb p).scheduled
    saved := fun p => (k.tab.pcb p).saved
    terminalInstantiated := k.tab.terminalInstantiated
    doneInstantiating := k.tab.doneInstantiating
    userPageAddress := k.tab.userPageAddress
    tssEsp0 := k.tab.tssEsp0
    cpu := k.tab.cpu
    running := k.tab.running
    args := k.tab.args }

/-! ## Calls on descriptors -/

theorem update_field {α : Type} (f : PCB → α) (pcb : Pid → PCB) (p : Pid) (new : PCB) :
    (fun q => f (Function.update pcb p new q)) = Function.update (fun q => f (pcb q)) p (f new) :=
  Function.comp_update f pcb p new

/-- A field that the new control block shares with the old one. -/
theorem update_field_same {α : Type} (f : PCB → α) {pcb : Pid → PCB} {p : Pid} {new : PCB}
    (h : f new = f (pcb p)) : (fun q => f (Function.update pcb p new q)) = fun q => f (pcb q) := by
  rw [update_field, h]
  exact Function.update_eq_self p _

/-- A control block replaced by one with another descriptor table. -/
theorem setPcb_core {k : Kernel} {p : Pid} {pcb : PCB} (hparent : pcb.parent = (k.tab.pcb p).parent)
    (hscheduled : pcb.scheduled = (k.tab.pcb p).scheduled)
    (hsaved : pcb.saved = (k.tab.pcb p).saved) : (k.setPcb p pcb).core = k.core := by
  ext1
  case parent => exact update_field_same PCB.parent hparent
  case scheduled => exact update_field_same PCB.scheduled hscheduled
  case saved => exact update_field_same PCB.saved hsaved
  all_goals rfl

theorem setFd_core (fd : Int) (d : FileDescriptor) (k : Kernel) : (k.setFd fd d).core = k.core :=
  setPcb_core rfl rfl rfl

theorem setOpenIndex_core (i v : Int) (k : Kernel) : (k.setOpenIndex i v).core = k.core :=
  setPcb_core rfl rfl rfl

/-- What the calls on descriptors, and the keys, have in common: they choose no
process. -/
structure Aside (k k' : Kernel) : Prop where
  core : k'.core = k.core
  scheduledTerm : k'.scheduledTerm = k.scheduledTerm
  img : k'.img = k.img

theorem Aside.refl (k : Kernel) : Aside k k := ⟨rfl, rfl, rfl⟩

theorem Aside.trans {k k' k'' : Kernel} (h : Aside k k') (h' : Aside k' k'') : Aside k k'' :=
  ⟨h'.core.trans h.core, h'.scheduledTerm.trans h.scheduledTerm, h'.img.trans h.img⟩

theorem aside_setFd (fd : Int) (d : FileDescriptor) (k : Kernel) : Aside k (k.setFd fd d) :=
  ⟨setFd_core fd d k, rfl, rfl⟩

theorem aside_setOpenIndex (i v : Int) (k : Kernel) : Aside k (k.setOpenIndex i v) :=
  ⟨setOpenIndex_core i v k, rfl, rfl⟩

/-- Another console with the same terminal scheduled. -/
theorem aside_con {k : Kernel} {con : Console}
    (h : con.vid.scheduledTerm = k.con.vid.scheduledTerm) : Aside k { k with con } :=
  ⟨rfl, h, rfl⟩

theorem aside_readFile (fd nbytes : Int) (k : Kernel) : Aside k (k.readFile fd nbytes).1 := by
  unfold readFile
  dsimp only
  split
  · split
    · exact Aside.refl k
    · exact aside_setFd _ _ k
  · exact Aside.refl k

theorem aside_readDirectory (fd : Int) (k : Kernel) : Aside k (k.readDirectory fd).1 := by
  unfold readDirectory
  dsimp only
  split
  · split
    · exact aside_setFd _ _ k
    · exact aside_setFd _ _ k
  · exact Aside.refl k

theorem aside_readTerminal (nbytes : Int) (k : Kernel) : Aside k (k.readTerminal nbytes).1 := by
  unfold readTerminal Console.terminalReadBegin
  split
  · exact Aside.refl k
  · rename_i con hcon
    split at hcon
    · cases hcon
    · cases hcon
      exact aside_con rfl

theorem aside_read (fd nbytes : Int) (k : Kernel) : Aside k (k.read fd nbytes).1 := by
  have hstart : Aside k k.sti.setCurrPcb := ⟨rfl, rfl, rfl⟩
  unfold read
  split
  · exact Aside.refl k
  · split
    · exact Aside.refl k
    · dsimp only
      split
      · split
        · exact hstart.trans (aside_readTerminal nbytes _)
        · exact hstart.trans ⟨rfl, rfl, rfl⟩
        · exact hstart.trans (aside_readDirectory fd _)
        · exact hstart.trans (aside_readFile fd nbytes _)
        · exact hstart
      · exact hstart

theorem terminalWrite_scheduledTerm (buf : List UInt8) (c : Console) :
    (c.terminalWrite buf).1.vid.scheduledTerm = c.vid.scheduledTerm := by
  unfold Console.terminalWrite
  split
  · rfl
  · exact Video.printf_scheduledTerm _ _ _

theorem aside_write (fd : Int) (buf : List UInt8) (k : Kernel) : Aside k (k.write fd buf).1 := by
  have hstart : Aside k k.sti := ⟨rfl, rfl, rfl⟩
  unfold write
  dsimp only
  split
  · exact hstart
  · split
    · split
      · exact ⟨rfl, terminalWrite_scheduledTerm buf _, rfl⟩
      · exact ⟨rfl, rfl, rfl⟩
      · exact ⟨rfl, rfl, rfl⟩
    · exact ⟨rfl, Video.putc_scheduledTerm _ _ _, rfl⟩

theorem aside_openFile (fname : Bytes) (garbage : Image.Dentry) (k : Kernel) :
    Aside k (k.openFile fname garbage).1 := by
  have hstart : Aside k k.setCurrPcb := ⟨rfl, rfl, rfl⟩
  unfold openFile
  split
  · exact Aside.refl k
  · dsimp only
    split
    · exact hstart
    · rename_i i _
      have hset : ∀ d, Aside k ((k.setCurrPcb.setOpenIndex i full).setFd (i + 2) d) := fun d =>
        (hstart.trans (aside_setOpenIndex i full _)).trans (aside_setFd (i + 2) d _)
      split
      · exact (hset _).trans ⟨rfl, rfl, rfl⟩
      · exact hset _

theorem aside_closeFile (fd : Int) (k : Kernel) : Aside k (k.closeFile fd).1 := by
  have hstart : Aside k k.setCurrPcb := ⟨rfl, rfl, rfl⟩
  unfold closeFile
  dsimp only
  split
  · exact hstart
  · have hset : ∀ d, Aside k ((k.setCurrPcb.setOpenIndex (fd - 2) empty).setFd fd d) := fun d =>
      (hstart.trans (aside_setOpenIndex (fd - 2) empty _)).trans (aside_setFd fd d _)
    refine (hset _).trans (aside_con ?_)
    unfold closeFunc
    split <;> rfl

theorem keyboardHandler_scheduledTerm (scan : UInt8) (c : Console) :
    (c.keyboardHandler scan).vid.scheduledTerm = c.vid.scheduledTerm := by
  cases hs : Console.switches scan c.kb with
  | none => exact congrArg Console.Terms.scheduledTerm (Console.keyboardHandler_terms hs)
  | some t => exact congrArg Console.Terms.scheduledTerm (Console.keyboardHandler_switch_terms hs)

/-- The events that choose which process runs. -/
def Event.Chooses : Event → Prop
  | .tick _ => True
  | .execute _ _ => True
  | .halt _ => True
  | _ => False

/-- Every other event leaves the core alone. -/
theorem aside_step {k k' : Kernel} {e : Event} (he : ¬ e.Chooses) (h : k.step e = some k') :
    Aside k k' := by
  cases e with
  | key scan =>
    cases h
    exact aside_con (keyboardHandler_scheduledTerm scan _)
  | tick r => exact absurd trivial he
  | rtc =>
    cases h
    exact ⟨rfl, rfl, rfl⟩
  | execute call r => exact absurd trivial he
  | halt status => exact absurd trivial he
  | read fd nbytes =>
    cases h
    exact aside_read fd nbytes k
  | readDone nbytes =>
    unfold step at h
    dsimp only at h
    obtain ⟨⟨con, result⟩, hcon, rfl⟩ := Option.map_eq_some_iff.mp h
    unfold Console.terminalReadFinish at hcon
    split at hcon
    · cases hcon
      exact aside_con rfl
    · cases hcon
  | write fd buf =>
    cases h
    exact aside_write fd buf k
  | openFile fname garbage =>
    cases h
    exact aside_openFile fname garbage k
  | closeFile fd =>
    cases h
    exact aside_closeFile fd k
  | getargs nbytes =>
    cases h
    exact Aside.refl k
  | vidmap screenStart =>
    cases h
    unfold vidmap
    split
    · exact Aside.refl k
    · split
      · exact Aside.refl k
      · exact aside_con rfl
  | vidmapStore offset b =>
    cases h
    exact aside_con rfl

/-! ## `halt` -/

theorem halt_core (k : Kernel) :
    k.halt.core = if isBase k.currPid then k.core else k.core.release k.scheduledTerm := by
  unfold halt
  dsimp only
  have hcurr : k.clearEnter.setCurrPcb.currPid = k.currPid := rfl
  rw [hcurr]
  split <;> rfl

theorem halt_scheduledTerm (k : Kernel) : k.halt.scheduledTerm = k.scheduledTerm := by
  have hclose : ∀ (pcb : PCB) (fds : List Int) (con : Console),
      (fds.foldl (fun con fd => closeFunc (pcb.fdArray fd).jumpTable con) con).vid = con.vid := by
    intro pcb fds
    induction fds with
    | nil => exact fun _ => rfl
    | cons fd fds ih =>
      intro con
      rw [List.foldl_cons, ih]
      unfold closeFunc
      split <;> rfl
  unfold halt
  dsimp only
  split
  · rfl
  · exact congrArg Video.scheduledTerm (hclose _ _ _)

theorem halt_img (k : Kernel) : k.halt.img = k.img := by
  unfold halt
  dsimp only
  split <;> rfl

end Kernel

end StudentDistrib
