import StudentDistrib.Kernel.Arguments
import StudentDistrib.Kernel.BaseShells

/-!
# Calls of `execute` that start nothing

`execute` fills `args` before it looks for the program, and answers 0 where all six
slots are taken.  Its other exits return -1 before a slot is taken: the exits behind
that repeat a test that the call has passed.
-/

namespace StudentDistrib

open Machine

namespace Kernel

variable {k : Kernel} {call : ExecCall} {command : CString} {dentry : Image.Dentry}

/-- Behind the allocation no exit is left: the image is read from the inode that the
magic number came from. -/
theorem startProgram_ne_returns {p : Pid} {inode : Int} {buf : List UInt8}
    (hhead : k.img.readData inode 0 4 = some buf) (r : Regs) (v : Int) :
    (k.startProgram p inode r).2 ≠ .returns v := by
  obtain ⟨image, himage⟩ := readData_image hhead
  by_cases hfits : image.length ≤ loadRoom
  · rw [startProgram_fits himage hfits]
    exact nofun
  · rw [startProgram_faults himage (Nat.lt_of_not_le hfits)]
    exact nofun

/-! ## Failing without a trace -/

/-- The call returns -1 and leaves the tables, the control blocks, the program page, the
TSS and the arguments as they were. -/
structure FailsCleanly (k : Kernel) (call : ExecCall) (r : Regs) : Prop where
  returns : (k.execute call r).2 = .returns (-1)
  pcbArr : (k.execute call r).1.tab.pcbArr = k.tab.pcbArr
  currPidForTerm : (k.execute call r).1.tab.currPidForTerm = k.tab.currPidForTerm
  parentPidForTerm : (k.execute call r).1.tab.parentPidForTerm = k.tab.parentPidForTerm
  pcb : (k.execute call r).1.tab.pcb = k.tab.pcb
  userPageAddress : (k.execute call r).1.tab.userPageAddress = k.tab.userPageAddress
  tssEsp0 : (k.execute call r).1.tab.tssEsp0 = k.tab.tssEsp0
  args : Bytes.SameOn bufsize (k.execute call r).1.tab.args k.tab.args

/-- A call that starts no program fails cleanly. -/
def FailsAtomically (k : Kernel) (call : ExecCall) (r : Regs) : Prop :=
  (∀ p, (k.execute call r).2 ≠ .starts p) → k.FailsCleanly call r

/-- The calls that can fail cleanly: without a command, or with the arguments that the
buffer holds already and a name that is unknown or, where a slot is free, that of no
executable. -/
inductive LeavesNoTrace (k : Kernel) (call : ExecCall) : Prop
  | null (hcommand : call.command = none)
  | unknown {command : CString} (hcommand : call.command = some command)
      (hargs : Bytes.SameOn bufsize (parseArgs command) k.tab.args)
      (hfound : k.img.readDentryByName (firstWord command call.stack) call.garbage = none)
  | notProgram {command : CString} {dentry : Image.Dentry} {p : Pid}
      (hcommand : call.command = some command)
      (hargs : Bytes.SameOn bufsize (parseArgs command) k.tab.args)
      (hfound : k.img.readDentryByName (firstWord command call.stack) call.garbage = some dentry)
      (hfree : newestPid k.tab.pcbArr = some p)
      (hhead : k.img.readData dentry.inodeNum 0 4 ≠ some elfMagic)

theorem failsCleanly_of_setArgs {args : Bytes} {r : Regs}
    (h : k.execute call r = (k.setArgs args, .returns (-1)))
    (hargs : Bytes.SameOn bufsize args k.tab.args) : k.FailsCleanly call r := by
  constructor
  all_goals rw [h]
  case args => exact hargs
  all_goals rfl

theorem LeavesNoTrace.failsCleanly (h : k.LeavesNoTrace call) (r : Regs) :
    k.FailsCleanly call r := by
  cases h with
  | null hcommand =>
    exact failsCleanly_of_setArgs (execute_null hcommand r)
      (Bytes.SameOn.refl _ _)
  | unknown hcommand hargs hfound =>
    exact failsCleanly_of_setArgs (execute_missing hcommand hfound r) hargs
  | notProgram hcommand hargs hfound hfree hhead =>
    exact failsCleanly_of_setArgs (execute_notProgram hcommand hfound hfree hhead r) hargs

theorem FailsCleanly.leavesNoTrace {r : Regs} (h : k.FailsCleanly call r) :
    k.LeavesNoTrace call := by
  cases hcommand : call.command with
  | none => exact .null hcommand
  | some command =>
    cases hfound : k.img.readDentryByName (firstWord command call.stack) call.garbage with
    | none =>
      have hargs := h.args
      rw [execute_missing hcommand hfound] at hargs
      exact .unknown hcommand hargs hfound
    | some dentry =>
      cases hfree : newestPid k.tab.pcbArr with
      | none =>
        have hreturns := h.returns
        rw [execute_noSlot hcommand hfound hfree] at hreturns
        have hvalue : (0 : Int) = -1 := Outcome.returns.inj hreturns
        exact absurd hvalue (by decide)
      | some p =>
        by_cases hhead : k.img.readData dentry.inodeNum 0 4 = some elfMagic
        · have hreturns := h.returns
          rw [execute_program hcommand hfound hfree hhead] at hreturns
          have hnot := startProgram_ne_returns (k := k.setArgs (parseArgs command)) (p := p)
            hhead r (-1)
          exact absurd hreturns hnot
        · have hargs := h.args
          rw [execute_notProgram hcommand hfound hfree hhead] at hargs
          exact .notProgram hcommand hargs hfound hfree hhead

/-- A call that starts no program fails without a trace exactly where it leaves none: a
full table is answered with 0, the arguments of a refused command stay behind, and an
executable that does not fit the mapped pages faults. -/
theorem failsAtomically_iff (k : Kernel) (call : ExecCall) (r : Regs) :
    k.FailsAtomically call r ↔ (∃ p image, k.Starting call p image) ∨ k.LeavesNoTrace call := by
  constructor
  · intro h
    by_cases hstart : ∃ p image, k.Starting call p image
    · exact Or.inl hstart
    · refine Or.inr (h fun p hp => ?_).leavesNoTrace
      exact hstart ⟨p, execute_eq_starts hp⟩
  · intro h hnot
    rcases h with ⟨p, image, hstart⟩ | hclean
    · exact absurd (congrArg Prod.snd (execute_starts hstart r)) (hnot p)
    · exact hclean.failsCleanly r

/-! ## All slots taken -/

/-- A kernel that a run reaches, with the slots that its programs take. -/
structure Occupied (k₀ : Kernel) (slots : Pid → Bool) (k : Kernel) : Prop where
  run : Reaches step AfterShells k₀ k
  up : k.ShellsUp
  shell : ∃ image, HasShell k.img image
  pcbArr : k.tab.pcbArr = slots

/-- Another shell started by the running program. -/
theorem Occupied.execute {k₀ : Kernel} {slots : Pid → Bool} (h : Occupied k₀ slots k) {p : Pid}
    (hfree : newestPid slots = some p) (r : Regs) :
    ∃ k', Occupied k₀ (Function.update slots p true) k' := by
  obtain ⟨image, himage⟩ := h.shell
  have hstart : k.Starting shellCall p image := himage.starting (h.pcbArr ▸ hfree)
  have hexec := execute_starts hstart r
  have hstep : k.step (.execute shellCall r) = some (k.launched shellCall p image r) :=
    step_starts hexec
  have hcore := launched_core shellCall p image r k
  have himg := launched_img shellCall p image r k
  generalize k.launched shellCall p image r = k' at hstep hcore himg
  refine ⟨k', h.run.step (fun _ _ => h.up) hstep, fun t => ?_, ⟨image, himg ▸ himage⟩, ?_⟩
  · show k'.core.terminalInstantiated t = true
    rw [hcore]
    exact h.up t
  · show k'.core.pcbArr = Function.update slots p true
    rw [hcore, ← h.pcbArr]
    rfl

theorem exists_occupied : ∃ k, Occupied shellKernel (fun _ => true) k := by
  obtain ⟨k, hrun, hshells, -⟩ :=
    exists_baseShells_shell AfterShells fun n k h => (keepsTables_boot n k h).afterShells
  have h₃ : Occupied shellKernel (fun p : Pid => decide ((p : Nat) ≤ 2)) k :=
    ⟨hrun, hshells.up, hshells.shell, hshells.pcbArr⟩
  obtain ⟨k₄, h₄⟩ := h₃.execute (p := 3) (by decide) { ebp := 0, esp := 0 }
  obtain ⟨k₅, h₅⟩ := h₄.execute (p := 4) (by decide) { ebp := 0, esp := 0 }
  obtain ⟨k₆, h₆⟩ := h₅.execute (p := 5) (by decide) { ebp := 0, esp := 0 }
  have hall : Function.update (Function.update (Function.update
      (fun p : Pid => decide ((p : Nat) ≤ 2)) 3 true) 4 true) 5 true = fun _ => true := by
    funext p
    revert p
    decide
  exact ⟨k₆, hall ▸ h₆⟩

/-- The seventh shell is refused with the value 0. -/
theorem seventh_shell_returns_zero : ∃ k, Reaches step AfterShells shellKernel k ∧
    newestPid k.tab.pcbArr = none ∧ ¬ k.FailsAtomically shellCall { ebp := 0, esp := 0 } := by
  obtain ⟨k, h⟩ := exists_occupied
  have hfree : newestPid k.tab.pcbArr = none := by
    rw [h.pcbArr]
    decide
  refine ⟨k, h.run, hfree, fun hatomic => ?_⟩
  obtain ⟨image, ⟨dentry, hfound, -, -⟩, -⟩ := h.shell
  have hzero : (k.execute shellCall { ebp := 0, esp := 0 }).2 = .returns 0 :=
    congrArg Prod.snd (execute_noSlot rfl hfound hfree _)
  have hreturns := (hatomic fun p hp => by rw [hzero] at hp; cases hp).returns
  rw [hzero] at hreturns
  exact absurd hreturns (by decide)

end Kernel

end StudentDistrib
