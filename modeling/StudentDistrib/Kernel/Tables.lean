import StudentDistrib.Kernel.BaseShells
import StudentDistrib.Machine.ParentChain

/-!
# The process tables

Once the base shells are up, an event is one of six: it leaves the core alone, the
timer moves to the next terminal, `execute` starts a program, is refused or page-faults,
or `halt` returns to the parent.  The processes of each terminal form a chain of parents down to
its base shell, and the three chains are the slots in use.
-/

namespace StudentDistrib

open Machine

namespace Kernel

variable {k k' : Kernel} {e : Event}

/-! ## The steps after the boot -/

/-- What a step does to the core once the base shells are up. -/
inductive CoreStep (k : Kernel) : Event → Kernel → Prop
  | aside {e : Event} {k' : Kernel} (he : ¬ e.Chooses) (h : Aside k k') : CoreStep k e k'
  | tick {k' : Kernel} (r : Regs) (hk : k' = (k.preempted r).resume)
      (hcore : k'.core = (k.core.preempt k.scheduledTerm r).resume (k.scheduledTerm + 1))
      (hsched : k'.scheduledTerm = k.scheduledTerm + 1) : CoreStep k (.tick r) k'
  | start {k' : Kernel} {call : ExecCall} {r : Regs} {p : Pid} {image : List UInt8}
      (hstart : k.Starting call p image) (hk : k' = k.launched call p image r)
      (hcore : k'.core
        = k.core.launch k.con.vid.currentTerminal p r (call.argsAfter k.tab.args))
      (hsched : k'.scheduledTerm = k.scheduledTerm) : CoreStep k (.execute call r) k'
  | refused {k' : Kernel} {call : ExecCall} {r : Regs} (hrefused : k.Refused call k')
      (hcore : k'.core = { k.core with args := call.argsAfter k.tab.args })
      (hsched : k'.scheduledTerm = k.scheduledTerm) : CoreStep k (.execute call r) k'
  | fault {k' : Kernel} {call : ExecCall} {r : Regs} {p : Pid} {image : List UInt8}
      (hover : k.Overrunning call p image) (hk : k' = (k.faulted call p image).halt)
      (hsched : k'.scheduledTerm = k.scheduledTerm) : CoreStep k (.execute call r) k'
  | restart {k' : Kernel} {status : UInt8} (hbase : isBase k.currPid = true)
      (hcore : k'.core = k.core) (hsched : k'.scheduledTerm = k.scheduledTerm) :
      CoreStep k (.halt status) k'
  | release {k' : Kernel} {status : UInt8} (hbase : ¬ isBase k.currPid = true)
      (hcore : k'.core = k.core.release k.scheduledTerm)
      (hsched : k'.scheduledTerm = k.scheduledTerm) : CoreStep k (.halt status) k'

theorem step_coreStep (hup : k.ShellsUp) (h : k.step e = some k') : k.CoreStep e k' := by
  by_cases hchooses : e.Chooses
  · cases e with
    | tick r =>
      have htick : k.pitHandler r = some k' := h
      rw [pitHandler_resume (not_waitsForShell hup r), Option.some.injEq] at htick
      refine .tick r htick.symm ?_ ?_
      · rw [← htick, resumed_core]
      · simp [← htick]
    | execute call r =>
      rcases execute_step h with ⟨p, image, hstart, -, hk⟩ | hrefused | ⟨p, image, hover, hk⟩
      · refine .start hstart hk ?_ ?_
        · rw [hk, launched_core]
        · rw [hk, launched_scheduledTerm]
      · exact .refused hrefused hrefused.core hrefused.scheduledTerm
      · refine .fault hover hk ?_
        rw [hk, halt_scheduledTerm, faulted_scheduledTerm]
    | halt status =>
      have hhalt : k.halt = k' := Option.some.inj h
      have hcore := halt_core k
      rw [hhalt] at hcore
      by_cases hbase : isBase k.currPid = true
      · rw [if_pos hbase] at hcore
        exact .restart hbase hcore (hhalt ▸ k.halt_scheduledTerm)
      · rw [if_neg hbase] at hcore
        exact .release hbase hcore (hhalt ▸ k.halt_scheduledTerm)
    | _ => exact absurd hchooses id
  · exact .aside hchooses (aside_step hchooses h)

theorem halt_instantiated (k : Kernel) :
    k.halt.core.terminalInstantiated = k.core.terminalInstantiated := by
  rw [halt_core]
  split <;> rfl

/-- The step changes no entry of `terminal_instantiated`. -/
theorem CoreStep.instantiated (h : k.CoreStep e k') :
    k'.core.terminalInstantiated = k.core.terminalInstantiated := by
  cases h with
  | aside _ h => rw [h.core]
  | tick _ _ hcore => rw [hcore]; rfl
  | start _ _ hcore => rw [hcore]; rfl
  | refused _ hcore => rw [hcore]
  | fault _ hk =>
    rw [hk, halt_instantiated, faulted_core]
    rfl
  | restart _ hcore => rw [hcore]
  | release _ hcore => rw [hcore]; rfl

theorem step_shellsUp (hup : k.ShellsUp) (h : k.step e = some k') : k'.ShellsUp := by
  intro t
  show k'.core.terminalInstantiated t = true
  rw [(step_coreStep hup h).instantiated]
  exact hup t

end Kernel

/-! ## The chains -/

namespace Core

/-- The processes of each terminal form a chain of parents from the current one to
its base shell. -/
structure Chained (c : Core) (above : Term → List Pid) : Prop where
  forest : ParentForest c.parent basePid (fun p => c.pcbArr p = true) c.currPidForTerm above
  parents : ∀ t, c.parentPidForTerm t = c.parent (c.currPidForTerm t)

variable {c c' : Core} {above : Term → List Pid}

theorem Chained.of_eq (h : c.Chained above) (harr : c'.pcbArr = c.pcbArr)
    (hcurr : c'.currPidForTerm = c.currPidForTerm)
    (hparents : c'.parentPidForTerm = c.parentPidForTerm) (hparent : c'.parent = c.parent) :
    c'.Chained above where
  forest := by
    rw [harr, hcurr, hparent]
    exact h.forest
  parents := by
    rw [hcurr, hparents, hparent]
    exact h.parents

theorem isBase_iff (p : Pid) : Kernel.isBase p = true ↔ ∃ t, p = basePid t := by
  revert p
  decide

/-- The current process of a terminal is a base shell only if it is the terminal's
own. -/
theorem Chained.isBase_curr_iff (h : c.Chained above) (t : Term) :
    Kernel.isBase (c.currPidForTerm t) = true ↔ c.currPidForTerm t = basePid t := by
  rw [isBase_iff]
  constructor
  · rintro ⟨u, hu⟩
    rw [h.forest.eq_of_head_eq_root hu, ← hu, h.forest.eq_of_head_eq_root hu]
  · intro hbase
    exact ⟨t, hbase⟩

/-- A free slot is that of no base shell. -/
theorem Chained.not_isBase (h : c.Chained above) {p : Pid} (hfree : c.pcbArr p = false) :
    ¬ Kernel.isBase p = true := by
  rw [isBase_iff]
  rintro ⟨t, rfl⟩
  have hlive := h.forest.live_root t
  rw [hfree] at hlive
  cases hlive

theorem Chained.launch (h : c.Chained above) {p : Pid} (hfree : c.pcbArr p = false) (t : Term)
    (r : Regs) (args : Bytes) : (c.launch t p r args).Chained
      (Function.update above t (c.currPidForTerm t :: above t)) := by
  have hparent : c.newParent t p = c.currPidForTerm t := if_neg (h.not_isBase hfree)
  have hfree' : ¬ c.pcbArr p = true := by
    rw [hfree]
    decide
  constructor
  · show ParentForest (Function.update c.parent p (c.newParent t p)) basePid
      (fun q => Function.update c.pcbArr p true q = true) (Function.update c.currPidForTerm t p) _
    rw [hparent]
    refine h.forest.push hfree' t fun q => ?_
    by_cases hq : q = p
    · rw [hq, Function.update_self]
      exact ⟨fun _ => Or.inl rfl, fun _ => rfl⟩
    · rw [Function.update_of_ne hq]
      exact ⟨Or.inr, fun hlive => hlive.resolve_left hq⟩
  · intro u
    show Function.update c.parentPidForTerm t (c.currPidForTerm t) u
      = Function.update c.parent p (c.newParent t p) (Function.update c.currPidForTerm t p u)
    by_cases hu : u = t
    · rw [hu, Function.update_self, Function.update_self, Function.update_self, hparent]
    · have hne : c.currPidForTerm u ≠ p := by
        rintro rfl
        exact hfree' (h.forest.live_head u)
      rw [Function.update_of_ne hu, Function.update_of_ne hu, Function.update_of_ne hne,
        h.parents u]

theorem Chained.release (h : c.Chained above) {t : Term}
    (hbase : ¬ Kernel.isBase (c.currPidForTerm t) = true) :
    (c.release t).Chained (Function.update above t (above t).tail) := by
  have hroot : c.currPidForTerm t ≠ basePid t := fun e => hbase ((h.isBase_curr_iff t).mpr e)
  constructor
  · show ParentForest c.parent basePid
      (fun q => Function.update c.pcbArr (c.currPidForTerm t) false q = true)
      (Function.update c.currPidForTerm t (c.parentPidForTerm t)) _
    rw [h.parents t]
    refine h.forest.pop hroot fun q => ?_
    by_cases hq : q = c.currPidForTerm t
    · rw [hq, Function.update_self]
      exact ⟨fun e => Bool.noConfusion e, fun e => absurd rfl e.1⟩
    · rw [Function.update_of_ne hq]
      exact ⟨fun hlive => ⟨hq, hlive⟩, fun e => e.2⟩
  · intro u
    show Function.update c.parentPidForTerm t (c.parent (c.parentPidForTerm t)) u
      = c.parent (Function.update c.currPidForTerm t (c.parentPidForTerm t) u)
    by_cases hu : u = t
    · rw [hu, Function.update_self, Function.update_self]
    · rw [Function.update_of_ne hu, Function.update_of_ne hu, h.parents u]

end Core

namespace Kernel

variable {k k' : Kernel} {e : Event}

/-- The tables of the kernel are those of three chains. -/
def Chained (k : Kernel) : Prop := ∃ above, k.core.Chained above

/-- A call that faults while the terminal of its caller is displayed takes the caller
back to its last call of `execute`. -/
theorem faulted_halt_core {above : Term → List Pid} (habove : k.core.Chained above)
    {call : ExecCall} {p : Pid} {image : List UInt8} (hover : k.Overrunning call p image)
    (hdisplay : k.con.vid.currentTerminal = k.scheduledTerm) :
    (k.faulted call p image).halt.core
      = k.core.recalled k.scheduledTerm (call.argsAfter k.tab.args) := by
  have hfree : k.core.pcbArr p = false := newestPid_free hover.free
  have hcore := faulted_core call p image k
  have hsched := faulted_scheduledTerm call p image k
  rw [hdisplay] at hcore
  generalize k.faulted call p image = j at hcore hsched
  have hcurr : j.currPid = p := by
    show j.core.currPidForTerm j.scheduledTerm = p
    rw [hcore, hsched]
    exact Function.update_self ..
  rw [halt_core, hcurr, if_neg (habove.not_isBase hfree), hcore, hsched]
  exact Core.claim_release hfree (habove.parents _) _

theorem CoreStep.chained (h : k.CoreStep e k') (he : k.KeepsTables e) (hchained : k.Chained) :
    k'.Chained := by
  obtain ⟨above, habove⟩ := hchained
  cases h with
  | aside _ h =>
    refine ⟨above, ?_⟩
    rw [h.core]
    exact habove
  | tick r _ hcore =>
    refine ⟨above, ?_⟩
    rw [hcore]
    exact habove.of_eq rfl rfl rfl rfl
  | @start _ call r p _ hstart _ hcore =>
    have hlaunch := habove.launch (newestPid_free hstart.free) k.con.vid.currentTerminal r
      (call.argsAfter k.tab.args)
    rw [← hcore] at hlaunch
    exact ⟨_, hlaunch⟩
  | refused _ hcore =>
    refine ⟨above, ?_⟩
    rw [hcore]
    exact habove.of_eq rfl rfl rfl rfl
  | @fault _ call r p image hover hk =>
    refine ⟨above, ?_⟩
    rw [hk, faulted_halt_core habove hover (he.displayed (hover.overruns r)).2]
    exact habove.of_eq rfl rfl rfl rfl
  | restart _ hcore =>
    refine ⟨above, ?_⟩
    rw [hcore]
    exact habove
  | release hbase hcore =>
    have hrelease := habove.release (t := k.scheduledTerm) hbase
    rw [← hcore] at hrelease
    exact ⟨_, hrelease⟩

/-- At the end of the boot each chain is a base shell. -/
theorem Booting.chained (h : Booting 2 k) : k.core.Chained fun _ => [] := by
  have htwo : ((2 : Term) : Nat) = 2 := rfl
  have hparent : ∀ t, k.core.parent (basePid t) = basePid t := by
    intro t
    exact h.parent t (by omega)
  refine ⟨⟨fun t => ?_, fun t u hne => ?_, fun p => ?_⟩, fun t => ?_⟩
  · rw [h.currPidForTerm]
    exact .singleton (hparent t)
  · rw [h.currPidForTerm]
    refine List.disjoint_singleton.mpr fun hmem => ?_
    exact hne (basePid_injective (List.mem_singleton.mp hmem).symm)
  · rw [h.pcbArr, h.currPidForTerm, htwo]
    revert p
    decide
  · rw [h.parentPidForTerm, h.currPidForTerm, hparent t]

theorem reaches_chained {ok : Kernel → Event → Prop} (hok : ∀ k e, ok k e → k.KeepsTables e)
    {ram : Ram} {img : Image} {k₀ : Kernel} (hentry : entry ram img = some k₀)
    (hrun : Reaches step ok k₀ k) (hup : k.ShellsUp) : k.Chained := by
  obtain ⟨k₂, hboot, hrun₂⟩ := exists_booting hok hentry hrun hup
  have hkept : k.ShellsUp ∧ k.Chained := by
    refine hrun₂.invariant (I := fun k => k.ShellsUp ∧ k.Chained) ?_
      ⟨hboot.shellsUp_iff.mpr rfl, _, hboot.chained⟩
    intro j e j' hj he hstep
    exact ⟨step_shellsUp hj.1 hstep, (step_coreStep hj.1 hstep).chained (hok j e he) hj.2⟩
  exact hkept.2

/-- The command `big`. -/
def bigCommand : CString := CString.ofList [0x62, 0x69, 0x67] (by simp)

def bigCall : ExecCall := { shellCall with command := some bigCommand }

theorem bigImage_head {inode : Int} (h0 : 0 ≤ inode) (hinode : inode < 2) :
    bigImage.readData inode 0 4 = some elfMagic := by
  have hvalid : 0 ≤ inode ∧ inode < bigImage.numInodes := by
    rw [bigImage_inodes]
    exact ⟨h0, hinode⟩
  have hlength : 0 + ((4 : Nat) : Int) ≤ bigImage.inodeLength inode := by
    have hcases : inode = 0 ∨ inode = 1 := by omega
    rcases hcases with rfl | rfl
    · rw [bigImage_length.1]
      omega
    · rw [bigImage_length.2]
      omega
  have hhead := Image.readData_eq (n := 4) bigImage_wellFormed hvalid (Int.le_refl 0) hlength
  rw [bigImage_magic h0 hinode] at hhead
  exact hhead

/-- The image of a file of `bigImage`. -/
theorem bigImage_image (inode : Int) (h0 : 0 ≤ inode) (hinode : inode < 2) :
    ∃ n, bigImage.readData inode 0 0x400000 = some (bigImage.fileBytes inode 0 n) ∧
      n = min (u32 0x400000).toNat (Image.blockEnd (bigImage.inodeLength inode) - u32 0).toNat := by
  have hvalid : 0 ≤ inode ∧ inode < bigImage.numInodes := by
    rw [bigImage_inodes]
    exact ⟨h0, hinode⟩
  have hfrom : u32 0 ≤ bigImage.inodeLength inode :=
    (bigImage_wellFormed.length_lt hvalid).1
  have hzero : u32 0 = 0 := by decide
  have hread := Image.readData_eq_fileBytes bigImage_wellFormed hvalid hfrom 0x400000
  exact ⟨_, hread, rfl⟩

theorem bigImage_hasShell : ∃ image, HasShell bigImage image ∧ image.length ≤ pageRoom := by
  obtain ⟨dentry, hread, -, hinode⟩ := Image.readDentryByName_found firstWord_shell (by decide)
    bigImage_named.1 shellCall.garbage
  rw [Int.natCast_zero, bigImage_inode.1] at hinode
  obtain ⟨n, himage, hn⟩ := bigImage_image 0 (by decide) (by decide)
  rw [bigImage_length.1] at hn
  have hlength : (bigImage.fileBytes 0 0 n).length ≤ pageRoom := by
    rw [Image.length_fileBytes, hn]
    decide
  refine ⟨bigImage.fileBytes 0 0 n,
    ⟨⟨dentry, hread, ?_, ?_⟩, hlength.trans (Nat.le_add_right _ _)⟩, hlength⟩
  · rw [hinode]
    exact bigImage_head (by decide) (by decide)
  · rw [hinode]
    exact himage

theorem bigCall_overrunning (himg : k.img = bigImage) {p : Pid}
    (hfree : newestPid k.tab.pcbArr = some p) : ∃ image, k.Overrunning bigCall p image := by
  have hword : (firstWord bigCommand bigCall.stack).name 33 = [0x62, 0x69, 0x67] := by decide
  obtain ⟨dentry, hread, -, hinode⟩ :=
    Image.readDentryByName_found hword (by decide) bigImage_named.2 bigCall.garbage
  rw [Int.natCast_one, bigImage_inode.2] at hinode
  obtain ⟨n, himage, hn⟩ := bigImage_image 1 (by decide) (by decide)
  rw [bigImage_length.2] at hn
  refine ⟨bigImage.fileBytes 1 0 n, ⟨bigCommand, dentry, rfl, ?_, ?_, ?_⟩, hfree, ?_⟩
  · rw [himg]
    exact hread
  · rw [himg, hinode]
    exact bigImage_head (by decide) (by decide)
  · rw [himg, hinode]
    exact himage
  · rw [Image.length_fileBytes, hn]
    decide

theorem overrun_currPid {call : ExecCall} {p : Pid} {image : List UInt8}
    (hshells : BaseShells 0 k) (hdisplay : k.con.vid.currentTerminal = 1) :
    (k.faulted call p image).currPid = 0 := by
  have hcore := faulted_core call p image k
  have hsched := faulted_scheduledTerm call p image k
  generalize k.faulted call p image = j at hcore hsched
  show j.core.currPidForTerm j.scheduledTerm = 0
  rw [hcore, hsched, hshells.scheduledTerm, hdisplay]
  show Function.update k.core.currPidForTerm 1 p 0 = 0
  rw [hshells.currPidForTerm]
  rfl

/-- The first shell executes `big` while the second terminal is displayed. -/
theorem exists_overrun (ok : Kernel → Event → Prop)
    (hboot : ∀ n k, Booting n k → ok k (.tick (baseFrame n))) (hkey : ∀ k scan, ok k (.key scan)) :
    ∃ k₀ k image, entry zeroRam bigImage = some k₀ ∧ Reaches step ok k₀ k ∧ BaseShells 0 k ∧
      k.con.vid.currentTerminal = 1 ∧ k.core.parent 3 = 0 ∧ k.Overrunning bigCall 3 image ∧
      ∀ r, k.step (.execute bigCall r) = some (k.faulted bigCall 3 image).halt := by
  obtain ⟨shell, hshell, hfits⟩ := bigImage_hasShell
  obtain ⟨k₀, k, hentry, hbooted, hrun, hshells, -⟩ :=
    exists_baseShells ok hboot zeroRam hshell hfits
  obtain ⟨-, c, -, -, hswitch, haside, hdisplay⟩ := exists_displayed hkey 1 k
  have hshells' := hshells.aside haside
  have hparent : k.core.parent 3 = 0 := boot_parent hbooted (by decide)
  have hfree : newestPid k.tab.pcbArr = some 3 := by
    have harr : k.tab.pcbArr = fun p : Pid => decide ((p : Nat) ≤ 2) := hshells.pcbArr
    rw [harr]
    decide
  have himg : k.img = bigImage := (reaches_img hrun).trans (entry_img hshell hentry)
  obtain ⟨image, hover⟩ := bigCall_overrunning (k := { k with con := c }) himg hfree
  refine ⟨k₀, { k with con := c }, image, hentry, hrun.trans hswitch, hshells', hdisplay, hparent,
    hover, hover.step_base ?_⟩
  rw [overrun_currPid hshells' hdisplay]
  decide

end Kernel

end StudentDistrib
