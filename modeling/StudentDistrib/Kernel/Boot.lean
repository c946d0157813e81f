import StudentDistrib.Files.Names
import StudentDistrib.Kernel.Starts
import StudentDistrib.Machine.Run

/-!
# The boot

`Booting n` is the state of the kernel while the shell of terminal `n` is the last
one started: pids 0 to `n` are the base shells of terminals 0 to `n`, and terminal
`n` is scheduled.  The kernel's entry and the first two timer interrupts go through
it for `n = 0, 1, 2`.  A run in which no other program starts before the three
shells is, once they are up, a run from a state of the last kind.
-/

namespace StudentDistrib

open Machine

namespace Kernel

/-- The image has a program called `shell` that fits the mapped pages. -/
structure HasShell (img : Image) (image : List UInt8) : Prop where
  found : ∃ dentry, img.readDentryByName (firstWord shellCommand shellCall.stack)
      shellCall.garbage = some dentry ∧
    img.readData dentry.inodeNum 0 4 = some elfMagic ∧
    img.readData dentry.inodeNum 0 0x400000 = some image
  fits : image.length ≤ loadRoom

theorem HasShell.unique {img : Image} {image image' : List UInt8} (h : HasShell img image)
    (h' : HasShell img image') : image' = image := by
  obtain ⟨⟨dentry, hfound, -, himage⟩, -⟩ := h
  obtain ⟨⟨dentry', hfound', -, himage'⟩, -⟩ := h'
  have hsame : dentry' = dentry := Option.some.inj (hfound'.symm.trans hfound)
  rw [hsame] at himage'
  exact Option.some.inj (himage'.symm.trans himage)

theorem HasShell.starting {k : Kernel} {image : List UInt8} {p : Pid} (h : HasShell k.img image)
    (hfree : newestPid k.tab.pcbArr = some p) : k.Starting shellCall p image := by
  obtain ⟨⟨dentry, hfound, helf, himage⟩, hfits⟩ := h
  exact ⟨⟨shellCommand, dentry, rfl, hfound, helf, himage⟩, hfree, hfits⟩

theorem Starting.hasShell {k : Kernel} {image : List UInt8} {p : Pid}
    (h : k.Starting shellCall p image) : HasShell k.img image := by
  obtain ⟨⟨command, dentry, hcommand, hfound, helf, himage⟩, -, hfits⟩ := h
  have hsame : command = shellCommand := (Option.some.inj hcommand).symm
  subst hsame
  exact ⟨⟨dentry, hfound, helf, himage⟩, hfits⟩

/-- The base shells of terminals 0 to `n` are started and terminal `n` is scheduled. -/
structure Booting (n : Term) (k : Kernel) : Prop where
  shell : ∃ image, HasShell k.img image
  scheduledTerm : k.scheduledTerm = n
  pcbArr : k.core.pcbArr = fun p : Pid => decide ((p : Nat) ≤ n)
  currPidForTerm : k.core.currPidForTerm = basePid
  parentPidForTerm : k.core.parentPidForTerm = basePid
  parent : ∀ t : Term, (t : Nat) ≤ n → k.core.parent (basePid t) = basePid t
  instantiated : k.core.terminalInstantiated = fun t : Term => decide ((t : Nat) ≤ n)
  notDone : k.core.doneInstantiating = false
  page : k.core.userPageAddress = (mb8 + mb4 * basePid n) / 2 ^ 22
  stack : k.core.tssEsp0 = mb8 - kb8 * basePid n
  running : k.core.running = some (basePid n)

theorem isBase_basePid (t : Term) : isBase (basePid t) = true := by
  revert t
  decide

variable {k k' : Kernel} {n : Term}

/-- A change of the console, the argument buffer and the descriptor tables. -/
theorem Booting.of_core (h : Booting n k) (hsched : k'.scheduledTerm = k.scheduledTerm)
    (himg : k'.img = k.img) {args : Bytes} (hcore : k'.core = { k.core with args }) :
    Booting n k' where
  shell := himg ▸ h.shell
  scheduledTerm := hsched.trans h.scheduledTerm
  pcbArr := by rw [hcore, ← h.pcbArr]
  currPidForTerm := by rw [hcore, ← h.currPidForTerm]
  parentPidForTerm := by rw [hcore, ← h.parentPidForTerm]
  parent := fun t ht => by rw [hcore]; exact h.parent t ht
  instantiated := by rw [hcore, ← h.instantiated]
  notDone := by rw [hcore, ← h.notDone]
  page := by rw [hcore, ← h.page]
  stack := by rw [hcore, ← h.stack]
  running := by rw [hcore, ← h.running]

theorem Booting.currPid (h : Booting n k) : k.currPid = basePid n := by
  show k.core.currPidForTerm k.scheduledTerm = basePid n
  rw [h.currPidForTerm, h.scheduledTerm]

theorem Booting.halt (h : Booting n k) : Booting n k.halt := by
  have hcore : k.halt.core = k.core := by
    rw [halt_core, h.currPid, isBase_basePid, if_pos rfl]
  exact h.of_core k.halt_scheduledTerm k.halt_img (hcore.trans rfl)

/-! ## The three shells -/

/-- The shell of the next terminal is started in the slot of its base pid. -/
theorem booting_launched {t : Term} {image : List UInt8} (r : Regs)
    (hterm : t = n) (hdisplay : k.con.vid.currentTerminal = n) (hsched : k.scheduledTerm = n)
    (hstart : k.Starting shellCall (basePid t) image)
    (hslots : Function.update k.core.pcbArr (basePid t) true
      = fun p : Pid => decide ((p : Nat) ≤ n))
    (hcurr : k.core.currPidForTerm = basePid) (hparents : k.core.parentPidForTerm = basePid)
    (hparent : ∀ u : Term, (u : Nat) < n → k.core.parent (basePid u) = basePid u)
    (hinst : k.core.terminalInstantiated = fun u : Term => decide ((u : Nat) ≤ n))
    (hdone : k.core.doneInstantiating = false) :
    Booting n (k.launched shellCall (basePid t) image r) := by
  subst hterm
  have hcore := launched_core shellCall (basePid t) image r k
  have hfresh : k.core.newParent t (basePid t) = basePid t := by
    unfold Core.newParent
    rw [isBase_basePid, if_pos rfl]
  rw [hdisplay] at hcore
  refine
    { shell := ⟨image, hstart.hasShell⟩
      scheduledTerm := (launched_scheduledTerm _ _ _ _ _).trans hsched
      pcbArr := by rw [hcore]; exact hslots
      currPidForTerm := ?_
      parentPidForTerm := ?_
      parent := fun u hu => ?_
      instantiated := by rw [hcore]; exact hinst
      notDone := by rw [hcore]; exact hdone
      page := by rw [hcore]; rfl
      stack := by rw [hcore]; rfl
      running := by rw [hcore]; rfl }
  · rw [hcore]
    show Function.update k.core.currPidForTerm t (basePid t) = basePid
    rw [hcurr, Function.update_eq_self]
  · rw [hcore]
    show Function.update k.core.parentPidForTerm t (k.core.currPidForTerm t) = basePid
    rw [hcurr, hparents, Function.update_eq_self]
  · rw [hcore]
    show Function.update k.core.parent (basePid t) (k.core.newParent t (basePid t)) (basePid u)
      = basePid u
    rw [hfresh]
    by_cases hut : u = t
    · rw [hut, Function.update_self]
    · have hne : basePid u ≠ basePid t := fun e => hut (basePid_injective e)
      rw [Function.update_of_ne hne]
      have hval : (u : Nat) ≠ t := fun e => hut (Fin.ext e)
      exact hparent u (by omega)

theorem init_newestPid (ram : Ram) (img : Image) :
    newestPid (init ram img).tab.pcbArr = some 0 := by
  have hfree : newestPid (fun _ => false) = some 0 := by decide
  exact hfree

/-- The kernel's entry starts the first shell. -/
theorem entry_eq (ram : Ram) {img : Image} {image : List UInt8} (h : HasShell img image) :
    entry ram img
      = some ((init ram img).launched shellCall 0 image { ebp := 0, esp := 0 }) := by
  have hstart : (init ram img).Starting shellCall 0 image := h.starting (init_newestPid ram img)
  unfold entry
  rw [execute_starts hstart]
  rfl

theorem entry_hasShell {ram : Ram} {img : Image} (h : entry ram img = some k) :
    ∃ image, HasShell img image := by
  obtain ⟨p, hp⟩ := ifStarts_eq_some.mp h
  obtain ⟨image, hstart⟩ := execute_eq_starts (congrArg Prod.snd hp)
  exact ⟨image, hstart.hasShell⟩

theorem init_currentTerminal (ram : Ram) (img : Image) :
    (init ram img).con.vid.currentTerminal = 0 := Video.init_currentTerminal ram.mem

theorem init_scheduledTerm (ram : Ram) (img : Image) : (init ram img).scheduledTerm = 0 :=
  Video.init_scheduledTerm ram.mem

theorem entry_booting {ram : Ram} {img : Image} (h : entry ram img = some k) :
    Booting 0 k ∧ k.con.kb = Keyboard.init ∧
      k.con.vid.selection = (Video.init ram.mem).selection := by
  obtain ⟨image, himage⟩ := entry_hasShell h
  have hstart : (init ram img).Starting shellCall (basePid 0) image :=
    himage.starting (init_newestPid ram img)
  have hk : (init ram img).launched shellCall (basePid 0) image { ebp := 0, esp := 0 } = k :=
    Option.some.inj ((entry_eq ram himage).symm.trans h)
  rw [← hk]
  refine ⟨booting_launched _ rfl (init_currentTerminal ram img) (init_scheduledTerm ram img)
    hstart ?_ rfl rfl (fun u hu => absurd hu (Nat.not_lt_zero u)) ?_ rfl, rfl,
    launched_selection _ _ _ _ _⟩
  · funext p
    show Function.update (fun _ : Pid => false) (basePid 0) true p = _
    revert p
    decide
  · funext t
    show decide (t = 0) = _
    revert t
    decide

theorem next_val : ∀ n m : Term, m = n + 1 → (m = 1 ∨ m = 2) → (n : Nat) + 1 = m := by decide

theorem next_waits : ∀ n : Term, n ≠ 2 → n + 1 = 1 ∨ n + 1 = 2 := by decide

/-- The terminal that follows still waits for its shell. -/
theorem Booting.waits {m : Term} (h : Booting n k) (hm : m = n + 1) (hshell : m = 1 ∨ m = 2)
    (r : Regs) : (k.preempted r).scheduledTerm = m ∧ (k.preempted r).WaitsForShell := by
  have hlt : (n : Nat) + 1 = m := next_val n m hm hshell
  have hsched : (k.preempted r).scheduledTerm = m := by
    simp [h.scheduledTerm, hm]
  refine ⟨hsched, by rw [hsched]; exact hshell, ?_⟩
  show (k.preempted r).core.terminalInstantiated (k.preempted r).scheduledTerm = false
  rw [preempted_core, hsched]
  show k.core.terminalInstantiated m = false
  rw [h.instantiated]
  exact decide_eq_false (by omega)

/-- The first and the second timer interrupt start the other two shells. -/
theorem Booting.tick_launched {m : Term} (h : Booting n k) (hm : m = n + 1)
    (hshell : m = 1 ∨ m = 2) (r : Regs) : ∃ image, HasShell k.img image ∧
      k.pitHandler r
        = some (((k.preempted r).shellReady m).launched shellCall (basePid m) image r) ∧
      Booting m (((k.preempted r).shellReady m).launched shellCall (basePid m) image r) := by
  obtain ⟨image, himage⟩ := h.shell
  have hlt : (n : Nat) + 1 = m := next_val n m hm hshell
  have hcore := preempted_core r k
  obtain ⟨hsched, hwaits⟩ := h.waits hm hshell r
  have hslots : newestPid (k.preempted r).tab.pcbArr = some (basePid m) := by
    have harr : (k.preempted r).tab.pcbArr = fun p : Pid => decide ((p : Nat) ≤ n) := h.pcbArr
    rw [harr]
    rcases hshell with rfl | rfl
    · have hn : n = 0 := Fin.ext (Nat.succ.inj hlt)
      rw [hn]
      decide
    · have hn : n = 1 := Fin.ext (Nat.succ.inj hlt)
      rw [hn]
      decide
  have himg : ((k.preempted r).shellReady m).img = k.img := by simp
  have harr : ((k.preempted r).shellReady m).tab.pcbArr = (k.preempted r).tab.pcbArr :=
    congrArg Core.pcbArr (shellReady_core m (k.preempted r))
  have hstart : ((k.preempted r).shellReady m).Starting shellCall (basePid m) image :=
    HasShell.starting (by rw [himg]; exact himage) (by rw [harr]; exact hslots)
  have hready := shellReady_core m (k.preempted r)
  rw [hcore] at hready
  refine ⟨image, himage, ?_, ?_⟩
  · rw [pitHandler_shell hwaits, hsched, execute_starts hstart]
    rfl
  · refine booting_launched r rfl (shellReady_currentTerminal m _)
      ((shellReady_scheduledTerm m _).trans hsched) hstart ?_ ?_ ?_ (fun u hu => ?_) ?_ ?_
    · rw [hready]
      funext p
      show Function.update k.core.pcbArr (basePid m) true p = _
      rw [h.pcbArr]
      by_cases hp : p = basePid m
      · rw [hp, Function.update_self]
        exact (decide_eq_true (Nat.le_refl _)).symm
      · have hval : (p : Nat) ≠ m := fun e => hp (Fin.ext e)
        rw [Function.update_of_ne hp]
        exact decide_eq_decide.mpr (by omega)
    · rw [hready]
      exact h.currPidForTerm
    · rw [hready]
      exact h.parentPidForTerm
    · rw [hready]
      exact h.parent u (by omega)
    · rw [hready]
      funext t
      show Function.update k.core.terminalInstantiated m true t = _
      rw [h.instantiated]
      by_cases ht : t = m
      · rw [ht, Function.update_self]
        exact (decide_eq_true (Nat.le_refl _)).symm
      · have hval : (t : Nat) ≠ m := fun e => ht (Fin.ext e)
        rw [Function.update_of_ne ht]
        exact decide_eq_decide.mpr (by omega)
    · rw [hready]
      exact h.notDone

theorem Booting.tick {m : Term} (h : Booting n k) (hm : m = n + 1) (hshell : m = 1 ∨ m = 2)
    (r : Regs) : ∃ k', k.pitHandler r = some k' ∧ Booting m k' ∧
      k'.con.kb = (k.con.nextTerminal.startScreen m).kb ∧ k'.con.vid.currentTerminal = m := by
  obtain ⟨image, -, htick, hboot⟩ := h.tick_launched hm hshell r
  refine ⟨_, htick, hboot, ?_, ?_⟩
  · rw [launched_kb, shellReady_con, preempted_con]
  · rw [launched_currentTerminal, shellReady_currentTerminal]

/-! ## Runs from the entry -/

theorem Booting.shellsUp_iff (h : Booting n k) : k.ShellsUp ↔ n = 2 := by
  have hinst : ∀ t : Term, k.tab.terminalInstantiated t = decide ((t : Nat) ≤ n) :=
    congrFun h.instantiated
  unfold ShellsUp
  constructor
  · intro hup
    have hlast := hup 2
    rw [hinst] at hlast
    have hle : ((2 : Term) : Nat) ≤ n := of_decide_eq_true hlast
    have htwo : ((2 : Term) : Nat) = 2 := rfl
    exact Fin.ext (by omega)
  · rintro rfl t
    rw [hinst]
    have htwo : ((2 : Term) : Nat) = 2 := rfl
    exact decide_eq_true (by omega)

/-- Before the shells are up, an admitted step is the timer's or leaves the boot
where it is. -/
theorem Booting.step {e : Event} (h : Booting n k) (hn : n ≠ 2) (he : k.KeepsTables e)
    (hstep : k.step e = some k') : Booting n k' ∨ Booting (n + 1) k' := by
  by_cases hchooses : e.Chooses
  · cases e with
    | tick r =>
      obtain ⟨j, hj, hboot, -⟩ := h.tick rfl (next_waits n hn) r
      have hsame : j = k' := Option.some.inj (hj.symm.trans hstep)
      exact Or.inr (hsame ▸ hboot)
    | execute call r =>
      rcases execute_step hstep with ⟨p, image, hstart, -⟩ | hrefused | ⟨p, image, hover, -⟩
      · exact absurd (h.shellsUp_iff.mp (he.afterShells p (hstart.startsProgram r))) hn
      · exact Or.inl (h.of_core hrefused.scheduledTerm hrefused.img hrefused.core)
      · exact absurd (h.shellsUp_iff.mp (he.displayed (hover.overruns r)).1) hn
    | halt status =>
      cases hstep
      exact Or.inl h.halt
    | _ => exact absurd hchooses id
  · have haside := aside_step hchooses hstep
    exact Or.inl (h.of_core haside.scheduledTerm haside.img (haside.core.trans rfl))

/-- Once the shells are up, a run from the entry has gone through the end of the
boot. -/
theorem exists_booting {ok : Kernel → Event → Prop} (hok : ∀ k e, ok k e → k.KeepsTables e)
    {ram : Ram} {img : Image} {k₀ : Kernel} (hentry : entry ram img = some k₀)
    (hrun : Reaches step ok k₀ k) (hup : k.ShellsUp) :
    ∃ k₂, Booting 2 k₂ ∧ Reaches step ok k₂ k := by
  have hphase : (∃ n, n ≠ 2 ∧ Booting n k) ∨ ∃ k₂, Booting 2 k₂ ∧ Reaches step ok k₂ k := by
    clear hup
    induction hrun with
    | refl => exact Or.inl ⟨0, by decide, (entry_booting hentry).1⟩
    | @tail j k' hprev hmove ih =>
      obtain ⟨e, he, hstep⟩ := hmove
      rcases ih with ⟨n, hn, hboot⟩ | ⟨k₂, hboot, hrun⟩
      · rcases hboot.step hn (hok j e he) hstep with hsame | hnext
        · exact Or.inl ⟨n, hn, hsame⟩
        · by_cases hlast : n + 1 = 2
          · exact Or.inr ⟨k', hlast ▸ hnext, .refl⟩
          · exact Or.inl ⟨n + 1, hlast, hnext⟩
      · exact Or.inr ⟨k₂, hboot, hrun.step he hstep⟩
  rcases hphase with ⟨n, hn, hboot⟩ | hbooted
  · exact absurd (hboot.shellsUp_iff.mp hup) hn
  · exact hbooted

/-! ## A machine with one shell -/

theorem firstWord_shell :
    (firstWord shellCommand shellCall.stack).name 33 = [0x73, 0x68, 0x65, 0x6C, 0x6C] := by decide

/-- The block of `shellImage` that `execute` loads. -/
def shellBytes : List UInt8 := shellImage.fileBytes 0 0 4096

theorem shellBytes_fits : shellBytes.length ≤ pageRoom := by
  unfold shellBytes
  rw [Image.length_fileBytes]
  decide

theorem shellImage_loads : shellImage.readData 0 0 4 = some elfMagic ∧
    shellImage.readData 0 0 0x400000 = some shellBytes := by
  have hread : shellImage.readData 0 0 0x400000 = _ :=
    Image.readData_eq_fileBytes shellImage_wellFormed (by decide) (by decide) 0x400000
  refine ⟨by decide, ?_⟩
  rw [hread, shellImage_length]
  rfl

theorem hasShell_shellImage : HasShell shellImage shellBytes := by
  obtain ⟨dentry, hfound, -, hinode⟩ := shellImage_found
    (firstWord shellCommand shellCall.stack) (by decide) (by decide) shellCall.garbage
  refine ⟨⟨dentry, hfound, ?_, ?_⟩, shellBytes_fits.trans (Nat.le_add_right _ _)⟩
  · rw [hinode]
    exact shellImage_loads.1
  · rw [hinode]
    exact shellImage_loads.2

/-- Memory that holds zeros. -/
def zeroRam : Ram where
  mem := Bytes.ofList []
  pcb := fun _ =>
    { parent := 0
      scheduled := { ebp := 0, esp := 0 }
      saved := { ebp := 0, esp := 0 }
      eip := 0
      fdArray := fun _ => { jumpTable := none, inodeCheck := 0, filePosition := 0, flags := 0 }
      openIndexes := fun _ => 0 }
  userPage := fun _ => Bytes.ofList []

/-- The kernel with the first shell of `shellImage` running. -/
def shellKernel : Kernel :=
  (init zeroRam shellImage).launched shellCall 0 shellBytes { ebp := 0, esp := 0 }

theorem shellKernel_img : shellKernel.img = shellImage :=
  launched_img shellCall 0 shellBytes { ebp := 0, esp := 0 } (init zeroRam shellImage)

theorem entry_shellImage : entry zeroRam shellImage = some shellKernel :=
  entry_eq zeroRam hasShell_shellImage

end Kernel

end StudentDistrib
