import StudentDistrib.Kernel.Boot

/-!
# The machine after the boot

`BaseShells t` is the state in which only the three base shells exist and that of
terminal `t` runs.  The third timer interrupt of the boot leads to it, and every
further one moves it to the next terminal.
-/

namespace StudentDistrib

open Machine

namespace Kernel

/-- Only the base shells exist, and that of terminal `t` runs.  The others wait on
their own kernel stacks. -/
structure BaseShells (t : Term) (k : Kernel) : Prop where
  shell : ∃ image, HasShell k.img image
  scheduledTerm : k.scheduledTerm = t
  pcbArr : k.core.pcbArr = fun p : Pid => decide ((p : Nat) ≤ 2)
  currPidForTerm : k.core.currPidForTerm = basePid
  parentPidForTerm : k.core.parentPidForTerm = basePid
  parent : ∀ u, k.core.parent (basePid u) = basePid u
  up : k.ShellsUp
  done : k.core.doneInstantiating = true
  running : k.core.running = some (basePid t)
  frames : ∀ u, u ≠ t → stackOwner (k.core.scheduled (basePid u)).esp = some (basePid u)

variable {k k' : Kernel} {t : Term}

theorem BaseShells.currPid (h : BaseShells t k) : k.currPid = basePid t := by
  show k.core.currPidForTerm k.scheduledTerm = basePid t
  rw [h.currPidForTerm, h.scheduledTerm]

/-- The calls on descriptors, the keys and refused calls of `execute`. -/
theorem BaseShells.of_core (h : BaseShells t k) (hsched : k'.scheduledTerm = k.scheduledTerm)
    (himg : k'.img = k.img) {args : Bytes} (hcore : k'.core = { k.core with args }) :
    BaseShells t k' where
  shell := himg ▸ h.shell
  scheduledTerm := hsched.trans h.scheduledTerm
  pcbArr := by rw [hcore, ← h.pcbArr]
  currPidForTerm := by rw [hcore, ← h.currPidForTerm]
  parentPidForTerm := by rw [hcore, ← h.parentPidForTerm]
  parent := fun u => by rw [hcore]; exact h.parent u
  up := fun u => by
    show k'.core.terminalInstantiated u = true
    rw [hcore]
    exact h.up u
  done := by rw [hcore, ← h.done]
  running := by rw [hcore, ← h.running]
  frames := fun u hu => by rw [hcore]; exact h.frames u hu

theorem BaseShells.aside (h : BaseShells t k) (haside : Aside k k') : BaseShells t k' :=
  h.of_core haside.scheduledTerm haside.img (haside.core.trans rfl)

/-- The next program is started in slot 3. -/
theorem BaseShells.starting (h : BaseShells t k) : ∃ image, k.Starting shellCall 3 image := by
  obtain ⟨image, himage⟩ := h.shell
  have hfree : newestPid k.tab.pcbArr = some 3 := by
    have harr : k.tab.pcbArr = fun p : Pid => decide ((p : Nat) ≤ 2) := h.pcbArr
    rw [harr]
    decide
  exact ⟨image, himage.starting hfree⟩

theorem not_waitsForShell (h : k.ShellsUp) (r : Regs) : ¬ (k.preempted r).WaitsForShell := by
  rintro ⟨-, hwaits⟩
  have hup : (k.preempted r).tab.terminalInstantiated (k.preempted r).scheduledTerm = true := h _
  rw [hup] at hwaits
  cases hwaits

theorem resumed_core (r : Regs) (k : Kernel) : (k.preempted r).resume.core
    = (k.core.preempt k.scheduledTerm r).resume (k.scheduledTerm + 1) := by
  rw [resume_core, preempted_core, preempted_scheduledTerm]

/-- A timer interrupt on the stack of the running shell. -/
theorem BaseShells.tick (h : BaseShells t k) {r : Regs}
    (hr : stackOwner r.esp = some (basePid t)) :
    k.pitHandler r = some (k.preempted r).resume ∧
      BaseShells (t + 1) (k.preempted r).resume := by
  have hnext : ∀ u : Term, u + 1 ≠ u := by decide
  have hne := hnext t
  have hcore := resumed_core r k
  rw [h.scheduledTerm] at hcore
  have hframe : stackOwner (Function.update k.core.scheduled (k.core.currPidForTerm t) r
      (basePid (t + 1))).esp = some (basePid (t + 1)) := by
    rw [h.currPidForTerm, Function.update_of_ne fun e => hne (basePid_injective e)]
    exact h.frames (t + 1) hne
  refine ⟨pitHandler_resume (not_waitsForShell h.up r), ?_⟩
  exact
    { shell := by
        simp only [resume_img, preempted_img]
        exact h.shell
      scheduledTerm := by simp [h.scheduledTerm]
      pcbArr := by rw [hcore]; exact h.pcbArr
      currPidForTerm := by rw [hcore]; exact h.currPidForTerm
      parentPidForTerm := by rw [hcore]; exact h.parentPidForTerm
      parent := fun u => by rw [hcore]; exact h.parent u
      up := fun u => by
        show (k.preempted r).resume.core.terminalInstantiated u = true
        rw [hcore]
        exact h.up u
      done := by rw [hcore]; rfl
      running := by
        rw [hcore]
        show stackOwner (Function.update k.core.scheduled (k.core.currPidForTerm t) r
          (k.core.currPidForTerm (t + 1))).esp = some (basePid (t + 1))
        rw [← hframe, h.currPidForTerm]
      frames := fun u hu => by
        rw [hcore]
        show stackOwner (Function.update k.core.scheduled (k.core.currPidForTerm t) r
          (basePid u)).esp = some (basePid u)
        rw [h.currPidForTerm]
        by_cases hut : u = t
        · rw [hut, Function.update_self]
          exact hr
        · rw [Function.update_of_ne fun e => hut (basePid_injective e)]
          exact h.frames u hut }

/-! ## The boot -/

/-- The registers of a frame on the kernel stack of a base shell. -/
def baseFrame (t : Term) : Regs := { ebp := mb8 - kb8 * t - 32, esp := mb8 - kb8 * t - 64 }

theorem stackOwner_baseFrame (t : Term) : stackOwner (baseFrame t).esp = some (basePid t) := by
  revert t
  decide

/-- The third timer interrupt displays the first terminal. -/
theorem Booting.resume_con (h : Booting 2 k) (r : Regs) :
    (k.preempted r).resume.con = k.con.nextTerminal.display 2 0 := by
  have hdone : (k.preempted r).tab.doneInstantiating = false := h.notDone
  unfold Kernel.resume
  dsimp only
  rw [if_neg (by rw [hdone]; decide)]
  rfl

/-- It resumes the first shell. -/
theorem Booting.resume (h : Booting 2 k) {r : Regs} (hr : stackOwner r.esp = some (basePid 2))
    (hframes : ∀ u : Term, u ≠ 2 →
      stackOwner (k.core.scheduled (basePid u)).esp = some (basePid u)) :
    k.pitHandler r = some (k.preempted r).resume ∧ BaseShells 0 (k.preempted r).resume ∧
      (k.preempted r).resume.con = k.con.nextTerminal.display 2 0 := by
  have hup : k.ShellsUp := h.shellsUp_iff.mpr rfl
  have hcore := resumed_core r k
  have hzero : (2 : Term) + 1 = 0 := rfl
  rw [h.scheduledTerm, hzero] at hcore
  refine ⟨pitHandler_resume (not_waitsForShell hup r), ?_, h.resume_con r⟩
  exact
    { shell := by
        simp only [resume_img, preempted_img]
        exact h.shell
      scheduledTerm := by
        rw [resume_scheduledTerm, preempted_scheduledTerm, h.scheduledTerm]
        rfl
      pcbArr := by rw [hcore]; exact h.pcbArr
      currPidForTerm := by rw [hcore]; exact h.currPidForTerm
      parentPidForTerm := by rw [hcore]; exact h.parentPidForTerm
      parent := fun u => by
        rw [hcore]
        refine h.parent u ?_
        have htwo : ((2 : Term) : Nat) = 2 := rfl
        omega
      up := fun u => by
        show (k.preempted r).resume.core.terminalInstantiated u = true
        rw [hcore]
        exact hup u
      done := by rw [hcore]; rfl
      running := by
        rw [hcore]
        show stackOwner (Function.update k.core.scheduled (k.core.currPidForTerm 2) r
          (k.core.currPidForTerm 0)).esp = some (basePid 0)
        rw [h.currPidForTerm, Function.update_of_ne (by decide)]
        exact hframes 0 (by decide)
      frames := fun u hu => by
        rw [hcore]
        show stackOwner (Function.update k.core.scheduled (k.core.currPidForTerm 2) r
          (basePid u)).esp = some (basePid u)
        rw [h.currPidForTerm]
        by_cases hut : u = 2
        · rw [hut, Function.update_self]
          exact hr
        · rw [Function.update_of_ne fun e => hut (basePid_injective e)]
          exact hframes u hut }

/-- A shell that the timer starts leaves the interrupted one its frame. -/
theorem shellLaunched_scheduled (m : Term) (p : Pid) (image : List UInt8) (r : Regs) (k : Kernel) :
    (((k.preempted r).shellReady m).launched shellCall p image r).core.scheduled
      = Function.update k.core.scheduled (k.core.currPidForTerm k.scheduledTerm) r := by
  rw [launched_core, shellReady_core, preempted_core]
  rfl

/-- An event that is no call of `execute`. -/
theorem keepsTables_of_ne {e : Event} (h : ∀ call r, e ≠ .execute call r) (k : Kernel) :
    k.KeepsTables e where
  afterShells := by
    rintro p ⟨call, r, he, -⟩
    exact absurd he (h call r)
  displayed := by
    rintro ⟨call, r, he, -⟩
    exact absurd he (h call r)

theorem keepsTables_tick (k : Kernel) (r : Regs) : k.KeepsTables (.tick r) :=
  keepsTables_of_ne (by rintro _ _ ⟨⟩) k

theorem keepsTables_boot (n : Term) (k : Kernel) (_ : Booting n k) :
    k.KeepsTables (.tick (baseFrame n)) := keepsTables_tick k _

theorem keepsTables_key (k : Kernel) (scan : UInt8) : k.KeepsTables (.key scan) :=
  keepsTables_of_ne (by rintro _ _ ⟨⟩) k

theorem step_key {k : Kernel} {c c' : Console} {scan : UInt8} (h : c.keyboardHandler scan = c') :
    step { k with con := c } (.key scan) = some { k with con := c' } := by
  rw [← h]
  rfl

/-- Alt and the function key of a terminal, which display it. -/
theorem exists_displayed {ok : Kernel → Event → Prop} (hok : ∀ k scan, ok k (.key scan)) (t : Term)
    (k : Kernel) : ∃ c₁ c₂, k.con.keyboardHandler altPush = c₁ ∧
    c₁.keyboardHandler (fPush t) = c₂ ∧
    Reaches step ok k { k with con := c₂ } ∧ Aside k { k with con := c₂ } ∧
    c₂.vid.currentTerminal = t := by
  obtain ⟨c₁, h₁⟩ : ∃ c₁, k.con.keyboardHandler altPush = c₁ := ⟨_, rfl⟩
  obtain ⟨c₂, h₂⟩ : ∃ c₂, c₁.keyboardHandler (fPush t) = c₂ := ⟨_, rfl⟩
  have hterms := Console.terms_of_keys h₁ h₂
  have hrun : Reaches step ok k { k with con := c₁ } :=
    Reaches.step .refl (hok k altPush) (step_key h₁)
  exact ⟨c₁, c₂, h₁, h₂,
    hrun.step (hok _ (fPush t)) (step_key h₂),
    aside_con (congrArg Console.Terms.scheduledTerm hterms),
    congrArg Console.Terms.currentTerminal hterms⟩

/-- No step exchanges the image. -/
theorem reaches_img {ok : Kernel → Event → Prop} (hrun : Reaches step ok k k') :
    k'.img = k.img := by
  refine hrun.invariant (I := fun j => j.img = k.img) ?_ rfl
  intro j e j' hj _ hstep
  rw [step_img hstep, hj]

theorem entry_img {ram : Ram} {img : Image} {image : List UInt8} (himage : HasShell img image)
    (hentry : entry ram img = some k) : k.img = img := by
  rw [← Option.some.inj ((entry_eq ram himage).symm.trans hentry)]
  exact launched_img shellCall 0 image { ebp := 0, esp := 0 } (init ram img)

/-- After the kernel's entry no timer interrupt faults: the shell that it may start is the
program that the entry has started. -/
theorem pitHandler_isSome {ok : Kernel → Event → Prop} {ram : Ram} {img : Image} {k₀ : Kernel}
    (hentry : entry ram img = some k₀) (hrun : Reaches step ok k₀ k) (r : Regs) :
    (k.pitHandler r).isSome := by
  by_cases hwaits : (k.preempted r).WaitsForShell
  · rw [pitHandler_shell hwaits]
    obtain ⟨image, hshell⟩ := entry_hasShell hentry
    have himg : k.img = img := (reaches_img hrun).trans (entry_img hshell hentry)
    rw [← himg, ← preempted_img r k,
      ← shellReady_img (k.preempted r).scheduledTerm (k.preempted r)] at hshell
    generalize (k.preempted r).shellReady (k.preempted r).scheduledTerm = k' at hshell ⊢
    have hfaults : (k'.execute shellCall r).2 ≠ .faults := by
      intro h
      obtain ⟨p, image', hover⟩ := execute_eq_faults h
      rw [execute_starts (hshell.starting hover.free)] at h
      cases h
    rw [unlessFaults_eq_some.mpr ⟨rfl, hfaults⟩]
    rfl
  · rw [pitHandler_resume hwaits]
    rfl

/-- The boot of an image with a shell, with every timer interrupt on the stack of the
shell that it interrupts. -/
theorem exists_baseShells (ok : Kernel → Event → Prop)
    (hok : ∀ n k, Booting n k → ok k (.tick (baseFrame n))) (ram : Ram) {img : Image}
    {image : List UInt8} (himage : HasShell img image) (hpage : image.length ≤ pageRoom) :
    ∃ k₀ k, entry ram img = some k₀ ∧
      boot ram img (baseFrame 0) (baseFrame 1) (baseFrame 2) = some k ∧
      Reaches step ok k₀ k ∧ BaseShells 0 k ∧ k.con = Console.booted ram.mem := by
  have hentry := entry_eq ram himage
  have hboot₀ := (entry_booting hentry).1
  have hcon₀ := launched_con hpage shellCall 0 { ebp := 0, esp := 0 } (init ram img)
  have himg₀ : _ = img := launched_img shellCall 0 image { ebp := 0, esp := 0 } (init ram img)
  generalize (init ram img).launched shellCall 0 image { ebp := 0, esp := 0 } = k₀
    at hentry hboot₀ hcon₀ himg₀
  obtain ⟨image₁, himage₁, htick₁, hboot₁⟩ :=
    hboot₀.tick_launched (m := 1) rfl (Or.inl rfl) (baseFrame 0)
  rw [himg₀] at himage₁
  obtain rfl := himage.unique himage₁
  have hframes₁ := shellLaunched_scheduled 1 (basePid 1) image₁ (baseFrame 0) k₀
  have hcon₁ : (((k₀.preempted (baseFrame 0)).shellReady 1).launched shellCall (basePid 1) image₁
      (baseFrame 0)).con = k₀.con.nextTerminal.startScreen 1 := launched_con hpage _ _ _ _
  have himg₁ : (((k₀.preempted (baseFrame 0)).shellReady 1).launched shellCall (basePid 1) image₁
      (baseFrame 0)).img = img := by simpa using himg₀
  generalize ((k₀.preempted (baseFrame 0)).shellReady 1).launched shellCall (basePid 1) image₁
    (baseFrame 0) = k₁ at htick₁ hboot₁ hframes₁ hcon₁ himg₁
  obtain ⟨image₂, himage₂, htick₂, hboot₂⟩ :=
    hboot₁.tick_launched (m := 2) rfl (Or.inr rfl) (baseFrame 1)
  rw [himg₁] at himage₂
  obtain rfl := himage.unique himage₂
  have hframes₂ := shellLaunched_scheduled 2 (basePid 2) image₂ (baseFrame 1) k₁
  have hcon₂ : (((k₁.preempted (baseFrame 1)).shellReady 2).launched shellCall (basePid 2) image₂
      (baseFrame 1)).con = k₁.con.nextTerminal.startScreen 2 := launched_con hpage _ _ _ _
  generalize ((k₁.preempted (baseFrame 1)).shellReady 2).launched shellCall (basePid 2) image₂
    (baseFrame 1) = k₂ at htick₂ hboot₂ hframes₂ hcon₂
  rw [hboot₀.currPidForTerm, hboot₀.scheduledTerm] at hframes₁
  rw [hboot₁.currPidForTerm, hboot₁.scheduledTerm, hframes₁] at hframes₂
  have hframes : ∀ u : Term, u ≠ 2 →
      stackOwner (k₂.core.scheduled (basePid u)).esp = some (basePid u) := by
    intro u hu
    have hcases : ∀ u : Term, u ≠ 2 → u = 0 ∨ u = 1 := by decide
    rw [hframes₂]
    rcases hcases u hu with rfl | rfl
    · rw [Function.update_of_ne (by decide), Function.update_self, stackOwner_baseFrame]
    · rw [Function.update_self, stackOwner_baseFrame]
  obtain ⟨htick₃, hshells, hcon₃⟩ := hboot₂.resume (stackOwner_baseFrame 2) hframes
  have hrun₁ : Reaches step ok k₀ k₁ := Reaches.step .refl (hok 0 k₀ hboot₀) htick₁
  have hrun₂ := hrun₁.step (hok 1 k₁ hboot₁) htick₂
  refine ⟨k₀, _, hentry, ?_, hrun₂.step (hok 2 k₂ hboot₂) htick₃, hshells, ?_⟩
  · unfold boot
    rw [hentry, Option.bind_some, htick₁, Option.bind_some, htick₂, Option.bind_some, htick₃]
  · rw [hcon₃, hcon₂, hcon₁, hcon₀]
    rfl

/-- The boot writes no parent but those of the base shells. -/
theorem boot_parent {ram : Ram} {img : Image} {r₁ r₂ r₃ : Regs}
    (hboot : boot ram img r₁ r₂ r₃ = some k)
    {p : Pid} (hp : isBase p = false) : k.core.parent p = (ram.pcb p).parent := by
  have hne : ∀ t : Term, p ≠ basePid t := by
    rintro t rfl
    rw [isBase_basePid] at hp
    cases hp
  have hlaunched : ∀ (k : Kernel) (t : Term) (image : List UInt8) (r : Regs),
      (k.launched shellCall (basePid t) image r).core.parent p = k.core.parent p := by
    intro k t image r
    rw [launched_core]
    exact Function.update_of_ne (hne t) ..
  have hready : ∀ (k : Kernel) (t : Term) (r : Regs),
      ((k.preempted r).shellReady t).core.parent p = k.core.parent p := by
    intro k t r
    rw [shellReady_core, preempted_core]
    rfl
  unfold boot at hboot
  obtain ⟨k₂, hboot₂, htick₃⟩ := Option.bind_eq_some_iff.mp hboot
  obtain ⟨k₁, hboot₁, htick₂⟩ := Option.bind_eq_some_iff.mp hboot₂
  obtain ⟨k₀, hentry, htick₁⟩ := Option.bind_eq_some_iff.mp hboot₁
  obtain ⟨image, himage⟩ := entry_hasShell hentry
  obtain ⟨image₁, -, hj₁, -⟩ :=
    (entry_booting hentry).1.tick_launched (m := 1) rfl (Or.inl rfl) r₁
  obtain ⟨j₁, hk₁, hbooting₁, -⟩ := (entry_booting hentry).1.tick (m := 1) rfl (Or.inl rfl) r₁
  cases hk₁.symm.trans htick₁
  obtain ⟨image₂, -, hj₂, -⟩ := hbooting₁.tick_launched (m := 2) rfl (Or.inr rfl) r₂
  obtain ⟨j₂, hk₂, hbooting₂, -⟩ := hbooting₁.tick (m := 2) rfl (Or.inr rfl) r₂
  cases hk₂.symm.trans htick₂
  have hresumes := not_waitsForShell (hbooting₂.shellsUp_iff.mpr rfl) r₃
  rw [pitHandler_resume hresumes, Option.some.injEq] at htick₃
  rw [entry_eq ram himage, Option.some.injEq] at hentry
  rw [htick₁, Option.some.injEq] at hj₁
  rw [htick₂, Option.some.injEq] at hj₂
  calc k.core.parent p = k₂.core.parent p := by
        rw [← htick₃, resumed_core]
        rfl
    _ = k₁.core.parent p := by rw [hj₂, hlaunched _ 2, hready]
    _ = k₀.core.parent p := by rw [hj₁, hlaunched _ 1, hready]
    _ = (ram.pcb p).parent := by
        rw [← hentry]
        exact hlaunched _ 0 image _

/-- The boot of `shellImage`. -/
theorem exists_baseShells_shell (ok : Kernel → Event → Prop)
    (hok : ∀ n k, Booting n k → ok k (.tick (baseFrame n))) :
    ∃ k, Reaches step ok shellKernel k ∧ BaseShells 0 k ∧ k.con = Console.booted zeroRam.mem := by
  obtain ⟨k₀, k, hentry, -, hrun, hshells, hcon⟩ :=
    exists_baseShells ok hok zeroRam hasShell_shellImage shellBytes_fits
  have hsame : k₀ = shellKernel := Option.some.inj (hentry.symm.trans entry_shellImage)
  exact ⟨k, hsame ▸ hrun, hshells, hcon⟩

end Kernel

end StudentDistrib
