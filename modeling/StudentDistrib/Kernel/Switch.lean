import StudentDistrib.Kernel.Tables

/-!
# Context switches

The timer keeps the registers of an interrupted process in its control block, and
finds the block of the process to resume through `curr_pid_for_term`.  A history
variable records for each terminal which process was interrupted there last and with
which registers.  As long as `execute` is called from the displayed terminal, the
current process of a terminal that is off the processor does not change, so that the
timer loads what the history says.
-/

namespace StudentDistrib

open Machine

/-! ## The running process -/

namespace Core

/-- The current process of terminal `t` runs with its own page and kernel stack. -/
structure Runs (c : Core) (t : Term) : Prop where
  running : c.running = some (c.currPidForTerm t)
  page : c.userPageAddress = (mb8 + mb4 * c.currPidForTerm t) / 2 ^ 22
  stack : c.tssEsp0 = mb8 - kb8 * c.currPidForTerm t

/-- The frames on which the processes wait: those of the terminals off the processor
as the history has them, and those of the callers on every chain. -/
structure Frames (c : Core) (t : Term) (above : Term → List Pid)
    (saved : Term → Option (Pid × Regs)) : Prop where
  interrupted : ∀ u, u ≠ t →
    saved u = some (c.currPidForTerm u, c.scheduled (c.currPidForTerm u)) ∧
      Kernel.stackOwner (c.scheduled (c.currPidForTerm u)).esp = some (c.currPidForTerm u)
  callers : ∀ u, ∀ q ∈ above u, Kernel.stackOwner (c.saved q).esp = some q

variable {c c' : Core} {t : Term} {above : Term → List Pid} {saved : Term → Option (Pid × Regs)}
  {r : Regs}

theorem Runs.of_eq (h : c.Runs t) (hrunning : c'.running = c.running)
    (hcurr : c'.currPidForTerm = c.currPidForTerm)
    (hpage : c'.userPageAddress = c.userPageAddress) (hstack : c'.tssEsp0 = c.tssEsp0) :
    c'.Runs t where
  running := by rw [hrunning, hcurr, h.running]
  page := by rw [hpage, hcurr, h.page]
  stack := by rw [hstack, hcurr, h.stack]

theorem Frames.of_eq (h : c.Frames t above saved) (hcurr : c'.currPidForTerm = c.currPidForTerm)
    (hscheduled : c'.scheduled = c.scheduled) (hsaved : c'.saved = c.saved) :
    c'.Frames t above saved where
  interrupted := by
    rw [hcurr, hscheduled]
    exact h.interrupted
  callers := by
    rw [hsaved]
    exact h.callers

end Core

namespace Kernel

/-- The registers point into the kernel stack that the processor was given. -/
def OnKernelStack (k : Kernel) (r : Regs) : Prop :=
  r.esp < k.tab.tssEsp0 ∧ k.tab.tssEsp0 ≤ r.esp + kb8

theorem stackOwner_of_range (p : Pid) {esp : Nat} (hlt : esp < mb8 - kb8 * p)
    (hle : mb8 - kb8 * p ≤ esp + kb8) : stackOwner esp = some p := by
  have hmb8 : mb8 = 0x800000 := rfl
  have hkb8 : kb8 = 0x2000 := rfl
  have hp := p.isLt
  rw [hmb8, hkb8] at hlt hle
  have hindex : (mb8 - 1 - esp) / kb8 = p := by
    rw [hmb8, hkb8]
    omega
  have hin : esp < mb8 ∧ (mb8 - 1 - esp) / kb8 < 6 := ⟨by omega, hindex ▸ hp⟩
  unfold stackOwner
  rw [dif_pos hin]
  exact congrArg some (Fin.ext hindex)

end Kernel

namespace Core

variable {c c' : Core} {t : Term} {above : Term → List Pid} {saved : Term → Option (Pid × Regs)}
  {r : Regs}

/-- What the timer stores and loads. -/
theorem tick_frames (hchained : c.Chained above) (hframes : c.Frames t above saved)
    (hr : Kernel.stackOwner r.esp = some (c.currPidForTerm t)) :
    ((c.preempt t r).resume (t + 1)).Runs (t + 1) ∧
      ((c.preempt t r).resume (t + 1)).Frames (t + 1) above
        (Function.update saved t (some (c.currPidForTerm t, r))) ∧
      Function.update saved t (some (c.currPidForTerm t, r)) (t + 1)
        = some (c.currPidForTerm (t + 1), ((c.preempt t r).resume (t + 1)).cpu) := by
  have hnext : ∀ u : Term, u + 1 ≠ u := by decide
  have hne := hnext t
  have hother : ∀ u, u ≠ t → Function.update c.scheduled (c.currPidForTerm t) r
      (c.currPidForTerm u) = c.scheduled (c.currPidForTerm u) := fun u hu =>
    Function.update_of_ne (fun e => hu (hchained.forest.head_injective e)) _ _
  obtain ⟨hsaved, howner⟩ := hframes.interrupted (t + 1) hne
  refine ⟨⟨?_, rfl, rfl⟩, ⟨fun u hu => ?_, hframes.callers⟩, ?_⟩
  · show Kernel.stackOwner (Function.update c.scheduled (c.currPidForTerm t) r
      (c.currPidForTerm (t + 1))).esp = some (c.currPidForTerm (t + 1))
    rw [hother (t + 1) hne, howner]
  · show Function.update saved t _ u = some (c.currPidForTerm u, Function.update c.scheduled
        (c.currPidForTerm t) r (c.currPidForTerm u)) ∧
      Kernel.stackOwner (Function.update c.scheduled (c.currPidForTerm t) r
        (c.currPidForTerm u)).esp = some (c.currPidForTerm u)
    by_cases hut : u = t
    · rw [hut, Function.update_self, Function.update_self]
      exact ⟨rfl, hr⟩
    · rw [Function.update_of_ne hut, hother u hut]
      exact hframes.interrupted u hut
  · show Function.update saved t _ (t + 1) = some (c.currPidForTerm (t + 1),
      Function.update c.scheduled (c.currPidForTerm t) r (c.currPidForTerm (t + 1)))
    rw [Function.update_of_ne hne, hother (t + 1) hne]
    exact hsaved

/-- A program started in the terminal of its caller. -/
theorem launch_frames (hchained : c.Chained above) (hframes : c.Frames t above saved) {p : Pid}
    (hfree : c.pcbArr p = false) (args : Bytes)
    (hr : Kernel.stackOwner r.esp = some (c.currPidForTerm t)) :
    (c.launch t p r args).Runs t ∧ (c.launch t p r args).Frames t
      (Function.update above t (c.currPidForTerm t :: above t)) saved := by
  have hsaved : (c.launch t p r args).saved = Function.update c.saved (c.currPidForTerm t) r :=
    if_neg (hchained.not_isBase hfree)
  have hcurr : (c.launch t p r args).currPidForTerm t = p := Function.update_self ..
  refine ⟨⟨?_, ?_, ?_⟩, ⟨fun u hu => ?_, fun u q hq => ?_⟩⟩
  · rw [hcurr]
    rfl
  · rw [hcurr]
    rfl
  · rw [hcurr]
    rfl
  · have hsame : (c.launch t p r args).currPidForTerm u = c.currPidForTerm u :=
      Function.update_of_ne hu ..
    rw [hsame]
    exact hframes.interrupted u hu
  · rw [hsaved]
    by_cases hq' : q = c.currPidForTerm t
    · rw [hq', Function.update_self]
      exact hr
    · rw [Function.update_of_ne hq']
      refine hframes.callers u q ?_
      by_cases hut : u = t
      · rw [hut, Function.update_self] at hq
        rw [hut]
        exact (List.mem_cons.mp hq).resolve_left hq'
      · rw [Function.update_of_ne hut] at hq
        exact hq

/-- A call that faults leaves the caller running on its own stack. -/
theorem recall_frames (hframes : c.Frames t above saved) (args : Bytes)
    (hr : Kernel.stackOwner (c.saved (c.currPidForTerm t)).esp = some (c.currPidForTerm t)) :
    (c.recalled t args).Runs t ∧ (c.recalled t args).Frames t above saved :=
  ⟨⟨hr, rfl, rfl⟩, hframes.of_eq rfl rfl rfl⟩

/-- A halt leaves the caller running on its own stack. -/
theorem release_frames (hchained : c.Chained above) (hframes : c.Frames t above saved)
    (hbase : ¬ Kernel.isBase (c.currPidForTerm t) = true) :
    (c.release t).Runs t ∧
      (c.release t).Frames t (Function.update above t (above t).tail) saved := by
  have hroot : c.currPidForTerm t ≠ basePid t := fun e =>
    hbase ((hchained.isBase_curr_iff t).mpr e)
  obtain ⟨l, hl⟩ := (hchained.forest.path t).exists_next hroot
  have hcaller : c.parentPidForTerm t ∈ above t := by
    rw [hl, hchained.parents t]
    exact List.mem_cons_self
  have hcurr : (c.release t).currPidForTerm t = c.parentPidForTerm t := Function.update_self ..
  refine ⟨⟨?_, ?_, ?_⟩, ⟨fun u hu => ?_, fun u q hq => ?_⟩⟩
  · rw [hcurr]
    exact hframes.callers t _ hcaller
  · rw [hcurr]
    rfl
  · rw [hcurr]
    rfl
  · have hsame : (c.release t).currPidForTerm u = c.currPidForTerm u := Function.update_of_ne hu ..
    rw [hsame]
    exact hframes.interrupted u hu
  · refine hframes.callers u q ?_
    by_cases hut : u = t
    · rw [hut, Function.update_self] at hq
      rw [hut]
      exact List.mem_of_mem_tail hq
    · rw [Function.update_of_ne hut] at hq
      exact hq

end Core

namespace Kernel

variable {k k' : Kernel} {n : Term}

/-! ## The history -/

/-- The process that the timer interrupted last on each terminal, and the registers
that it stored. -/
abbrev Saved := Term → Option (Pid × Regs)

def noteSaved (k : Kernel) (e : Event) (_ : Kernel) (saved : Saved) : Saved :=
  match e with
  | .tick r => Function.update saved k.scheduledTerm (some (k.currPid, r))
  | _ => saved

/-- The machine with the history of its interrupts. -/
def watchedStep : Kernel × Saved → Event → Option (Kernel × Saved) := observe step noteSaved

/-- The interrupt and the system call find the stack pointer in the kernel stack that
the TSS names. -/
def Event.OnStack (k : Kernel) : Event → Prop
  | .tick r => k.OnKernelStack r
  | .execute _ r => k.OnKernelStack r
  | _ => True

/-- The base shells are started first, and every later program from the displayed
terminal. -/
structure Issued (k : Kernel) (e : Event) : Prop where
  afterShells : k.AfterShells e
  displayed : ∀ p, k.StartsProgram e p → k.con.vid.currentTerminal = k.scheduledTerm
  onStack : e.OnStack k

/-- A process of the displayed terminal that has called `execute` before: the frame to
which the halt after a page fault goes back is one of its own stack. -/
structure Recalls (k : Kernel) : Prop where
  up : k.ShellsUp
  displayed : k.con.vid.currentTerminal = k.scheduledTerm
  frame : stackOwner k.callerPcb.saved.esp = some k.currPid

/-- And a call of `execute` that page-faults is one of such a process. -/
structure Orderly (k : Kernel) (e : Event) : Prop extends Issued k e where
  recalls : k.Overruns e → k.Recalls

/-! ## After the boot -/

/-- The base shells are up and every process that waits does so on its own frame. -/
structure Switching (k : Kernel) (saved : Saved) : Prop where
  up : k.ShellsUp
  runs : k.core.Runs k.scheduledTerm
  frames : ∃ above, k.core.Chained above ∧ k.core.Frames k.scheduledTerm above saved

theorem stackOwner_onStack (h : k.core.Runs k.scheduledTerm) {r : Regs} (hr : k.OnKernelStack r) :
    stackOwner r.esp = some k.currPid := by
  have hstack : k.tab.tssEsp0 = mb8 - kb8 * k.currPid := h.stack
  obtain ⟨hlt, hle⟩ := hr
  rw [hstack] at hlt hle
  exact stackOwner_of_range k.currPid hlt hle

theorem Switching.tick {saved : Saved} (h : Switching k saved) {r : Regs} (hr : k.OnKernelStack r)
    (hstep : step k (.tick r) = some k') :
    Switching k' (noteSaved k (.tick r) k' saved) ∧
      noteSaved k (.tick r) k' saved k'.scheduledTerm = some (k'.currPid, k'.tab.cpu) := by
  obtain ⟨above, hchained, hframes⟩ := h.frames
  have howner := stackOwner_onStack h.runs hr
  cases step_coreStep h.up hstep with
  | aside he => exact absurd trivial he
  | tick r hk hcore hsched =>
    obtain ⟨hruns, hframes', hloads⟩ := Core.tick_frames hchained hframes howner
    rw [← hcore, ← hsched] at hruns hframes'
    refine ⟨⟨step_shellsUp h.up hstep, hruns, above, ?_, hframes'⟩, ?_⟩
    · rw [hcore]
      exact hchained.of_eq rfl rfl rfl rfl
    · have hcurr : k'.currPid = k.core.currPidForTerm (k.scheduledTerm + 1) := by
        show k'.core.currPidForTerm k'.scheduledTerm = _
        rw [hcore, hsched]
        rfl
      have hcpu : k'.tab.cpu
          = ((k.core.preempt k.scheduledTerm r).resume (k.scheduledTerm + 1)).cpu :=
        congrArg Core.cpu hcore
      rw [hsched, hcurr, hcpu]
      exact hloads

theorem Switching.step {saved : Saved} (h : Switching k saved) {e : Event} (he : k.Orderly e)
    (hstep : step k e = some k') : Switching k' (noteSaved k e k' saved) := by
  obtain ⟨above, hchained, hframes⟩ := h.frames
  have hup := step_shellsUp h.up hstep
  cases step_coreStep h.up hstep with
  | aside hchooses haside =>
    have hnote : noteSaved k e k' saved = saved := by
      cases e with
      | tick r => exact absurd trivial hchooses
      | _ => rfl
    rw [hnote]
    refine ⟨hup, ?_, above, ?_, ?_⟩
    · rw [haside.core, haside.scheduledTerm]
      exact h.runs
    · rw [haside.core]
      exact hchained
    · rw [haside.core, haside.scheduledTerm]
      exact hframes
  | tick r => exact (h.tick he.onStack hstep).1
  | @start _ call r p image hstart hk hcore hsched =>
    have howner := stackOwner_onStack h.runs (r := r) he.onStack
    have hdisplay := he.displayed p ⟨call, r, rfl, congrArg Prod.snd (execute_starts hstart r)⟩
    have hfree : k.core.pcbArr p = false := newestPid_free hstart.free
    rw [hdisplay] at hcore
    obtain ⟨hruns, hframes'⟩ := Core.launch_frames hchained hframes hfree
      (call.argsAfter k.tab.args) howner
    have hchained' := hchained.launch hfree k.scheduledTerm r (call.argsAfter k.tab.args)
    rw [← hcore, ← hsched] at hruns hframes' hchained'
    exact ⟨hup, hruns, _, hchained', hframes'⟩
  | refused hrefused hcore hsched =>
    refine ⟨hup, ?_, above, ?_, ?_⟩
    · rw [hcore, hsched]
      exact h.runs.of_eq rfl rfl rfl rfl
    · rw [hcore]
      exact hchained.of_eq rfl rfl rfl rfl
    · rw [hcore, hsched]
      exact hframes.of_eq rfl rfl rfl
  | @fault _ call r p image hover hk hsched =>
    have hrecalls := he.recalls (hover.overruns r)
    have hcore := faulted_halt_core hchained hover hrecalls.displayed
    obtain ⟨hruns, hframes'⟩ :=
      Core.recall_frames hframes (call.argsAfter k.tab.args) hrecalls.frame
    have hchained' : (k.core.recalled k.scheduledTerm (call.argsAfter k.tab.args)).Chained above :=
      hchained.of_eq rfl rfl rfl rfl
    rw [← hcore, ← hk, ← hsched] at hruns hframes'
    rw [← hcore, ← hk] at hchained'
    exact ⟨hup, hruns, above, hchained', hframes'⟩
  | restart hbase hcore hsched =>
    refine ⟨hup, ?_, above, ?_, ?_⟩
    · rw [hcore, hsched]
      exact h.runs
    · rw [hcore]
      exact hchained
    · rw [hcore, hsched]
      exact hframes
  | release hbase hcore hsched =>
    obtain ⟨hruns, hframes'⟩ := Core.release_frames hchained hframes hbase
    have hchained' := hchained.release (t := k.scheduledTerm) hbase
    rw [← hcore, ← hsched] at hruns hframes' hchained'
    exact ⟨hup, hruns, _, hchained', hframes'⟩

/-! ## The boot -/

/-- The shells already interrupted wait on the frames that the history has. -/
def BootFrames (n : Term) (k : Kernel) (saved : Saved) : Prop :=
  ∀ t : Term, (t : Nat) < n → saved t = some (basePid t, k.core.scheduled (basePid t)) ∧
    stackOwner (k.core.scheduled (basePid t)).esp = some (basePid t)

theorem Booting.runs (h : Booting n k) : k.core.Runs k.scheduledTerm where
  running := by rw [h.currPidForTerm, h.scheduledTerm, h.running]
  page := by rw [h.currPidForTerm, h.scheduledTerm, h.page]
  stack := by rw [h.currPidForTerm, h.scheduledTerm, h.stack]

theorem BootFrames.of_core {saved : Saved} (h : BootFrames n k saved) {args : Bytes}
    (hcore : k'.core = { k.core with args }) : BootFrames n k' saved := by
  intro t ht
  rw [hcore]
  exact h t ht

/-- The first two interrupts store the frame of the shell that they leave. -/
theorem BootFrames.tick {saved : Saved} (h : Booting n k) (hn : n ≠ 2)
    (hframes : BootFrames n k saved) {r : Regs} (hr : k.OnKernelStack r)
    (hstep : k.step (.tick r) = some k') :
    Booting (n + 1) k' ∧ BootFrames (n + 1) k' (noteSaved k (.tick r) k' saved) := by
  have howner := stackOwner_onStack h.runs hr
  obtain ⟨image, -, htick, hboot⟩ := h.tick_launched rfl (next_waits n hn) r
  have hlt := next_val n (n + 1) rfl (next_waits n hn)
  have hscheduled := shellLaunched_scheduled (n + 1) (basePid (n + 1)) image r k
  have hk : _ = k' := Option.some.inj (htick.symm.trans hstep)
  rw [hk] at hboot hscheduled
  rw [h.currPidForTerm, h.scheduledTerm] at hscheduled
  refine ⟨hboot, fun t ht => ?_⟩
  show Function.update saved k.scheduledTerm (some (k.currPid, r)) t = _ ∧ _
  rw [hscheduled, h.scheduledTerm]
  rw [h.currPid] at howner ⊢
  by_cases htn : t = n
  · rw [htn, Function.update_self, Function.update_self]
    exact ⟨rfl, howner⟩
  · have hval : (t : Nat) ≠ n := fun e => htn (Fin.ext e)
    rw [Function.update_of_ne htn, Function.update_of_ne fun e => htn (basePid_injective e)]
    exact hframes t (by omega)

theorem BootFrames.step {saved : Saved} (h : Booting n k) (hn : n ≠ 2)
    (hframes : BootFrames n k saved) {e : Event} (he : k.Orderly e) (hstep : k.step e = some k') :
    ∃ m, Booting m k' ∧ BootFrames m k' (noteSaved k e k' saved) := by
  by_cases hchooses : e.Chooses
  · cases e with
    | tick r => exact ⟨n + 1, hframes.tick h hn he.onStack hstep⟩
    | execute call r =>
      rcases execute_step hstep with ⟨p, image, -, hout, -⟩ | hrefused | ⟨p, image, hover, -⟩
      · exact absurd (h.shellsUp_iff.mp (he.afterShells p ⟨call, r, rfl, hout⟩)) hn
      · exact ⟨n, h.of_core hrefused.scheduledTerm hrefused.img hrefused.core,
          hframes.of_core hrefused.core⟩
      · exact absurd (h.shellsUp_iff.mp (he.recalls (hover.overruns r)).up) hn
    | halt status =>
      cases hstep
      have hcore : k.halt.core = { k.core with args := k.core.args } := by
        rw [halt_core, h.currPid, isBase_basePid, if_pos rfl]
      exact ⟨n, h.halt, hframes.of_core hcore⟩
    | _ => exact absurd hchooses id
  · have haside := aside_step hchooses hstep
    have hnote : noteSaved k e k' saved = saved := by
      cases e with
      | tick r => exact absurd trivial hchooses
      | _ => rfl
    rw [hnote]
    exact ⟨n, h.of_core haside.scheduledTerm haside.img (haside.core.trans rfl),
      hframes.of_core (haside.core.trans rfl)⟩

theorem Booting.switching {saved : Saved} (h : Booting 2 k) (hframes : BootFrames 2 k saved) :
    Switching k saved := by
  have hlt : ∀ u : Term, u ≠ 2 → (u : Nat) < (2 : Term) := by decide
  refine ⟨h.shellsUp_iff.mpr rfl, h.runs, _, h.chained, ⟨fun u hu => ?_, fun u q hq => ?_⟩⟩
  · rw [h.scheduledTerm] at hu
    rw [h.currPidForTerm]
    exact hframes u (hlt u hu)
  · cases hq

/-! ## Runs from the entry -/

/-- A state of an orderly run: the boot is on its way, or over. -/
def Watched (s : Kernel × Saved) : Prop :=
  (∃ n, n ≠ 2 ∧ Booting n s.1 ∧ BootFrames n s.1 s.2) ∨ Switching s.1 s.2

theorem reaches_watched {ram : Ram} {img : Image} {k₀ : Kernel} (hentry : entry ram img = some k₀)
    {s : Kernel × Saved}
    (hrun : Reaches watchedStep (fun s e => s.1.Orderly e) (k₀, fun _ => none) s) : Watched s := by
  refine hrun.invariant (I := Watched) ?_ (Or.inl ⟨0, by decide, (entry_booting hentry).1, ?_⟩)
  · rintro s e s' hs he hstep
    obtain ⟨hk, hsaved⟩ := observe_eq_some.mp hstep
    unfold Watched
    rw [hsaved]
    rcases hs with ⟨n, hn, hboot, hframes⟩ | hswitching
    · obtain ⟨m, hboot', hframes'⟩ := hframes.step hboot hn he hk
      by_cases hm : m = 2
      · subst hm
        exact Or.inr (hboot'.switching hframes')
      · exact Or.inl ⟨m, hm, hboot', hframes'⟩
    · exact Or.inr (hswitching.step he hk)
  · intro t ht
    exact absurd ht (Nat.not_lt_zero t)

/-- In an orderly run the current process of the scheduled terminal runs. -/
theorem reaches_runs {ram : Ram} {img : Image} {k₀ : Kernel} (hentry : entry ram img = some k₀)
    (hrun : Reaches step Orderly k₀ k) : k.core.Runs k.scheduledTerm := by
  have hwatched : ∃ saved, Reaches watchedStep (fun s e => s.1.Orderly e) (k₀, fun _ => none)
      (k, saved) := hrun.watched _
  obtain ⟨saved, hwatch⟩ := hwatched
  rcases reaches_watched hentry hwatch with ⟨n, -, hboot, -⟩ | hswitching
  · exact hboot.runs
  · exact hswitching.runs

/-- An event that is no call of `execute`. -/
theorem orderly_of_ne {e : Event} (h : ∀ call r, e ≠ .execute call r) (he : e.OnStack k) :
    k.Orderly e where
  afterShells := (keepsTables_of_ne h k).afterShells
  displayed := by
    rintro p ⟨call, r, hexec, -⟩
    exact absurd hexec (h call r)
  onStack := he
  recalls := by
    rintro ⟨call, r, hexec, -⟩
    exact absurd hexec (h call r)

theorem orderly_tick {r : Regs} (hr : k.OnKernelStack r) : k.Orderly (.tick r) :=
  orderly_of_ne (by rintro _ _ ⟨⟩) hr

end Kernel

end StudentDistrib
