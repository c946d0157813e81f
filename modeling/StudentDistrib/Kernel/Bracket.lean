import StudentDistrib.Kernel.Tables

/-!
# Execute and halt as brackets

`halt` and the timer work on the scheduled terminal, `execute` on the displayed one.
Where the two are the same, a program that `execute` starts stands on its caller in the
chain of its terminal, the registers of the call stay in the caller's control block
until it halts, and its halt returns to the caller with these registers.  Where they
differ, the program goes on the chain of another terminal.
-/

namespace StudentDistrib

open Machine

namespace Core

/-- Process `p` stands on its caller in the chain of terminal `s`, and the registers of
the call are saved. -/
def StandsOn (c : Core) (s : Term) (p caller : Pid) (r : Regs) : Prop :=
  ∃ above rest, c.Chained above ∧ p :: caller :: rest <:+ c.currPidForTerm s :: above s ∧
    c.saved caller = r

variable {c c' : Core} {s t : Term} {p caller : Pid} {r : Regs}

theorem StandsOn.of_eq (h : c.StandsOn s p caller r) (harr : c'.pcbArr = c.pcbArr)
    (hcurr : c'.currPidForTerm = c.currPidForTerm)
    (hparents : c'.parentPidForTerm = c.parentPidForTerm) (hparent : c'.parent = c.parent)
    (hsaved : c'.saved = c.saved) : c'.StandsOn s p caller r := by
  obtain ⟨above, rest, hchained, hsuffix, hregs⟩ := h
  refine ⟨above, rest, hchained.of_eq harr hcurr hparents hparent, ?_, ?_⟩
  · rw [hcurr]
    exact hsuffix
  · rw [hsaved]
    exact hregs

/-- The caller waits below another process, so it is current nowhere. -/
theorem StandsOn.caller_ne (h : c.StandsOn s p caller r) (t : Term) :
    c.currPidForTerm t ≠ caller := by
  obtain ⟨above, rest, hchained, hsuffix, -⟩ := h
  have hcaller : caller ∈ c.currPidForTerm s :: above s :=
    hsuffix.subset (List.mem_cons_of_mem _ List.mem_cons_self)
  rintro rfl
  by_cases hts : t = s
  · -- At the head, the caller would have nothing before it.
    subst hts
    have hnodup := (hchained.forest.path t).nodup
    rcases List.suffix_cons_iff.mp hsuffix with heq | hrest
    · have hpair := (hsuffix.sublist.nodup hnodup)
      rw [List.cons.inj heq |>.1] at hpair
      exact (List.nodup_cons.mp hpair).1 List.mem_cons_self
    · exact (List.nodup_cons.mp hnodup).1
        (hrest.subset (List.mem_cons_of_mem _ List.mem_cons_self))
  · exact hchained.forest.disjoint t s hts List.mem_cons_self hcaller

theorem StandsOn.launch (h : c.StandsOn s p caller r) {q : Pid} (hfree : c.pcbArr q = false)
    (t : Term) (r' : Regs) (args : Bytes) : (c.launch t q r' args).StandsOn s p caller r := by
  have hne := h.caller_ne t
  obtain ⟨above, rest, hchained, hsuffix, hregs⟩ := h
  refine ⟨_, rest, hchained.launch hfree t r' args, ?_, ?_⟩
  · show p :: caller :: rest <:+ Function.update c.currPidForTerm t q s
      :: Function.update above t (c.currPidForTerm t :: above t) s
    by_cases hst : s = t
    · rw [hst, Function.update_self, Function.update_self]
      exact List.suffix_cons_iff.mpr (Or.inr (hst ▸ hsuffix))
    · rw [Function.update_of_ne hst, Function.update_of_ne hst]
      exact hsuffix
  · have hsaved : (c.launch t q r' args).saved = Function.update c.saved (c.currPidForTerm t) r' :=
      if_neg (hchained.not_isBase hfree)
    rw [hsaved, Function.update_of_ne hne.symm]
    exact hregs

/-- A halt that is not the program's own. -/
theorem StandsOn.release (h : c.StandsOn s p caller r)
    (hbase : ¬ Kernel.isBase (c.currPidForTerm t) = true) (hp : c.currPidForTerm t ≠ p) :
    (c.release t).StandsOn s p caller r := by
  obtain ⟨above, rest, hchained, hsuffix, hregs⟩ := h
  refine ⟨_, rest, hchained.release hbase, ?_, hregs⟩
  show p :: caller :: rest <:+ Function.update c.currPidForTerm t (c.parentPidForTerm t) s
    :: Function.update above t (above t).tail s
  by_cases hst : s = t
  · subst hst
    have hroot : c.currPidForTerm s ≠ basePid s := fun e =>
      hbase ((hchained.isBase_curr_iff s).mpr e)
    obtain ⟨l, hl⟩ := (hchained.forest.path s).exists_next hroot
    rw [Function.update_self, Function.update_self, hchained.parents s, hl]
    rcases List.suffix_cons_iff.mp hsuffix with heq | hrest
    · exact absurd (List.cons.inj heq).1.symm hp
    · rw [hl] at hrest
      exact hrest
  · rw [Function.update_of_ne hst, Function.update_of_ne hst]
    exact hsuffix

/-- When the program is current in the scheduled terminal, that is the terminal in which
it was started, and the terminal's parent is its caller. -/
theorem StandsOn.current (h : c.StandsOn s p caller r) (hp : c.currPidForTerm t = p) :
    t = s ∧ c.parentPidForTerm t = caller ∧ ¬ Kernel.isBase p = true := by
  obtain ⟨above, rest, hchained, hsuffix, -⟩ := h
  have hmem : p ∈ c.currPidForTerm s :: above s := hsuffix.subset List.mem_cons_self
  have hts : t = s := by
    by_contra hne
    exact hchained.forest.disjoint t s hne (hp ▸ List.mem_cons_self) hmem
  subst hts
  subst hp
  have habove : above t = caller :: rest := by
    rcases List.suffix_cons_iff.mp hsuffix with heq | hrest
    · exact (List.cons.inj heq).2.symm
    · exact absurd (hrest.subset List.mem_cons_self)
        (List.nodup_cons.mp (hchained.forest.path t).nodup).1
  have hpath := hchained.forest.path t
  have hroot : c.currPidForTerm t ≠ basePid t := by
    intro hroot
    rw [hroot] at hpath
    rw [habove] at hpath
    cases hpath.eq_singleton
  obtain ⟨l, hl⟩ := hpath.exists_next hroot
  refine ⟨rfl, ?_, fun hbase => hroot ((hchained.isBase_curr_iff t).mp hbase)⟩
  rw [habove] at hl
  rw [hchained.parents t]
  exact (List.cons.inj hl).1.symm

/-- A program started while the terminal of its caller is displayed. -/
theorem Chained.standsOn {above : Term → List Pid} (h : c.Chained above)
    (hfree : c.pcbArr p = false) (s : Term) (r : Regs) (args : Bytes) :
    (c.launch s p r args).StandsOn s p (c.currPidForTerm s) r := by
  refine ⟨_, above s, h.launch hfree s r args, ?_, ?_⟩
  · have hchain : p :: c.currPidForTerm s :: above s = Function.update c.currPidForTerm s p s
        :: Function.update above s (c.currPidForTerm s :: above s) s := by
      rw [Function.update_self, Function.update_self]
    exact ⟨[], hchain⟩
  · have hsaved : (c.launch s p r args).saved = Function.update c.saved (c.currPidForTerm s) r :=
      if_neg (h.not_isBase hfree)
    rw [hsaved, Function.update_self]

end Core

namespace Kernel

variable {k k' : Kernel}

/-! ## Runs of the program -/

/-- The event is a halt of process `p`. -/
def HaltsProcess (k : Kernel) (e : Event) (p : Pid) : Prop :=
  k.currPid = p ∧ ∃ status, e = .halt status

/-- The event does not halt process `p`, and a call of `execute` that page-faults comes
from the displayed terminal. -/
structure KeepsProcess (k : Kernel) (e : Event) (p : Pid) : Prop where
  alive : ¬ k.HaltsProcess e p
  displayed : k.Overruns e → k.con.vid.currentTerminal = k.scheduledTerm

theorem CoreStep.standsOn {e : Event} {s : Term} {p caller : Pid} {r : Regs}
    (h : k.CoreStep e k') (hp : k.KeepsProcess e p) (hstands : k.core.StandsOn s p caller r) :
    k'.core.StandsOn s p caller r := by
  obtain ⟨above, rest, hchained, -⟩ := id hstands
  cases h with
  | aside _ h =>
    rw [h.core]
    exact hstands
  | tick r _ hcore =>
    rw [hcore]
    exact hstands.of_eq rfl rfl rfl rfl rfl
  | start hstart _ hcore =>
    rw [hcore]
    exact hstands.launch (newestPid_free hstart.free) _ _ _
  | refused _ hcore =>
    rw [hcore]
    exact hstands.of_eq rfl rfl rfl rfl rfl
  | @fault _ call r p image hover hk =>
    rw [hk, faulted_halt_core hchained hover (hp.displayed (hover.overruns r))]
    exact hstands.of_eq rfl rfl rfl rfl rfl
  | restart _ hcore =>
    rw [hcore]
    exact hstands
  | @release _ status hbase hcore =>
    rw [hcore]
    exact hstands.release hbase fun e => hp.alive ⟨e, status, rfl⟩

theorem reaches_standsOn {s : Term} {p caller : Pid} {r : Regs} (hup : k.ShellsUp)
    (hstands : k.core.StandsOn s p caller r)
    (hrun : Reaches step (fun j e => j.KeepsProcess e p) k k') :
    k'.ShellsUp ∧ k'.core.StandsOn s p caller r := by
  refine hrun.invariant (I := fun k => k.ShellsUp ∧ k.core.StandsOn s p caller r) ?_
    ⟨hup, hstands⟩
  intro j e j' hj hp hstep
  exact ⟨step_shellsUp hj.1 hstep, (step_coreStep hj.1 hstep).standsOn hp hj.2⟩

/-- The call of `execute` by process `caller`, which runs in the scheduled terminal, and
the halt of the program that it starts work on the caller's terminal only. -/
structure Brackets (k : Kernel) (call : ExecCall) (r : Regs) (caller p : Pid) : Prop where
  current : (k.execute call r).1.tab.currPidForTerm k.scheduledTerm = p
  parent : ((k.execute call r).1.tab.pcb p).parent = caller
  parentPid : (k.execute call r).1.tab.parentPidForTerm k.scheduledTerm = caller
  others : ∀ t, t ≠ k.scheduledTerm →
    (k.execute call r).1.tab.currPidForTerm t = k.tab.currPidForTerm t ∧
      (k.execute call r).1.tab.parentPidForTerm t = k.tab.parentPidForTerm t
  returns : ∀ k', Reaches step (fun j e => j.KeepsProcess e p) (k.execute call r).1 k' →
    k'.currPid = p →
      k'.scheduledTerm = k.scheduledTerm ∧
        k'.halt.tab.currPidForTerm k.scheduledTerm = caller ∧ k'.halt.tab.cpu = r

theorem halt_returns {s : Term} {p caller : Pid} {r : Regs}
    (hstands : k.core.StandsOn s p caller r) (hp : k.currPid = p) :
    k.scheduledTerm = s ∧ k.halt.tab.currPidForTerm s = caller ∧ k.halt.tab.cpu = r := by
  obtain ⟨hsched, hparent, hbase⟩ := hstands.current (t := k.scheduledTerm) hp
  have hcore := halt_core k
  rw [hp, if_neg hbase] at hcore
  obtain ⟨-, -, -, -, hregs⟩ := hstands
  refine ⟨hsched, ?_, ?_⟩
  · show k.halt.core.currPidForTerm s = caller
    rw [hcore, hsched]
    show Function.update k.core.currPidForTerm s (k.core.parentPidForTerm s) s = caller
    rw [Function.update_self, ← hsched, hparent]
  · show k.halt.core.cpu = r
    rw [hcore]
    show k.core.saved (k.core.parentPidForTerm k.scheduledTerm) = r
    rw [hparent, hregs]

theorem brackets_of_displayed (hup : k.ShellsUp) (hchained : k.Chained) {call : ExecCall} {r : Regs}
    {p : Pid} {image : List UInt8} (hstart : k.Starting call p image)
    (hdisplay : k.con.vid.currentTerminal = k.scheduledTerm) :
    k.Brackets call r k.currPid p := by
  obtain ⟨above, habove⟩ := hchained
  have hfree : k.core.pcbArr p = false := newestPid_free hstart.free
  have hexec := congrArg Prod.fst (execute_starts hstart r)
  have hcore := launched_core call p image r k
  rw [hdisplay] at hcore
  have hstands := habove.standsOn hfree k.scheduledTerm r (call.argsAfter k.tab.args)
  rw [← hcore] at hstands
  have hup' : (k.launched call p image r).ShellsUp := by
    intro t
    show (k.launched call p image r).core.terminalInstantiated t = true
    rw [hcore]
    exact hup t
  refine
    { current := ?_
      parent := ?_
      parentPid := ?_
      others := fun t ht => ?_
      returns := fun k' hrun hp => ?_ }
  · rw [hexec]
    show (k.launched call p image r).core.currPidForTerm k.scheduledTerm = p
    rw [hcore]
    exact Function.update_self ..
  · rw [hexec]
    show (k.launched call p image r).core.parent p = k.currPid
    rw [hcore]
    show Function.update k.core.parent p (k.core.newParent k.scheduledTerm p) p = k.currPid
    rw [Function.update_self]
    exact if_neg (habove.not_isBase hfree)
  · rw [hexec]
    show (k.launched call p image r).core.parentPidForTerm k.scheduledTerm = k.currPid
    rw [hcore]
    exact Function.update_self ..
  · rw [hexec]
    show (k.launched call p image r).core.currPidForTerm t = _ ∧
      (k.launched call p image r).core.parentPidForTerm t = _
    rw [hcore]
    exact ⟨Function.update_of_ne ht .., Function.update_of_ne ht ..⟩
  · rw [hexec] at hrun
    exact halt_returns (reaches_standsOn hup' hstands hrun).2 hp

/-- A program started while another terminal is displayed is not current in the caller's. -/
theorem not_brackets (hchained : k.Chained) {call : ExecCall} {r : Regs} {caller p : Pid}
    {image : List UInt8} (hstart : k.Starting call p image)
    (hdisplay : k.con.vid.currentTerminal ≠ k.scheduledTerm) : ¬ k.Brackets call r caller p := by
  obtain ⟨above, habove⟩ := hchained
  intro hbrackets
  have hcurr := hbrackets.current
  rw [execute_starts hstart] at hcurr
  have hsame : (k.launched call p image r).core.currPidForTerm k.scheduledTerm
      = k.core.currPidForTerm k.scheduledTerm := by
    rw [launched_core]
    exact Function.update_of_ne hdisplay.symm ..
  have hlive := habove.forest.live_head k.scheduledTerm
  rw [← hsame] at hlive
  have hused : k.core.pcbArr p = true := hcurr ▸ hlive
  have hfree : k.core.pcbArr p = false := newestPid_free hstart.free
  rw [hfree] at hused
  cases hused

/-- A call that starts a program is bracketed by the program's halt exactly where the
scheduled terminal is displayed and the process that runs is the current one of it. -/
theorem brackets_iff {ram : Ram} {img : Image} {k₀ : Kernel} (hentry : entry ram img = some k₀)
    (hrun : Reaches step KeepsTables k₀ k) (hup : k.ShellsUp) {caller : Pid}
    (hrunning : k.tab.running = some caller) {call : ExecCall} {r : Regs} {p : Pid}
    (hstarts : (k.execute call r).2 = .starts p) :
    k.Brackets call r caller p ↔
      k.con.vid.currentTerminal = k.scheduledTerm ∧ k.tab.running = some k.currPid := by
  have hchained := reaches_chained (fun _ _ h => h) hentry hrun hup
  obtain ⟨image, hstart⟩ := execute_eq_starts hstarts
  constructor
  · intro hbrackets
    have hdisplay : k.con.vid.currentTerminal = k.scheduledTerm := by
      by_contra hdisplay
      exact not_brackets hchained hstart hdisplay hbrackets
    have hparent := (brackets_of_displayed (r := r) hup hchained hstart hdisplay).parent
    have hcaller : caller = k.currPid := hbrackets.parent.symm.trans hparent
    exact ⟨hdisplay, hcaller ▸ hrunning⟩
  · rintro ⟨hdisplay, hcurrent⟩
    have hcaller : k.currPid = caller := Option.some.inj (hcurrent.symm.trans hrunning)
    exact hcaller ▸ brackets_of_displayed hup hchained hstart hdisplay

/-- The first shell starts a program while its own terminal is displayed. -/
theorem brackets_booted : ∃ k₀ k, entry zeroRam shellImage = some k₀ ∧
    Reaches step KeepsTables k₀ k ∧ k.ShellsUp ∧ k.Brackets shellCall (baseFrame 0) 0 3 := by
  obtain ⟨k₀, k, hentry, -, hrun, hshells, hcon⟩ :=
    exists_baseShells KeepsTables keepsTables_boot zeroRam hasShell_shellImage shellBytes_fits
  obtain ⟨image, hstart⟩ := hshells.starting
  have hrunning : k.tab.running = some 0 := hshells.running
  refine ⟨k₀, k, hentry, hrun, hshells.up, ?_⟩
  refine (brackets_iff hentry hrun hshells.up hrunning
    (congrArg Prod.snd (execute_starts hstart _))).mpr ⟨?_, ?_⟩
  · rw [hshells.scheduledTerm, hcon]
    exact Console.booted_currentTerminal _
  · rw [hshells.currPid]
    exact hrunning

/-- The first shell starts a program while the second terminal is displayed. -/
theorem execute_unbracketed : ∃ k₀ k, entry zeroRam shellImage = some k₀ ∧
    Reaches step KeepsTables k₀ k ∧ k.ShellsUp ∧ k.tab.running = some 0 ∧
    (k.execute shellCall (baseFrame 0)).2 = .starts 3 ∧
    ¬ k.Brackets shellCall (baseFrame 0) 0 3 := by
  obtain ⟨k₀, k, hentry, -, hrun, hshells, -⟩ :=
    exists_baseShells KeepsTables keepsTables_boot zeroRam hasShell_shellImage shellBytes_fits
  obtain ⟨-, c, -, -, hswitch, haside, hdisplay⟩ := exists_displayed keepsTables_key 1 k
  have hshells' := hshells.aside haside
  have hrun' := hrun.trans hswitch
  obtain ⟨image, hstart⟩ := hshells'.starting
  refine ⟨k₀, { k with con := c }, hentry, hrun', hshells'.up, hshells'.running,
    congrArg Prod.snd (execute_starts hstart _), ?_⟩
  refine not_brackets (reaches_chained (fun _ _ h => h) hentry hrun' hshells'.up) hstart ?_
  rw [hshells'.scheduledTerm]
  intro hzero
  exact absurd (hdisplay.symm.trans hzero) (by decide)

end Kernel

end StudentDistrib
