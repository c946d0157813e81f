import StudentDistrib.Kernel.BaseShells

/-!
# `read` and `write` under preemption

`read` and `write` run with interrupts enabled, and take the caller's control block
from the global `curr_pcb`, which they assign first.  Here each of them is the steps
that it takes after `sti`: the assignment, the test of the descriptor's flags and the
dispatch through its jump table.  A timer interrupt, and with it any step of a process
on another terminal, may come between any two.  A call acts on its caller's block as
long as no other process assigns `curr_pcb` inside another's window, from the
assignment to the dispatch.
-/

namespace StudentDistrib

open Machine

/-- `read` and `write` with a buffer that is not `NULL`. -/
inductive IoCall
  | read (fd nbytes : Int)
  | write (fd : Int) (buf : List UInt8)

namespace IoCall

def fd : IoCall → Int
  | .read fd _ => fd
  | .write fd _ => fd

/-- The descriptor passes the call's own test. -/
def Admitted : IoCall → Prop
  | .read fd _ => fd ≠ 1 ∧ ¬ (fd < 0 ∨ fd > 7)
  | .write fd _ => ¬ (fd ≤ 0 ∨ fd > 7)

instance (call : IoCall) : Decidable call.Admitted :=
  match call with
  | .read fd _ => inferInstanceAs (Decidable (fd ≠ 1 ∧ ¬ (fd < 0 ∨ fd > 7)))
  | .write fd _ => inferInstanceAs (Decidable ¬ (fd ≤ 0 ∨ fd > 7))

/-- The routine of a jump table.  Each routine finds the caller's block itself. -/
def dispatch : IoCall → Option Driver → Kernel → Kernel
  | .read _ nbytes, some .terminal, k => (k.readTerminal nbytes).1
  | .read _ _, some .rtc, k => k.rtcRead.1
  | .read fd _, some .directory, k => (k.readDirectory fd).1
  | .read fd nbytes, some .file, k => (k.readFile fd nbytes).1
  | .read _ _, none, k => k
  | .write _ buf, some .terminal, k => { k with con := (k.con.terminalWrite buf).1 }
  | .write _ buf, some .rtc, k =>
    { k with rtc :=
        (k.rtc.rtcWrite k.scheduledTerm (Image.word (Bytes.ofList buf) 0) buf.length).1 }
  | .write _ _, _, k => k

/-- The return of a call on a descriptor that is not in use. -/
def refuse : IoCall → Kernel → Kernel
  | .read _ _, k => k
  | .write _ _, k => k.onVideo (Video.putc k.con.kb.bufIdx newline)

/-- The call with nothing between its steps. -/
def alone (call : IoCall) (k : Kernel) : Kernel :=
  let k := k.sti.setCurrPcb
  if (k.callerPcb.fdArray call.fd).flags = full then
    call.dispatch (k.callerPcb.fdArray call.fd).jumpTable k
  else call.refuse k

theorem read_eq_alone {fd nbytes : Int} (h : (IoCall.read fd nbytes).Admitted) (k : Kernel) :
    (k.read fd nbytes).1 = (IoCall.read fd nbytes).alone k := by
  unfold Kernel.read
  rw [if_neg h.1, if_neg h.2]
  dsimp only
  by_cases hfull : (k.sti.setCurrPcb.callerPcb.fdArray fd).flags = full
  · have halone : (IoCall.read fd nbytes).alone k = (IoCall.read fd nbytes).dispatch
        (k.sti.setCurrPcb.callerPcb.fdArray fd).jumpTable k.sti.setCurrPcb := if_pos hfull
    rw [if_pos hfull, halone]
    cases (k.sti.setCurrPcb.callerPcb.fdArray fd).jumpTable with
    | none => rfl
    | some driver => cases driver <;> rfl
  · have halone : (IoCall.read fd nbytes).alone k = k.sti.setCurrPcb := if_neg hfull
    rw [if_neg hfull, halone]

theorem write_eq_alone {fd : Int} {buf : List UInt8} (h : (IoCall.write fd buf).Admitted)
    (k : Kernel) : (k.write fd buf).1 = (IoCall.write fd buf).alone k := by
  unfold Kernel.write
  dsimp only
  rw [if_neg h]
  by_cases hfull : (k.sti.setCurrPcb.callerPcb.fdArray fd).flags = full
  · have halone : (IoCall.write fd buf).alone k = (IoCall.write fd buf).dispatch
        (k.sti.setCurrPcb.callerPcb.fdArray fd).jumpTable k.sti.setCurrPcb := if_pos hfull
    rw [if_pos hfull, halone]
    cases (k.sti.setCurrPcb.callerPcb.fdArray fd).jumpTable with
    | none => rfl
    | some driver => cases driver <;> rfl
  · have halone : (IoCall.write fd buf).alone k
        = (IoCall.write fd buf).refuse k.sti.setCurrPcb := if_neg hfull
    rw [if_neg hfull, halone]
    rfl

end IoCall

/-- How far a call has come. -/
inductive Phase
  | entered
  | assigned
  | tested
  deriving DecidableEq

structure InFlight where
  call : IoCall
  phase : Phase

/-- The machine with the calls of `read` and `write` that are under way. -/
structure Preemptible where
  kernel : Kernel
  inFlight : Pid → Option InFlight

/-- The steps of `read` and `write`, and the events between them. -/
inductive MicroEvent
  | enter (call : IoCall)
  | assign
  | test
  | dispatch
  | event (e : Kernel.Event)

namespace Preemptible

/-- The process that the processor executes, with its call under way. -/
def turn (s : Preemptible) : Option (Pid × Option InFlight) :=
  s.kernel.tab.running.map fun p => (p, s.inFlight p)

/-- `curr_pcb->fdArray[fd]`. -/
def entry (fd : Int) (s : Preemptible) : FileDescriptor :=
  (s.kernel.tab.pcb s.kernel.tab.currPcb).fdArray fd

def setCall (p : Pid) (call : Option InFlight) (k : Kernel) (s : Preemptible) : Preemptible :=
  { kernel := k, inFlight := Function.update s.inFlight p call }

/-- Interrupts come at any point.  The other system calls are those of a process that
has none under way. -/
def mayOccur (s : Preemptible) : Kernel.Event → Bool
  | .key _ => true
  | .tick _ => true
  | .rtc => true
  | .read _ _ => false
  | .write _ _ => false
  | _ =>
    match s.turn with
    | some (_, none) => true
    | _ => false

/-- One step.  The process in a slot that was free has no call under way. -/
def next (s : Preemptible) : MicroEvent → Option Preemptible
  | .enter call =>
    match s.turn with
    | some (p, none) =>
      if call.Admitted then some (s.setCall p (some ⟨call, .entered⟩) s.kernel.sti) else none
    | _ => none
  | .assign =>
    match s.turn with
    | some (p, some ⟨call, .entered⟩) =>
      some (s.setCall p (some ⟨call, .assigned⟩) s.kernel.setCurrPcb)
    | _ => none
  | .test =>
    match s.turn with
    | some (p, some ⟨call, .assigned⟩) =>
      if (s.entry call.fd).flags = full then
        some (s.setCall p (some ⟨call, .tested⟩) s.kernel)
      else some (s.setCall p none (call.refuse s.kernel))
    | _ => none
  | .dispatch =>
    match s.turn with
    | some (p, some ⟨call, .tested⟩) =>
      some (s.setCall p none (call.dispatch (s.entry call.fd).jumpTable s.kernel))
    | _ => none
  | .event e =>
    if s.mayOccur e then
      (s.kernel.step e).map fun k =>
        { kernel := k, inFlight := fun p => if s.kernel.tab.pcbArr p then s.inFlight p else none }
    else none

/-- No call under way. -/
def start (k : Kernel) : Preemptible := { kernel := k, inFlight := fun _ => none }

/-! ## Undisturbed, the steps are the call -/

theorem turn_eq_some {s : Preemptible} {p : Pid} {call : Option InFlight} :
    s.turn = some (p, call) ↔ s.kernel.tab.running = some p ∧ s.inFlight p = call := by
  unfold turn
  rw [Option.map_eq_some_iff]
  constructor
  · rintro ⟨q, hq, he⟩
    cases he
    exact ⟨hq, rfl⟩
  · rintro ⟨hp, hcall⟩
    exact ⟨p, hp, by rw [hcall]⟩

theorem setCall_turn {s : Preemptible} {p : Pid} {k : Kernel} (call : Option InFlight)
    (h : k.tab.running = some p) : (s.setCall p call k).turn = some (p, call) :=
  turn_eq_some.mpr ⟨h, Function.update_self _ _ _⟩

theorem setCall_kernel (p : Pid) (call : Option InFlight) (k : Kernel) (s : Preemptible) :
    (s.setCall p call k).kernel = k := rfl

theorem setCall_setCall (p : Pid) (call call' : Option InFlight) (k k' : Kernel)
    (s : Preemptible) : (s.setCall p call k).setCall p call' k' = s.setCall p call' k' := by
  unfold setCall
  dsimp only
  rw [Function.update_idem]

theorem setCall_none {s : Preemptible} {p : Pid} (h : s.inFlight p = none) (k : Kernel) :
    s.setCall p none k = { s with kernel := k } := by
  unfold setCall
  rw [← h, Function.update_eq_self]

section Steps

variable {s : Preemptible} {p : Pid} {call : IoCall}

theorem next_enter (hturn : s.turn = some (p, none)) (hcall : call.Admitted) :
    s.next (.enter call) = some (s.setCall p (some ⟨call, .entered⟩) s.kernel.sti) := by
  unfold next
  rw [hturn]
  exact if_pos hcall

theorem next_assign (hturn : s.turn = some (p, some ⟨call, .entered⟩)) :
    s.next .assign = some (s.setCall p (some ⟨call, .assigned⟩) s.kernel.setCurrPcb) := by
  unfold next
  rw [hturn]

theorem next_test (hturn : s.turn = some (p, some ⟨call, .assigned⟩)) :
    s.next .test = some (if (s.entry call.fd).flags = full then
      s.setCall p (some ⟨call, .tested⟩) s.kernel else s.setCall p none (call.refuse s.kernel)) := by
  unfold next
  rw [hturn]
  dsimp only
  split <;> rfl

theorem next_dispatch (hturn : s.turn = some (p, some ⟨call, .tested⟩)) :
    s.next .dispatch
      = some (s.setCall p none (call.dispatch (s.entry call.fd).jumpTable s.kernel)) := by
  unfold next
  rw [hturn]

/-- With nothing between them, the steps of a call are the call. -/
theorem steps_alone (hturn : s.turn = some (p, none)) (hcall : call.Admitted) :
    ∃ es : List MicroEvent, es.foldlM next s = some { s with kernel := call.alone s.kernel } := by
  obtain ⟨hp, hnone⟩ := turn_eq_some.mp hturn
  have henter := next_enter hturn hcall
  have hassign := next_assign (setCall_turn (s := s) (k := s.kernel.sti)
    (some ⟨call, .entered⟩) hp)
  rw [setCall_setCall, setCall_kernel] at hassign
  have htest := next_test (setCall_turn (s := s) (k := s.kernel.sti.setCurrPcb)
    (some ⟨call, .assigned⟩) hp)
  rw [setCall_setCall, setCall_setCall, setCall_kernel] at htest
  have hentry : (s.setCall p (some ⟨call, .assigned⟩) s.kernel.sti.setCurrPcb).entry call.fd
      = s.kernel.sti.setCurrPcb.callerPcb.fdArray call.fd := rfl
  rw [hentry] at htest
  by_cases hfull : (s.kernel.sti.setCurrPcb.callerPcb.fdArray call.fd).flags = full
  · rw [if_pos hfull] at htest
    have hdispatch := next_dispatch (setCall_turn (s := s) (k := s.kernel.sti.setCurrPcb)
      (some ⟨call, .tested⟩) hp)
    rw [setCall_setCall, setCall_kernel] at hdispatch
    have halone : call.dispatch ((s.setCall p (some ⟨call, .tested⟩) s.kernel.sti.setCurrPcb).entry
        call.fd).jumpTable s.kernel.sti.setCurrPcb = call.alone s.kernel := by
      unfold IoCall.alone
      dsimp only
      rw [if_pos hfull]
      rfl
    refine ⟨[.enter call, .assign, .test, .dispatch], ?_⟩
    rw [List.foldlM_cons, henter]
    show (next _ MicroEvent.assign).bind _ = _
    rw [hassign]
    show (next _ MicroEvent.test).bind _ = _
    rw [htest]
    show (next _ MicroEvent.dispatch).bind _ = _
    rw [hdispatch]
    show some (s.setCall p none (call.dispatch _ s.kernel.sti.setCurrPcb)) = _
    rw [halone, setCall_none hnone]
  · rw [if_neg hfull] at htest
    have halone : call.refuse s.kernel.sti.setCurrPcb = call.alone s.kernel := by
      unfold IoCall.alone
      dsimp only
      rw [if_neg hfull]
    refine ⟨[.enter call, .assign, .test], ?_⟩
    rw [List.foldlM_cons, henter]
    show (next _ MicroEvent.assign).bind _ = _
    rw [hassign]
    show (next _ MicroEvent.test).bind _ = _
    rw [htest]
    show some (s.setCall p none (call.refuse s.kernel.sti.setCurrPcb)) = _
    rw [halone, setCall_none hnone]

end Steps

end Preemptible

/-! ## Who assigns `curr_pcb` -/

namespace Kernel

/-- The event assigns `curr_pcb`. -/
def AssignsCurrPcb (k : Kernel) : Event → Prop
  | .tick r => (k.preempted r).WaitsForShell ∧
      ∃ p, (((k.preempted r).shellReady (k.preempted r).scheduledTerm).execute shellCall r).2
        = .starts p
  | .execute call r => (∃ p, (k.execute call r).2 = .starts p) ∨ (k.execute call r).2 = .faults
  | .halt _ => True
  | .read _ _ => True
  | .write _ _ => True
  | .openFile fname garbage => k.img.readDentryByName fname garbage ≠ none
  | .closeFile _ => True
  | _ => False

variable {k k' : Kernel}

theorem execute_currPcb {call : ExecCall} {r : Regs}
    (h : ¬ ∃ p, (k.execute call r).2 = .starts p)
    (hcall : unlessFaults (k.execute call r) = some k') : k'.tab.currPcb = k.tab.currPcb := by
  rcases execute_unlessFaults hcall with ⟨p, image, hstart, -⟩ | hrefused
  · exact absurd ⟨p, congrArg Prod.snd (execute_starts hstart r)⟩ h
  · rw [hrefused.tab]

theorem resume_currPcb (k : Kernel) : k.resume.tab.currPcb = k.tab.currPcb := by
  unfold resume
  dsimp only
  split <;> rfl

theorem shellReady_currPcb (t : Term) (k : Kernel) :
    (k.shellReady t).tab.currPcb = k.tab.currPcb := by
  unfold shellReady onConsole
  rfl

theorem step_currPcb {e : Event} (h : ¬ k.AssignsCurrPcb e) (hstep : k.step e = some k') :
    k'.tab.currPcb = k.tab.currPcb := by
  cases e with
  | key scan =>
    cases hstep
    rfl
  | tick r =>
    have htick : k.pitHandler r = some k' := hstep
    by_cases hwaits : (k.preempted r).WaitsForShell
    · rw [pitHandler_shell hwaits] at htick
      rw [execute_currPcb (fun hstarts => h ⟨hwaits, hstarts⟩) htick, shellReady_currPcb]
      rfl
    · rw [pitHandler_resume hwaits] at htick
      rw [← Option.some.inj htick, resume_currPcb]
      rfl
  | rtc =>
    cases hstep
    rfl
  | execute call r =>
    obtain ⟨hstarts, hfaults⟩ := not_or.mp h
    exact execute_currPcb hstarts (unlessFaults_of_step hfaults hstep)
  | halt status => exact absurd trivial h
  | read fd nbytes => exact absurd trivial h
  | readDone nbytes =>
    unfold step at hstep
    dsimp only at hstep
    obtain ⟨⟨con, result⟩, -, rfl⟩ := Option.map_eq_some_iff.mp hstep
    rfl
  | write fd buf => exact absurd trivial h
  | openFile fname garbage =>
    have hnone : k.img.readDentryByName fname garbage = none := not_not.mp h
    have hsame : k.openFile fname garbage = (k, -1) := by
      unfold openFile
      rw [hnone]
    have hk : (k.openFile fname garbage).1 = k' := Option.some.inj hstep
    rw [← hk, hsame]
  | closeFile fd => exact absurd trivial h
  | getargs nbytes =>
    cases hstep
    rfl
  | vidmap screenStart =>
    have hk : (k.vidmap screenStart).1 = k' := Option.some.inj hstep
    rw [← hk]
    unfold vidmap
    split
    · rfl
    · split <;> rfl
  | vidmapStore offset b =>
    cases hstep
    rfl

theorem dispatch_currPcb (call : IoCall) (driver : Option Driver) (k : Kernel) :
    (call.dispatch driver k).tab.currPcb = k.tab.currPcb := by
  have hfile : ∀ fd nbytes, (k.readFile fd nbytes).1.tab.currPcb = k.tab.currPcb := by
    intro fd nbytes
    unfold readFile
    dsimp only
    split
    · split <;> rfl
    · rfl
  have hdirectory : ∀ fd, (k.readDirectory fd).1.tab.currPcb = k.tab.currPcb := by
    intro fd
    unfold readDirectory
    dsimp only
    split
    · split <;> rfl
    · rfl
  have hterminal : ∀ nbytes, (k.readTerminal nbytes).1.tab.currPcb = k.tab.currPcb := by
    intro nbytes
    unfold readTerminal
    split <;> rfl
  cases call with
  | read fd nbytes =>
    cases driver with
    | none => rfl
    | some driver =>
      cases driver with
      | terminal => exact hterminal nbytes
      | rtc => rfl
      | directory => exact hdirectory fd
      | file => exact hfile fd nbytes
  | write fd buf =>
    cases driver with
    | none => rfl
    | some driver => cases driver <;> rfl

theorem refuse_currPcb (call : IoCall) (k : Kernel) :
    (call.refuse k).tab.currPcb = k.tab.currPcb := by
  cases call <;> rfl

end Kernel

/-! ## The window of a call -/

namespace Preemptible

/-- The call of process `p` is between its assignment and its dispatch. -/
def InWindow (p : Pid) (s : Preemptible) : Prop :=
  ∃ call phase, s.inFlight p = some ⟨call, phase⟩ ∧ phase ≠ .entered

/-- Nobody assigns `curr_pcb` in the window of a call, and the process that assigns it
is the one that the tables name. -/
def Undisturbed (s : Preemptible) : MicroEvent → Prop
  | .assign => (∀ p, ¬ s.InWindow p) ∧ s.kernel.tab.running = some s.kernel.currPid
  | .event e => s.kernel.AssignsCurrPcb e → ∀ p, ¬ s.InWindow p
  | _ => True

/-- The entry that the running process tests, or dispatches through, is one of its own
control block. -/
def ActsOnCaller (s : Preemptible) : Prop :=
  ∀ p call phase, s.turn = some (p, some ⟨call, phase⟩) → phase ≠ .entered →
    s.kernel.tab.currPcb = p ∧ s.entry call.fd = (s.kernel.tab.pcb p).fdArray call.fd

/-- Every call in its window has `curr_pcb` on its caller. -/
def Held (s : Preemptible) : Prop := ∀ p, s.InWindow p → s.kernel.tab.currPcb = p

theorem Held.actsOnCaller {s : Preemptible} (h : s.Held) : s.ActsOnCaller := by
  intro p call phase hturn hphase
  have hp := h p ⟨call, phase, (turn_eq_some.mp hturn).2, hphase⟩
  refine ⟨hp, ?_⟩
  unfold entry
  rw [hp]

/-- The calls of the other processes after a step of one. -/
theorem setCall_inWindow {s : Preemptible} {p q : Pid} {call : Option InFlight} {k : Kernel}
    (h : (s.setCall p call k).InWindow q) :
    (q = p ∧ ∃ c phase, call = some ⟨c, phase⟩ ∧ phase ≠ .entered) ∨ (q ≠ p ∧ s.InWindow q) := by
  obtain ⟨c, phase, hcall, hphase⟩ := h
  have hupdate : Function.update s.inFlight p call q = some ⟨c, phase⟩ := hcall
  by_cases hq : q = p
  · rw [hq, Function.update_self] at hupdate
    exact Or.inl ⟨hq, c, phase, hupdate, hphase⟩
  · rw [Function.update_of_ne hq] at hupdate
    exact Or.inr ⟨hq, c, phase, hupdate, hphase⟩

/-- What a step can do. -/
theorem next_cases {s s' : Preemptible} {e : MicroEvent} (hnext : s.next e = some s') :
    (∃ call p, e = .enter call ∧ s.turn = some (p, none) ∧
      s' = s.setCall p (some ⟨call, .entered⟩) s.kernel.sti) ∨
    (∃ call p, e = .assign ∧ s.turn = some (p, some ⟨call, .entered⟩) ∧
      s' = s.setCall p (some ⟨call, .assigned⟩) s.kernel.setCurrPcb) ∨
    (∃ call p, e = .test ∧ s.turn = some (p, some ⟨call, .assigned⟩) ∧
      (s' = s.setCall p (some ⟨call, .tested⟩) s.kernel ∨
        s' = s.setCall p none (call.refuse s.kernel))) ∨
    (∃ call p, e = .dispatch ∧ s.turn = some (p, some ⟨call, .tested⟩) ∧
      s' = s.setCall p none (call.dispatch (s.entry call.fd).jumpTable s.kernel)) ∨
    ∃ ev k, e = .event ev ∧ s.kernel.step ev = some k ∧ s' =
      { kernel := k
        inFlight := fun p => if s.kernel.tab.pcbArr p then s.inFlight p else none } := by
  unfold next at hnext
  cases e with
  | enter call =>
    dsimp only at hnext
    split at hnext
    · rename_i p hturn
      split at hnext
      · exact Or.inl ⟨call, p, rfl, hturn, (Option.some.inj hnext).symm⟩
      · cases hnext
    · cases hnext
  | assign =>
    dsimp only at hnext
    split at hnext
    · rename_i p call hturn
      exact Or.inr (Or.inl ⟨call, p, rfl, hturn, (Option.some.inj hnext).symm⟩)
    · cases hnext
  | test =>
    dsimp only at hnext
    split at hnext
    · rename_i p call hturn
      refine Or.inr (Or.inr (Or.inl ⟨call, p, rfl, hturn, ?_⟩))
      split at hnext
      · exact Or.inl (Option.some.inj hnext).symm
      · exact Or.inr (Option.some.inj hnext).symm
    · cases hnext
  | dispatch =>
    dsimp only at hnext
    split at hnext
    · rename_i p call hturn
      exact Or.inr (Or.inr (Or.inr (Or.inl ⟨call, p, rfl, hturn, (Option.some.inj hnext).symm⟩)))
    · cases hnext
  | event ev =>
    dsimp only at hnext
    split at hnext
    · obtain ⟨k, hk, rfl⟩ := Option.map_eq_some_iff.mp hnext
      exact Or.inr (Or.inr (Or.inr (Or.inr ⟨ev, k, rfl, hk, rfl⟩)))
    · cases hnext

theorem next_held {s s' : Preemptible} {e : MicroEvent} (h : s.Held) (he : s.Undisturbed e)
    (hnext : s.next e = some s') : s'.Held := by
  rcases next_cases hnext with ⟨call, p, -, -, rfl⟩ | ⟨call, p, rfl, hturn, rfl⟩ |
    ⟨call, p, -, hturn, rfl | rfl⟩ | ⟨call, p, -, -, rfl⟩ | ⟨ev, k, rfl, hstep, rfl⟩
  · intro q hq
    rcases setCall_inWindow hq with ⟨-, c, phase, hcall, hphase⟩ | ⟨-, hq⟩
    · cases hcall
      exact absurd rfl hphase
    · exact h q hq
  · -- The assignment opens the only window.
    obtain ⟨hclosed, hrunning⟩ := he
    intro q hq
    rcases setCall_inWindow hq with ⟨rfl, -⟩ | ⟨-, hq⟩
    · exact Option.some.inj (hrunning.symm.trans (turn_eq_some.mp hturn).1)
    · exact absurd hq (hclosed q)
  · intro q hq
    rcases setCall_inWindow hq with ⟨rfl, -⟩ | ⟨-, hq⟩
    · exact h q ⟨call, .assigned, (turn_eq_some.mp hturn).2, by decide⟩
    · exact h q hq
  · intro q hq
    rcases setCall_inWindow hq with ⟨-, c, phase, hcall, -⟩ | ⟨-, hq⟩
    · cases hcall
    · exact (Kernel.refuse_currPcb call s.kernel).trans (h q hq)
  · intro q hq
    rcases setCall_inWindow hq with ⟨-, c, phase, hcall, -⟩ | ⟨-, hq⟩
    · cases hcall
    · exact (Kernel.dispatch_currPcb call _ s.kernel).trans (h q hq)
  · rintro q ⟨call, phase, hcall, hphase⟩
    have hq : s.InWindow q := by
      dsimp only at hcall
      split at hcall
      · exact ⟨call, phase, hcall, hphase⟩
      · cases hcall
    by_cases hassigns : s.kernel.AssignsCurrPcb ev
    · exact absurd hq (he hassigns q)
    · exact (Kernel.step_currPcb hassigns hstep).trans (h q hq)

theorem start_held (k : Kernel) : (start k).Held := by
  rintro p ⟨call, phase, hcall, -⟩
  cases hcall

/-- In every run whose windows nobody disturbs, from any state with no call under way,
each test and each dispatch acts on the control block of the process that makes the
call. -/
theorem undisturbed_actsOnCaller {k : Kernel} {s : Preemptible}
    (hrun : Reaches next Undisturbed (start k) s) : s.ActsOnCaller :=
  (hrun.invariant (fun _ _ _ h he hnext => next_held h he hnext) (start_held k)).actsOnCaller

/-! ## One shell and three -/

section Runs

variable {s : Preemptible} {p : Pid} {call : IoCall}

theorem next_event {e : Kernel.Event} {k : Kernel} (hoccurs : s.mayOccur e = true)
    (hstep : s.kernel.step e = some k) : s.next (.event e) = some
      { kernel := k
        inFlight := fun p => if s.kernel.tab.pcbArr p then s.inFlight p else none } := by
  unfold next
  dsimp only
  rw [if_pos hoccurs, hstep]
  rfl

/-- A timer interrupt where no call is under way. -/
theorem next_tick_start {k k' : Kernel} {r : Regs} (h : k.pitHandler r = some k') :
    (start k).next (.event (.tick r)) = some (start k') := by
  have hnext := next_event (s := start k) (e := .tick r) rfl h
  have hcalls : (fun p => if (start k).kernel.tab.pcbArr p then (start k).inFlight p else none)
      = fun _ => none := funext fun _ => ite_self _
  rw [hnext, hcalls]
  rfl

theorem baseShells_slot {t : Term} {k : Kernel} (h : Kernel.BaseShells t k) (u : Term) :
    k.tab.pcbArr (basePid u) = true := by
  have hslots : k.tab.pcbArr = fun p : Pid => decide ((p : Nat) ≤ 2) := h.pcbArr
  rw [hslots]
  revert u
  decide

/-- Between the base shells, a timer interrupt leaves `curr_pcb` and the shells' calls. -/
theorem next_tick_baseShells {t : Term} (h : Kernel.BaseShells t s.kernel) : ∃ s',
    s.next (.event (.tick (Kernel.baseFrame t))) = some s' ∧
      Kernel.BaseShells (t + 1) s'.kernel ∧
      s'.kernel.tab.currPcb = s.kernel.tab.currPcb ∧
      ∀ u, s'.inFlight (basePid u) = s.inFlight (basePid u) := by
  obtain ⟨htick, hshells⟩ := h.tick (Kernel.stackOwner_baseFrame t)
  exact ⟨_, next_event rfl htick, hshells, Kernel.resume_currPcb _,
    fun u => if_pos (baseShells_slot h u)⟩

/-- A close on a base shell's terminal points `curr_pcb` at that shell. -/
theorem next_close_baseShells {t : Term} (h : Kernel.BaseShells t s.kernel)
    (hnone : s.inFlight (basePid t) = none) (fd : Int) : ∃ s',
    s.next (.event (.closeFile fd)) = some s' ∧ Kernel.BaseShells t s'.kernel ∧
      s'.kernel.tab.currPcb = basePid t ∧
      ∀ u, s'.inFlight (basePid u) = s.inFlight (basePid u) := by
  have hturn : s.turn = some (basePid t, none) := turn_eq_some.mpr ⟨h.running, hnone⟩
  have hoccurs : s.mayOccur (.closeFile fd) = true := by
    unfold mayOccur
    rw [hturn]
  have hcurr : (s.kernel.closeFile fd).1.tab.currPcb = s.kernel.currPid := by
    unfold Kernel.closeFile
    dsimp only
    split <;> rfl
  exact ⟨_, next_event hoccurs rfl, h.aside (Kernel.aside_closeFile fd s.kernel),
    hcurr.trans h.currPid, fun u => if_pos (baseShells_slot h u)⟩

/-- A base shell asks for its arguments. -/
theorem next_getargs_baseShells {t : Term} (h : Kernel.BaseShells t s.kernel)
    (hnone : s.inFlight (basePid t) = none) (nbytes : Int) : ∃ s',
    s.next (.event (.getargs nbytes)) = some s' ∧ Kernel.BaseShells t s'.kernel ∧
      ∀ u, s'.inFlight (basePid u) = s.inFlight (basePid u) := by
  have hturn : s.turn = some (basePid t, none) := turn_eq_some.mpr ⟨h.running, hnone⟩
  have hoccurs : s.mayOccur (.getargs nbytes) = true := by
    unfold mayOccur
    rw [hturn]
  exact ⟨_, next_event hoccurs rfl, h, fun u => if_pos (baseShells_slot h u)⟩

theorem start_not_inWindow (k : Kernel) (p : Pid) : ¬ (start k).InWindow p := by
  rintro ⟨call, phase, hcall, -⟩
  cases hcall

theorem tick_undisturbed {t : Term} (h : Kernel.BaseShells t s.kernel) (r : Regs) :
    s.Undisturbed (.event (.tick r)) := fun hassigns =>
  absurd hassigns.1 (Kernel.not_waitsForShell h.up r)

/-- The boot, with no call under way. -/
theorem start_boot {ok : Preemptible → MicroEvent → Prop}
    (hok : ∀ k r, ok (start k) (.event (.tick r))) {ram : Kernel.Ram} {img : Image}
    {k₀ k : Kernel} {r₁ r₂ r₃ : Regs} (hentry : Kernel.entry ram img = some k₀)
    (hboot : Kernel.boot ram img r₁ r₂ r₃ = some k) : Reaches next ok (start k₀) (start k) := by
  unfold Kernel.boot at hboot
  rw [hentry, Option.bind_some] at hboot
  obtain ⟨k₂, h₂, h₃⟩ := Option.bind_eq_some_iff.mp hboot
  obtain ⟨k₁, h₁, h₂⟩ := Option.bind_eq_some_iff.mp h₂
  have hrun₁ : Reaches next ok (start k₀) (start k₁) :=
    Reaches.step .refl (hok k₀ r₁) (next_tick_start h₁)
  exact (hrun₁.step (hok k₁ r₂) (next_tick_start h₂)).step (hok k₂ r₃) (next_tick_start h₃)

/-- The first shell reads its keyboard.  Between the assignment and the test the timer
goes round the terminals, and the second shell asks for its arguments. -/
theorem undisturbed_actsOnCaller_shell : ∃ k₀ s,
    Kernel.entry Kernel.zeroRam shellImage = some k₀ ∧
    Reaches next Undisturbed (start k₀) s ∧
    s.turn = some (0, some ⟨.read 0 128, .assigned⟩) ∧ s.ActsOnCaller := by
  obtain ⟨k₀, k, hentry, hboot, -, hshells, -⟩ :=
    Kernel.exists_baseShells Kernel.KeepsTables Kernel.keepsTables_boot Kernel.zeroRam
      Kernel.hasShell_shellImage Kernel.shellBytes_fits
  have hrun : Reaches next Undisturbed (start k₀) (start k) :=
    start_boot (fun k _ _ p => start_not_inWindow k p) hentry hboot
  have hrunning : k.tab.running = some (basePid 0) := hshells.running
  have hturn : (start k).turn = some (basePid 0, none) := turn_eq_some.mpr ⟨hrunning, rfl⟩
  have hadmitted : (IoCall.read 0 128).Admitted := by decide
  have henter := next_enter hturn hadmitted
  have hassign := next_assign (setCall_turn (s := start k) (k := k.sti)
    (some ⟨.read 0 128, .entered⟩) hrunning)
  rw [setCall_setCall] at hassign
  have hclosed : ∀ q,
      ¬ ((start k).setCall (basePid 0) (some ⟨.read 0 128, .entered⟩) k.sti).InWindow q := by
    intro q hq
    rcases setCall_inWindow hq with ⟨-, c, phase, hcall, hphase⟩ | ⟨-, hq⟩
    · cases hcall
      exact hphase rfl
    · exact start_not_inWindow k q hq
  have hcaller : k.sti.tab.running = some k.sti.currPid := by
    show k.tab.running = some k.currPid
    rw [hrunning, hshells.currPid]
  have henters : (start k).Undisturbed (.enter (.read 0 128)) := trivial
  have hassigns : ((start k).setCall (basePid 0) (some ⟨.read 0 128, .entered⟩)
      k.sti).Undisturbed .assign := ⟨hclosed, hcaller⟩
  have hrun₂ := (hrun.step henters henter).step hassigns hassign
  have hshells₂ : Kernel.BaseShells 0 k.sti.setCurrPcb := hshells.aside ⟨rfl, rfl, rfl⟩
  obtain ⟨s₃, h₃, hshells₃, -, hcalls₃⟩ := next_tick_baseShells (s := (start k).setCall (basePid 0)
    (some ⟨.read 0 128, .assigned⟩) k.sti.setCurrPcb) hshells₂
  have hnone : s₃.inFlight (basePid 1) = none := hcalls₃ 1
  obtain ⟨s₄, h₄, hshells₄, hcalls₄⟩ := next_getargs_baseShells hshells₃ hnone 128
  obtain ⟨s₅, h₅, hshells₅, -, hcalls₅⟩ := next_tick_baseShells hshells₄
  obtain ⟨s₆, h₆, hshells₆, -, hcalls₆⟩ := next_tick_baseShells hshells₅
  have hasks : s₃.Undisturbed (.event (.getargs 128)) := fun hassigns => absurd hassigns id
  have hrun₄ := (hrun₂.step (tick_undisturbed hshells₂ _) h₃).step hasks h₄
  have hrun₆ := (hrun₄.step (tick_undisturbed hshells₄ _) h₅).step
    (tick_undisturbed hshells₅ _) h₆
  have hcall : s₆.inFlight (basePid 0) = some ⟨.read 0 128, .assigned⟩ := by
    rw [hcalls₆, hcalls₅, hcalls₄, hcalls₃]
    rfl
  exact ⟨k₀, s₆, hentry, hrun₆, turn_eq_some.mpr ⟨hshells₆.running, hcall⟩,
    undisturbed_actsOnCaller hrun₆⟩

/-- The first shell reads its keyboard.  Between the assignment and the test the timer
goes round the terminals, and the second shell closes a descriptor. -/
theorem window_disturbed : ∃ k₀ s, Kernel.entry Kernel.zeroRam shellImage = some k₀ ∧
    Reaches next (fun _ _ => True) (start k₀) s ∧ ¬ s.ActsOnCaller := by
  obtain ⟨k₀, k, hentry, hboot, -, hshells, -⟩ :=
    Kernel.exists_baseShells Kernel.KeepsTables Kernel.keepsTables_boot Kernel.zeroRam
      Kernel.hasShell_shellImage Kernel.shellBytes_fits
  have hrun : Reaches next (fun _ _ => True) (start k₀) (start k) :=
    start_boot (fun _ _ => trivial) hentry hboot
  have hrunning : k.tab.running = some (basePid 0) := hshells.running
  have hturn : (start k).turn = some (basePid 0, none) := turn_eq_some.mpr ⟨hrunning, rfl⟩
  have hadmitted : (IoCall.read 0 128).Admitted := by decide
  have henter := next_enter hturn hadmitted
  have hassign := next_assign (setCall_turn (s := start k) (k := k.sti)
    (some ⟨.read 0 128, .entered⟩) hrunning)
  rw [setCall_setCall] at hassign
  have hrun₂ := (hrun.step trivial henter).step trivial hassign
  have hshells₂ : Kernel.BaseShells 0 k.sti.setCurrPcb := hshells.aside ⟨rfl, rfl, rfl⟩
  obtain ⟨s₃, h₃, hshells₃, -, hcalls₃⟩ := next_tick_baseShells (s := (start k).setCall (basePid 0)
    (some ⟨.read 0 128, .assigned⟩) k.sti.setCurrPcb) hshells₂
  have hnone : s₃.inFlight (basePid 1) = none := hcalls₃ 1
  obtain ⟨s₄, h₄, hshells₄, hcurr₄, hcalls₄⟩ := next_close_baseShells hshells₃ hnone 2
  obtain ⟨s₅, h₅, hshells₅, hcurr₅, hcalls₅⟩ := next_tick_baseShells hshells₄
  obtain ⟨s₆, h₆, hshells₆, hcurr₆, hcalls₆⟩ := next_tick_baseShells hshells₅
  have hrun₆ := (((hrun₂.step trivial h₃).step trivial h₄).step trivial h₅).step trivial h₆
  refine ⟨k₀, s₆, hentry, hrun₆, fun hacts => ?_⟩
  have hcall : s₆.inFlight (basePid 0) = some ⟨.read 0 128, .assigned⟩ := by
    rw [hcalls₆, hcalls₅, hcalls₄, hcalls₃]
    rfl
  have hturn₆ : s₆.turn = some (basePid 0, some ⟨.read 0 128, .assigned⟩) :=
    turn_eq_some.mpr ⟨hshells₆.running, hcall⟩
  have hown := (hacts _ _ _ hturn₆ (by decide)).1
  rw [hcurr₆, hcurr₅, hcurr₄] at hown
  exact absurd hown (by decide)

end Runs

end Preemptible

end StudentDistrib
