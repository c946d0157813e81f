import StudentDistrib.Console.Lines
import StudentDistrib.Console.Script
import StudentDistrib.Console.VirtualConsoles

/-!
# The echo as a critical section

The states that `keyboard_handler` passes through, with the interrupt flag among
their fields.  `keyboardputc` maps `VIDEO` to the displayed screen and raises
`keyboardPutCFlag` around a call of `putc`, and `putc` enables interrupts before it
returns.  The handler is therefore closed to interrupts while these two are in
place exactly when it echoes nothing.
-/

namespace StudentDistrib

open Machine

namespace Video

/-! ## The moments of an action

A moment is the state after an assignment to the interrupt flag, to
`keyboardPutCFlag`, to `page_table` or to `currentTerminal`.  The moments of an
action end with the state that it leaves. -/

/-- What `putc` does between its `cli` and its `sti`. -/
def putcBody (bufIdx : Int) (c : UInt8) (v : Video) : Video :=
  if c = backspaceAscii then v.putBackspace bufIdx
  else v.print (if v.keyboardPutCFlag then v.currentTerminal else v.scheduledTerm) c

theorem putc_body (bufIdx : Int) (c : UInt8) (v : Video) :
    v.putc bufIdx c = (v.cli.putcBody bufIdx c).sti := by
  unfold putcBody
  by_cases hc : c = backspaceAscii
  · rw [if_pos hc]
    unfold putc
    dsimp only
    rw [if_pos hc]
  · rw [if_neg hc, putc_eq bufIdx hc]
    rfl

def putcMoments (bufIdx : Int) (c : UInt8) (v : Video) : List Video :=
  [v.cli, v.cli.putcBody bufIdx c, v.putc bufIdx c]

def keyboardputcMoments (bufIdx : Int) (c : UInt8) (v : Video) : List Video :=
  if v.termReadFlag v.currentTerminal then
    let mapped := { v with pageTable := videoFrame }
    let entered := { mapped with keyboardPutCFlag := true }
    let left := { entered.putc bufIdx c with keyboardPutCFlag := false }
    [mapped, entered] ++ entered.putcMoments bufIdx c ++
      [left, { left with pageTable := v.pageTable }]
  else []

def clearMoments (v : Video) : List Video :=
  let mapped := { v with pageTable := videoFrame }
  [mapped, mapped.clear, v.clear]

def terminalChangingMoments (t : Term) (v : Video) : List Video :=
  let mapped := { v with pageTable := videoFrame }
  [mapped, mapped.terminalChanging t, v.terminalChanging t]

/-- Interrupts are disabled, or the echo's flag is low and `VIDEO` maps to the screen
of the scheduled terminal. -/
def Shielded (v : Video) : Prop :=
  v.interruptFlag = true →
    v.keyboardPutCFlag = false ∧ v.pageTable = v.logicalFrame v.scheduledTerm

/-- The state between two interrupts. -/
structure Steady (v : Video) : Prop where
  process : v.keyboardPutCFlag = false
  kernel : v.pageTable = v.logicalFrame v.scheduledTerm

theorem Steady.shielded {v : Video} (h : v.Steady) : v.Shielded := fun _ => ⟨h.process, h.kernel⟩

theorem shielded_of_closed {v : Video} (h : v.interruptFlag = false) : v.Shielded :=
  fun hopen => absurd (h.symm.trans hopen) (by decide)

theorem Mapped.steady {v : Video} (h : v.Mapped) : v.Steady where
  process := h.process
  kernel := h.kernel

theorem Steady.of_selection {v v' : Video} (h : v.Steady) (hsel : v'.selection = v.selection) :
    v'.Steady := by
  have hcurrent := congrArg Selection.currentTerminal hsel
  have hscheduled := congrArg Selection.scheduledTerm hsel
  have hpage := congrArg Selection.pageTable hsel
  have hflag := congrArg Selection.keyboardPutCFlag hsel
  simp only [selection] at hcurrent hscheduled hpage hflag
  exact
    { process := hflag.trans h.process
      kernel := by
        unfold logicalFrame
        rw [hpage, hcurrent, hscheduled]
        exact h.kernel }

theorem clear_interruptFlag (v : Video) : v.clear.interruptFlag = v.interruptFlag := by
  unfold clear setCursor
  dsimp only

theorem terminalChanging_interruptFlag (t : Term) (v : Video) :
    (v.terminalChanging t).interruptFlag = v.interruptFlag := by
  unfold terminalChanging
  split <;> rfl

theorem setPagingScheduling_interruptFlag (t : Term) (v : Video) :
    (v.setPagingScheduling t).interruptFlag = v.interruptFlag := by
  unfold setPagingScheduling
  split <;> rfl

/-- `clear` with interrupts disabled. -/
theorem Steady.clearMoments {v : Video} (h : v.Steady) (hclosed : v.interruptFlag = false) :
    ∀ w ∈ v.clearMoments, w.Shielded := by
  intro w hw
  simp only [Video.clearMoments, List.mem_cons, List.not_mem_nil, or_false] at hw
  rcases hw with rfl | rfl | rfl
  · exact shielded_of_closed hclosed
  · exact shielded_of_closed ((clear_interruptFlag _).trans hclosed)
  · exact (h.of_selection (clear_selection v)).shielded

/-- An echo opens the interrupts while its flag is up. -/
theorem exists_not_shielded {v : Video} (hread : v.termReadFlag v.currentTerminal = true)
    (bufIdx : Int) (c : UInt8) : ∃ w ∈ v.keyboardputcMoments bufIdx c, ¬ w.Shielded := by
  let entered := { v with pageTable := videoFrame, keyboardPutCFlag := true }
  refine ⟨entered.putc bufIdx c, ?_, fun hshielded => ?_⟩
  · unfold keyboardputcMoments
    rw [if_pos hread]
    exact List.mem_append_left _ (List.mem_append_right _
      (List.mem_cons_of_mem _ (List.mem_cons_of_mem _ List.mem_cons_self)))
  · have hopen : (entered.putc bufIdx c).interruptFlag = true := by
      rw [putc_body]
      rfl
    have hflag : (entered.putc bufIdx c).keyboardPutCFlag = true :=
      congrArg Selection.keyboardPutCFlag (putc_selection bufIdx c entered)
    exact absurd (hflag.symm.trans (hshielded hopen).1) (by decide)

/-- A switch to `t` outside an echo. -/
theorem steady_switch {v : Video} (h : v.keyboardPutCFlag = false) (t : Term) :
    ((v.setPagingScheduling t).terminalChanging t).Steady := by
  obtain ⟨hpage, -, hflag⟩ := terminalChanging_pages t (v.setPagingScheduling t)
  refine ⟨?_, ?_⟩
  · rw [hflag, setPagingScheduling_keyboardPutCFlag, h]
  · unfold logicalFrame
    rw [hpage, (setPagingScheduling_pages t v).1, terminalChanging_currentTerminal,
      terminalChanging_scheduledTerm, setPagingScheduling_scheduledTerm]

theorem steady_schedule {v : Video} (h : v.keyboardPutCFlag = false) :
    (v.setPagingScheduling v.currentTerminal).Steady := by
  refine ⟨?_, ?_⟩
  · rw [setPagingScheduling_keyboardPutCFlag, h]
  · unfold logicalFrame
    rw [(setPagingScheduling_pages v.currentTerminal v).1, setPagingScheduling_currentTerminal,
      setPagingScheduling_scheduledTerm]

end Video

/-! ## The actions of a key -/

namespace Action

/-- The action maps no page but for an echo. -/
def Plain : Action → Prop
  | .clear => False
  | .setPaging _ => False
  | .changing _ => False
  | _ => True

end Action

namespace Keyboard

/-- The key prints on the displayed screen, if that is read. -/
def EchoesKey (scan : UInt8) (k : Keyboard) : Prop :=
  match keyOf scan with
  | .enter => k.ctrlKey = 1 ∨ k.keyboardFlags k.currTerm ≠ lPress
  | .backspace => k.bufIdx > 0
  | .space => True
  | .tab => k.bufIdx < bufsize - 1
  | .other =>
    if k.ctrlState = true ∧ scan = lPress then ∃ i : Nat, i < 128 ∧ k.keyboardBuf i ≠ 0
    else k.bufIdx < bufsize - 1 ∧ (scancodeHelper k.capslockFlag k.capitalFlag scan).isSome
  | _ => False

theorem script_switch {scan : UInt8} {k : Keyboard} {u : Term}
    (h : Console.switches scan k = some u) (t : Term) : k.script scan t =
      [.set (k.pick u), .setPaging u, .changing u, .set (k.pick u).changeLine, .sti] := by
  unfold Console.switches at h
  unfold script
  cases hk : keyOf scan with
  | f w press =>
    rw [hk] at h
    cases press with
    | false => cases h
    | true =>
      by_cases halt : k.altInfo = true
      · have hw : w = u := by simpa [halt] using h
        rw [hw]
        show k.fScript true u = _
        unfold fScript
        rw [if_pos rfl, if_pos halt]
      · simp [halt] at h
  | _ => simp [hk] at h

theorem backspaceScript_plain (k : Keyboard) : ∀ a ∈ k.backspaceScript, a.Plain := by
  intro a ha
  unfold backspaceScript at ha
  split at ha
  · simp only [List.mem_cons, List.not_mem_nil, or_false] at ha
    rcases ha with rfl | rfl | rfl | rfl <;> trivial
  · rw [List.mem_singleton.mp ha]
    trivial

theorem clearScript_plain (k : Keyboard) :
    ∃ l, k.clearScript = .clear :: l ∧ ∀ a ∈ l, a.Plain := by
  refine ⟨_, rfl, fun a ha => ?_⟩
  rcases List.mem_append.mp ha with ha | ha
  · obtain ⟨i, -, -, rfl⟩ := echoScript_echo ha
    trivial
  · simp only [List.mem_cons, List.not_mem_nil, or_false] at ha
    rcases ha with rfl | rfl | rfl <;> trivial

/-- A key that is no switch takes plain actions, after a `clear` at most. -/
theorem script_plain {scan : UInt8} {k : Keyboard} (h : Console.switches scan k = none)
    (t : Term) : (∀ a ∈ k.script scan t, a.Plain) ∨
      ∃ l, k.script scan t = .clear :: l ∧ ∀ a ∈ l, a.Plain := by
  have hset : ∀ k' : Keyboard, (Action.set k').Plain := fun _ => trivial
  have hsti : Action.sti.Plain := trivial
  unfold Console.switches at h
  unfold script
  cases hk : keyOf scan with
  | enter => exact Or.inl (enterScript_forall hset hsti trivial t k)
  | backspace => exact Or.inl (backspaceScript_plain k)
  | space => exact Or.inl (appendScript_forall hset hsti trivial k)
  | tab => exact Or.inl (tabScript_forall hset hsti trivial 4 k)
  | f u press =>
    rw [hk] at h
    refine Or.inl ?_
    show ∀ a ∈ k.fScript press u, a.Plain
    unfold fScript
    cases press with
    | false => exact fun a ha => by rw [List.mem_singleton.mp ha]; trivial
    | true =>
      have halt : ¬ k.altInfo = true := fun e => by simp [e] at h
      rw [if_pos rfl, if_neg halt]
      exact setSti_forall hset hsti _
  | other =>
    dsimp only
    split
    · exact Or.inr (clearScript_plain k)
    · exact Or.inl (typeScript_forall hset hsti scan k fun _ _ => trivial)
  | _ => exact Or.inl (setSti_forall hset hsti _)

/-! ## Which keys echo -/

theorem echo_mem_enterScript (t : Term) (k : Keyboard) :
    (∃ b, Action.echo b ∈ k.enterScript t) ↔
      k.ctrlKey = 1 ∨ k.keyboardFlags k.currTerm ≠ lPress := by
  have hcommit : (k.commit t).keyboardFlags (k.commit t).currTerm
      = k.keyboardFlags k.currTerm := rfl
  unfold enterScript markScript
  rw [hcommit]
  by_cases hctrl : k.ctrlKey = 1 <;> by_cases hflag : k.keyboardFlags k.currTerm ≠ lPress <;>
    simp [hctrl, hflag]

theorem echo_mem_tabScript (n : Nat) (k : Keyboard) :
    (∃ b, Action.echo b ∈ k.tabScript (n + 1)) ↔ k.bufIdx < bufsize - 1 := by
  rw [tabScript]
  by_cases hfull : k.bufIdx ≥ bufsize - 1
  · rw [if_pos hfull]
    simp [hfull]
  · rw [if_neg hfull]
    refine ⟨fun _ => Int.not_le.mp hfull, fun _ => ⟨space, ?_⟩⟩
    exact List.mem_append_left _ (List.mem_cons_of_mem _ List.mem_cons_self)

theorem echo_mem_clearScript (k : Keyboard) :
    (∃ b, Action.echo b ∈ k.clearScript) ↔ ∃ i : Nat, i < 128 ∧ k.keyboardBuf i ≠ 0 := by
  constructor
  · rintro ⟨b, hb⟩
    unfold clearScript at hb
    simp only [List.mem_cons, List.mem_append, List.not_mem_nil, or_false, reduceCtorEq,
      false_or] at hb
    obtain ⟨i, hi, hne, -⟩ := echoScript_echo hb
    exact ⟨i, List.mem_range.mp hi, hne⟩
  · rintro ⟨i, hi, hne⟩
    refine ⟨k.keyboardBuf i, List.mem_cons_of_mem _ (List.mem_append_left _ ?_)⟩
    exact List.mem_map.mpr ⟨i, List.mem_filter.mpr ⟨List.mem_range.mpr hi, decide_eq_true hne⟩, rfl⟩

theorem echo_mem_typeScript (scan : UInt8) (k : Keyboard) :
    (∃ b, Action.echo b ∈ k.typeScript scan) ↔
      k.bufIdx < bufsize - 1 ∧ (scancodeHelper k.capslockFlag k.capitalFlag scan).isSome := by
  unfold typeScript
  by_cases hfull : k.bufIdx ≥ bufsize - 1
  · rw [if_pos hfull]
    exact iff_of_false (by simp) fun h => Int.not_lt.mpr hfull h.1
  · rw [if_neg hfull]
    cases scancodeHelper k.capslockFlag k.capitalFlag scan with
    | none => simp
    | some b =>
      have hroom : k.bufIdx < bufsize - 1 := Int.not_le.mp hfull
      exact iff_of_true ⟨b, by simp [appendScript]⟩ ⟨hroom, rfl⟩

theorem echo_mem_script (scan : UInt8) (t : Term) (k : Keyboard) :
    (∃ b, Action.echo b ∈ k.script scan t) ↔ k.EchoesKey scan := by
  unfold script EchoesKey
  cases keyOf scan with
  | enter => exact echo_mem_enterScript t k
  | backspace =>
    show (∃ b, Action.echo b ∈ k.backspaceScript) ↔ k.bufIdx > 0
    unfold backspaceScript
    by_cases hpos : k.bufIdx > 0 <;> simp [hpos]
  | space => simp [appendScript]
  | tab => exact echo_mem_tabScript 3 k
  | f u press =>
    show (∃ b, Action.echo b ∈ k.fScript press u) ↔ False
    unfold fScript
    cases press <;> by_cases halt : k.altInfo = true <;> simp [halt]
  | other =>
    dsimp only
    by_cases hctrl : k.ctrlState = true ∧ scan = lPress
    · rw [if_pos hctrl, if_pos hctrl]
      exact echo_mem_clearScript k
    · rw [if_neg hctrl, if_neg hctrl]
      exact echo_mem_typeScript scan k
  | _ => simp

end Keyboard

/-! ## The handler -/

namespace Console

def moments : Action → Console → List Video
  | .echo b, c => c.vid.keyboardputcMoments c.kb.bufIdx b
  | .clear, c => c.vid.clearMoments
  | .changing t, c => c.vid.terminalChangingMoments t
  | a, c => [(act a c).vid]

/-- The moments of `keyboard_handler` on a scancode. -/
def handlerMoments (scan : UInt8) (c : Console) : List Video :=
  (calls act (.cli :: c.kb.script scan c.vid.currentTerminal) c).flatMap fun p => moments p.2 p.1

/-- The displayed terminal is being read, and the key prints on it. -/
def Echoes (scan : UInt8) (c : Console) : Prop :=
  c.vid.termReadFlag c.vid.currentTerminal = true ∧ c.kb.EchoesKey scan

theorem moments_getLastD (a : Action) (c : Console) :
    (moments a c).getLastD c.vid = (act a c).vid := by
  cases a with
  | echo b =>
    show (c.vid.keyboardputcMoments c.kb.bufIdx b).getLastD c.vid
      = c.vid.keyboardputc c.kb.bufIdx b
    unfold Video.keyboardputcMoments Video.keyboardputc
    split <;> rfl
  | clear => rfl
  | changing t => rfl
  | _ => rfl

/-- The last moment of the handler is the state that it leaves. -/
theorem handlerMoments_getLastD (scan : UInt8) (c : Console) :
    (c.handlerMoments scan).getLastD c.vid = (c.keyboardHandler scan).vid := by
  rw [keyboardHandler_eq]
  unfold handlerMoments
  generalize (Action.cli :: c.kb.script scan c.vid.currentTerminal) = l
  induction l generalizing c with
  | nil => rfl
  | cons a l ih =>
    rw [calls, List.flatMap_cons, perform, ← ih (act a c), ← moments_getLastD a c]
    simp only [List.getLastD_eq_getLast?, List.getLast?_append]
    cases (List.flatMap (fun p : Console × Action => moments p.2 p.1)
      (calls act l (act a c))).getLast? <;> rfl

/-- An action but for a switch leaves the terminals and the choice of pages. -/
theorem act_selection {a : Action} {c : Console} (hsteady : c.vid.Steady)
    (ha : a.Plain ∨ a = .clear) : (act a c).vid.selection = c.vid.selection := by
  cases a with
  | echo b => exact Video.keyboardputc_selection hsteady.process c.kb.bufIdx b
  | clear => exact Video.clear_selection c.vid
  | setPaging t => rcases ha with ha | ha <;> cases ha
  | changing t => rcases ha with ha | ha <;> cases ha
  | _ => rfl

theorem perform_selection {l : List Action} {c : Console} (hsteady : c.vid.Steady)
    (hl : ∀ a ∈ l, a.Plain ∨ a = .clear) :
    (perform act l c).vid.selection = c.vid.selection ∧
      ∀ p ∈ calls act l c, p.1.vid.selection = c.vid.selection := by
  have hstep : ∀ p ∈ calls act l c, p.1.vid.selection = c.vid.selection →
      (act p.2 p.1).vid.selection = c.vid.selection := by
    intro p hp hsel
    exact (act_selection (hsteady.of_selection hsel) (hl p.2 (mem_calls_snd act hp))).trans hsel
  exact ⟨perform_invariant (I := fun s : Console => s.vid.selection = c.vid.selection) hstep rfl,
    calls_invariant (I := fun s : Console => s.vid.selection = c.vid.selection) hstep rfl⟩

theorem moments_shielded {a : Action} {c : Console} (hsteady : c.vid.Steady) (ha : a.Plain)
    (hquiet : ∀ b, a = .echo b → ¬ c.vid.termReadFlag c.vid.currentTerminal = true) :
    ∀ v ∈ moments a c, v.Shielded := by
  intro v hv
  have hsel := act_selection hsteady (Or.inl ha)
  cases a with
  | echo b =>
    have hnone : c.vid.keyboardputcMoments c.kb.bufIdx b = [] := if_neg (hquiet b rfl)
    rw [moments, hnone] at hv
    cases hv
  | clear => exact ha.elim
  | setPaging t => exact ha.elim
  | changing t => exact ha.elim
  | _ =>
    rw [List.mem_singleton.mp hv]
    exact (hsteady.of_selection hsel).shielded

/-- Plain actions that do not echo on a screen that is read. -/
theorem calls_shielded {l : List Action} {c : Console} (hsteady : c.vid.Steady)
    (hl : ∀ a ∈ l, a.Plain)
    (hquiet : ∀ b, Action.echo b ∈ l → ¬ c.vid.termReadFlag c.vid.currentTerminal = true) :
    ∀ v ∈ (calls act l c).flatMap fun p => moments p.2 p.1, v.Shielded := by
  intro v hv
  obtain ⟨p, hp, hv⟩ := List.mem_flatMap.mp hv
  have hmem := mem_calls_snd act hp
  have hsel := (perform_selection hsteady fun a ha => Or.inl (hl a ha)).2 p hp
  have hread : p.1.vid.termReadFlag p.1.vid.currentTerminal
      = c.vid.termReadFlag c.vid.currentTerminal := by
    rw [show p.1.vid.termReadFlag = c.vid.termReadFlag from
        congrArg Video.Selection.termReadFlag hsel,
      show p.1.vid.currentTerminal = c.vid.currentTerminal from
        congrArg Video.Selection.currentTerminal hsel]
  refine moments_shielded (hsteady.of_selection hsel) (hl p.2 hmem) (fun b hb => ?_) v hv
  rw [hread]
  exact hquiet b (hb ▸ hmem)

theorem switch_shielded {scan : UInt8} {c : Console} {u : Term} (hsteady : c.vid.Steady)
    (h : switches scan c.kb = some u) : ∀ v ∈ c.handlerMoments scan, v.Shielded := by
  have hclosed : ∀ t w, ((c.vid.cli.setPagingScheduling t).terminalChanging w).interruptFlag
      = false := by
    intro t w
    rw [Video.terminalChanging_interruptFlag, Video.setPagingScheduling_interruptFlag]
    rfl
  have hmapped : (Video.terminalChanging u
      { c.vid.cli.setPagingScheduling u with pageTable := videoFrame }).interruptFlag = false := by
    rw [Video.terminalChanging_interruptFlag]
    exact Video.setPagingScheduling_interruptFlag u c.vid.cli
  have hswitched : ((c.vid.cli.setPagingScheduling u).terminalChanging u).Steady :=
    Video.steady_switch (v := c.vid.cli) hsteady.process u
  intro v hv
  unfold handlerMoments at hv
  rw [Keyboard.script_switch h] at hv
  simp only [calls, List.flatMap_cons, List.flatMap_nil, moments, act,
    Video.terminalChangingMoments, List.mem_append, List.mem_cons, List.not_mem_nil, or_false] at hv
  rcases hv with rfl | rfl | rfl | (rfl | rfl | rfl) | rfl | rfl
  · exact Video.shielded_of_closed rfl
  · exact Video.shielded_of_closed rfl
  · exact Video.shielded_of_closed (Video.setPagingScheduling_interruptFlag u c.vid.cli)
  · exact Video.shielded_of_closed (Video.setPagingScheduling_interruptFlag u c.vid.cli)
  · exact Video.shielded_of_closed hmapped
  · exact Video.shielded_of_closed (hclosed u u)
  · exact Video.shielded_of_closed (hclosed u u)
  · have hsti : ((c.vid.cli.setPagingScheduling u).terminalChanging u).sti.Steady :=
      hswitched.of_selection rfl
    exact hsti.shielded

theorem quiet_shielded {scan : UInt8} {c : Console} (hsteady : c.vid.Steady)
    (hquiet : ¬ c.Echoes scan) : ∀ v ∈ c.handlerMoments scan, v.Shielded := by
  have hscript : ∀ b, Action.echo b ∈ c.kb.script scan c.vid.currentTerminal →
      ¬ c.vid.termReadFlag c.vid.currentTerminal = true :=
    fun b hb hread => hquiet ⟨hread, (Keyboard.echo_mem_script _ _ _).mp ⟨b, hb⟩⟩
  have hcli : c.cli.vid.Steady := ⟨hsteady.process, hsteady.kernel⟩
  cases hs : switches scan c.kb with
  | some u => exact switch_shielded hsteady hs
  | none =>
    intro v hv
    unfold handlerMoments at hv
    rw [calls, List.flatMap_cons] at hv
    rcases List.mem_append.mp hv with hv | hv
    · rw [List.mem_singleton.mp hv]
      exact Video.shielded_of_closed rfl
    · rcases Keyboard.script_plain hs c.vid.currentTerminal with hplain | ⟨l, hl, hplain⟩
      · exact calls_shielded hcli hplain hscript v hv
      · rw [hl] at hv hscript
        rw [calls, List.flatMap_cons] at hv
        rcases List.mem_append.mp hv with hv | hv
        · exact hcli.clearMoments rfl v hv
        · have hsel : c.cli.clear.vid.selection = c.cli.vid.selection :=
            Video.clear_selection c.cli.vid
          refine calls_shielded (c := c.cli.clear) (hcli.of_selection hsel) hplain
            (fun b hb => ?_) v hv
          rw [show c.cli.clear.vid.termReadFlag = c.vid.termReadFlag from
              congrArg Video.Selection.termReadFlag hsel,
            show c.cli.clear.vid.currentTerminal = c.vid.currentTerminal from
              congrArg Video.Selection.currentTerminal hsel]
          exact hscript b (List.mem_cons_of_mem _ hb)

theorem handler_plain {scan : UInt8} {c : Console} (hs : switches scan c.kb = none) :
    ∀ a ∈ Action.cli :: c.kb.script scan c.vid.currentTerminal, a.Plain ∨ a = .clear := by
  intro a ha
  rcases List.mem_cons.mp ha with rfl | ha
  · exact Or.inl trivial
  · rcases Keyboard.script_plain hs c.vid.currentTerminal with hall | ⟨l, hl, hall⟩
    · exact Or.inl (hall a ha)
    · rw [hl] at ha
      rcases List.mem_cons.mp ha with rfl | ha
      · exact Or.inr rfl
      · exact Or.inl (hall a ha)

/-- The first echo opens the section. -/
theorem echoes_open {scan : UInt8} {c : Console} (hsteady : c.vid.Steady) (h : c.Echoes scan) :
    ∃ v ∈ c.handlerMoments scan, ¬ v.Shielded := by
  obtain ⟨hread, hkey⟩ := h
  obtain ⟨b, hb⟩ := (Keyboard.echo_mem_script scan c.vid.currentTerminal c.kb).mpr hkey
  have hs : switches scan c.kb = none := by
    cases hs : switches scan c.kb with
    | none => rfl
    | some u =>
      rw [Keyboard.script_switch hs] at hb
      simp at hb
  have hplain := handler_plain hs
  obtain ⟨d, hd⟩ := exists_call act (List.mem_cons_of_mem Action.cli hb) c
  have hsel := (perform_selection hsteady hplain).2 _ hd
  have hread' : d.vid.termReadFlag d.vid.currentTerminal = true := by
    rw [show d.vid.termReadFlag = c.vid.termReadFlag from
        congrArg Video.Selection.termReadFlag hsel,
      show d.vid.currentTerminal = c.vid.currentTerminal from
        congrArg Video.Selection.currentTerminal hsel]
    exact hread
  obtain ⟨v, hv, hopen⟩ := Video.exists_not_shielded hread' d.kb.bufIdx b
  exact ⟨v, List.mem_flatMap.mpr ⟨_, hd, hv⟩, hopen⟩

/-! ## Runs -/

theorem keyboardHandler_steady {c : Console} (h : c.vid.Steady) (scan : UInt8) :
    (c.keyboardHandler scan).vid.Steady := by
  cases hs : switches scan c.kb with
  | some u =>
    have hswitched := Video.steady_switch (v := c.vid.cli) h.process u
    rw [(keyboardHandler_switch hs).1]
    exact hswitched.of_selection rfl
  | none =>
    rw [keyboardHandler_eq]
    exact h.of_selection (perform_selection h (handler_plain hs)).1

theorem consoleStep_steady {c : Console} (h : c.vid.Steady) (s : ConsoleStep) :
    (consoleStep s c).vid.Steady := by
  cases s with
  | key scan => exact keyboardHandler_steady h scan
  | write b => exact h.of_selection (Video.putc_selection _ _ _)
  | tick => exact Video.steady_schedule (v := { c.vid with
      scheduledTerm := c.vid.scheduledTerm + 1 }) h.process
  | reading on => exact ⟨h.process, h.kernel⟩

/-- The console after some steps of the keyboard, the processes and the timer. -/
def ran (mem : Bytes) (steps : List ConsoleStep) : Console := perform consoleStep steps (booted mem)

theorem ran_steady (mem : Bytes) (steps : List ConsoleStep) : (ran mem steps).vid.Steady :=
  perform_invariant (I := fun c : Console => c.vid.Steady)
    (fun p _ h => consoleStep_steady h p.2) (booted_mapped mem).steady

/-- The handler keeps the echo's flag and mapping from interrupts exactly when the
key does not echo. -/
theorem handlerMoments_shielded_iff (mem : Bytes) (steps : List ConsoleStep) (scan : UInt8) :
    (∀ v ∈ (ran mem steps).handlerMoments scan, v.Shielded) ↔ ¬ (ran mem steps).Echoes scan := by
  have hsteady := ran_steady mem steps
  constructor
  · intro h hecho
    obtain ⟨v, hv, hopen⟩ := echoes_open hsteady hecho
    exact hopen (h v hv)
  · exact quiet_shielded hsteady

theorem setReadFlag_displayed {c : Console} (h : c.vid.scheduledTerm = c.vid.currentTerminal) :
    (c.setReadFlag true).vid.termReadFlag (c.setReadFlag true).vid.currentTerminal = true := by
  unfold setReadFlag
  dsimp only
  rw [h, Function.update_self]

theorem ran_reading (mem : Bytes) : (ran mem [.reading true]).vid.termReadFlag
    (ran mem [.reading true]).vid.currentTerminal = true := by
  have hrun : ran mem [.reading true] = (booted mem).setReadFlag true := by
    unfold ran perform
    rfl
  rw [hrun]
  exact setReadFlag_displayed ((booted_scheduledTerm mem).trans (booted_currentTerminal mem).symm)

/-- A space typed while a process of the first terminal reads. -/
theorem handlerMoments_open_space : ¬ ∀ v ∈ (ran (Bytes.ofList [])
    [.reading true]).handlerMoments spacePush, v.Shielded := by
  intro h
  have hecho : (ran (Bytes.ofList []) [.reading true]).Echoes spacePush :=
    ⟨ran_reading (Bytes.ofList []), trivial⟩
  obtain ⟨v, hv, hopen⟩ := echoes_open (ran_steady _ _) hecho
  exact hopen (h v hv)

end Console

end StudentDistrib
