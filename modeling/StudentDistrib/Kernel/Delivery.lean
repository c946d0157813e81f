import StudentDistrib.Console.Delivery
import StudentDistrib.Kernel.BaseShells

/-!
# Lines delivered to the terminals

The history of the committed lines over the steps of the machine.  Only keys, reads,
halts, the closing of a descriptor on the terminal and the timer during the boot move a
line.  A read of terminal `t` returns the line that the displayed terminal's `term_buf`
holds, so the line entered on `t` is delivered exactly where that is the one.
-/

namespace StudentDistrib

open Machine

namespace Kernel

variable {k k' : Kernel} {h : LineHistory}

/-! ## Steps that move no line -/

/-- The keyboard's globals and the display are left alone. -/
structure SameKeys (c c' : Console) : Prop where
  kb : c'.kb = c.kb
  display : c'.vid.currentTerminal = c.vid.currentTerminal

theorem SameKeys.refl (c : Console) : SameKeys c c := ⟨rfl, rfl⟩

theorem SameKeys.trans {c c' c'' : Console} (h : SameKeys c c') (h' : SameKeys c' c'') :
    SameKeys c c'' := ⟨h'.kb.trans h.kb, h'.display.trans h.display⟩

theorem SameKeys.tracks {c c' : Console} (hsame : SameKeys c c') (hc : c.TracksLines h) :
    c'.TracksLines h := by
  unfold Console.TracksLines
  rw [hsame.kb, hsame.display]
  exact hc

theorem read_sameKeys (fd nbytes : Int) (k : Kernel) : SameKeys k.con (k.read fd nbytes).1.con := by
  have hfile : ∀ k : Kernel, SameKeys k.con (k.readFile fd nbytes).1.con := by
    intro k
    unfold readFile
    dsimp only
    split
    · split <;> exact .refl _
    · exact .refl _
  have hdirectory : ∀ k : Kernel, SameKeys k.con (k.readDirectory fd).1.con := by
    intro k
    unfold readDirectory
    dsimp only
    split
    · split <;> exact .refl _
    · exact .refl _
  have hterminal : ∀ k : Kernel, SameKeys k.con (k.readTerminal nbytes).1.con := by
    intro k
    unfold readTerminal Console.terminalReadBegin
    by_cases hclamp : Console.clampRead nbytes ≤ 0
    · rw [if_pos hclamp]
      exact .refl _
    · rw [if_neg hclamp]
      exact ⟨rfl, rfl⟩
  have hstart : SameKeys k.con k.sti.setCurrPcb.con := ⟨rfl, rfl⟩
  unfold read
  split
  · exact .refl _
  · split
    · exact .refl _
    · dsimp only
      split
      · split
        · exact hstart.trans (hterminal _)
        · exact hstart
        · exact hstart.trans (hdirectory _)
        · exact hstart.trans (hfile _)
        · exact hstart
      · exact hstart

theorem write_sameKeys (fd : Int) (buf : List UInt8) (k : Kernel) :
    SameKeys k.con (k.write fd buf).1.con := by
  have hterminal : ∀ c : Console, SameKeys c (c.terminalWrite buf).1 := by
    intro c
    unfold Console.terminalWrite
    split
    · exact .refl c
    · exact ⟨rfl, congrArg Video.Selection.currentTerminal (Video.printf_selection _ _ _)⟩
  have hputc : ∀ (i : Int) (v : Video),
      (v.putc i newline).currentTerminal = v.currentTerminal := fun i v =>
    congrArg Video.Selection.currentTerminal (Video.putc_selection i newline v)
  have hstart : SameKeys k.con k.sti.setCurrPcb.con := ⟨rfl, rfl⟩
  unfold write
  dsimp only
  split
  · exact hstart
  · split
    · split
      · exact hstart.trans (hterminal _)
      · exact hstart
      · exact hstart
    · exact hstart.trans ⟨rfl, hputc k.con.kb.bufIdx k.con.vid⟩

theorem openFile_sameKeys (fname : Bytes) (garbage : Image.Dentry) (k : Kernel) :
    SameKeys k.con (k.openFile fname garbage).1.con := by
  unfold openFile
  split
  · exact .refl _
  · dsimp only
    split
    · exact .refl _
    · split <;> exact .refl _

theorem vidmap_sameKeys (screenStart : Int) (k : Kernel) :
    SameKeys k.con (k.vidmap screenStart).1.con := by
  unfold vidmap
  split
  · exact .refl _
  · split
    · exact .refl _
    · exact ⟨rfl, rfl⟩

theorem resume_con (k : Kernel) : k.resume.con =
    if k.tab.doneInstantiating = true then k.con else k.con.display 2 0 := by
  unfold resume
  dsimp only
  split <;> rfl

/-! ## Steps that wipe `term_buf` -/

/-- The halt of a process closes a descriptor on the terminal. -/
def closesTerminal (pcb : PCB) : Bool :=
  (haltCloses pcb).any fun fd => decide ((pcb.fdArray fd).jumpTable = some .terminal)

/-- The call closes a descriptor on the terminal. -/
def ClosesTerminalFile (k : Kernel) (fd : Int) : Prop :=
  ¬ (fd < 2 ∨ fd > 7 ∨ (k.callerPcb.fdArray fd).flags = empty) ∧
    (k.callerPcb.fdArray fd).jumpTable = some .terminal

instance (k : Kernel) (fd : Int) : Decidable (k.ClosesTerminalFile fd) :=
  inferInstanceAs (Decidable (_ ∧ _))

theorem terminalClose_idem (c : Console) : c.terminalClose.terminalClose = c.terminalClose := by
  have hzero : ∀ b : Bytes, Bytes.zero bufsize (Bytes.zero bufsize b) = Bytes.zero bufsize b := by
    intro b
    funext i
    unfold Bytes.zero
    split <;> rfl
  show { c with kb := { c.kb with
      termBuf := Bytes.zero bufsize (Bytes.zero bufsize c.kb.termBuf) } } = c.terminalClose
  rw [hzero]
  rfl

theorem closes_eq (pcb : PCB) (fds : List Int) (con : Console) :
    fds.foldl (fun con fd => closeFunc (pcb.fdArray fd).jumpTable con) con
      = if fds.any fun fd => decide ((pcb.fdArray fd).jumpTable = some .terminal) then
          con.terminalClose else con := by
  induction fds generalizing con with
  | nil => rfl
  | cons fd fds ih =>
    rw [List.foldl_cons, ih, List.any_cons]
    unfold closeFunc
    by_cases hfd : (pcb.fdArray fd).jumpTable = some .terminal
    · rw [if_pos hfd, decide_eq_true hfd, Bool.true_or, if_pos rfl, terminalClose_idem, ite_self]
    · rw [if_neg hfd, decide_eq_false hfd, Bool.false_or]

theorem halt_con (k : Kernel) : k.halt.con =
    if isBase k.currPid = false ∧ closesTerminal k.callerPcb = true then
      k.clearEnter.con.terminalClose else k.clearEnter.con := by
  unfold halt
  dsimp only
  have hcurr : k.clearEnter.setCurrPcb.currPid = k.currPid := rfl
  have hpcb : k.clearEnter.setCurrPcb.callerPcb = k.callerPcb := rfl
  rw [hcurr, hpcb]
  cases hbase : isBase k.currPid with
  | true =>
    rw [if_pos rfl, if_neg fun e => absurd e.1 (by decide)]
    rfl
  | false =>
    rw [if_neg (by decide)]
    show (haltCloses k.callerPcb).foldl _ k.clearEnter.con = _
    rw [closes_eq]
    unfold closesTerminal
    split
    · rename_i hcloses
      rw [if_pos ⟨rfl, hcloses⟩]
    · rename_i hcloses
      rw [if_neg fun e => hcloses e.2]

theorem closeFile_con (fd : Int) (k : Kernel) : (k.closeFile fd).1.con =
    if k.ClosesTerminalFile fd then k.con.terminalClose else k.con := by
  have hpcb : k.setCurrPcb.callerPcb = k.callerPcb := rfl
  unfold closeFile
  dsimp only
  rw [hpcb]
  by_cases hbad : fd < 2 ∨ fd > 7 ∨ (k.callerPcb.fdArray fd).flags = empty
  · have hcloses : ¬ k.ClosesTerminalFile fd := fun e => e.1 hbad
    rw [if_pos hbad, if_neg hcloses]
    rfl
  · rw [if_neg hbad]
    show closeFunc (k.callerPcb.fdArray fd).jumpTable k.con = _
    unfold closeFunc
    by_cases hdriver : (k.callerPcb.fdArray fd).jumpTable = some .terminal
    · have hcloses : k.ClosesTerminalFile fd := ⟨hbad, hdriver⟩
      rw [if_pos hdriver, if_pos hcloses]
    · have hcloses : ¬ k.ClosesTerminalFile fd := fun e => hdriver e.2
      rw [if_neg hdriver, if_neg hcloses]

/-! ## The history over the steps -/

/-- The history after a halt. -/
def noteHalt (k : Kernel) (h : LineHistory) : LineHistory :=
  if isBase k.currPid = false ∧ closesTerminal k.callerPcb = true then
    (h.drop k.scheduledTerm).wipe k.con.vid.currentTerminal
  else h.drop k.scheduledTerm

/-- The history after a step.  A call of `execute` that page-faults ends in a halt. -/
def noteLines (k : Kernel) (e : Event) (_ : Kernel) (h : LineHistory) : LineHistory :=
  match e with
  | .key scan => k.con.noteKey scan h
  | .readDone _ => h.drop k.scheduledTerm
  | .execute call r =>
    if (k.execute call r).2 = .faults then (k.execute call r).1.noteHalt h else h
  | .halt _ => k.noteHalt h
  | .closeFile fd => if k.ClosesTerminalFile fd then h.wipe k.con.vid.currentTerminal else h
  | _ => h

/-- A key minds the lines, and so does a timer interrupt that switches the display during
the boot: it finds the terminal that it takes for the displayed one. -/
def MindsLines (k : Kernel) : Event → Prop
  | .key scan => k.con.Minds scan
  | .tick r =>
    if (k.preempted r).WaitsForShell then k.con.kb.currTerm = k.con.vid.currentTerminal
    else k.tab.doneInstantiating = true ∨ k.con.vid.currentTerminal = 2
  | _ => True

theorem halt_tracksLines (hc : k.con.TracksLines h) : k.halt.con.TracksLines (k.noteHalt h) := by
  have hdrop : k.clearEnter.con.TracksLines (h.drop k.scheduledTerm) := hc.drop k.scheduledTerm
  unfold noteHalt
  rw [halt_con]
  by_cases hcloses : isBase k.currPid = false ∧ closesTerminal k.callerPcb = true
  · rw [if_pos hcloses, if_pos hcloses]
    exact hdrop.wipe
  · rw [if_neg hcloses, if_neg hcloses]
    exact hdrop

/-- The message of a page fault does not matter to the halt. -/
theorem reportFault_noteHalt (k : Kernel) (h : LineHistory) :
    k.reportFault.noteHalt h = k.noteHalt h := by
  obtain ⟨vid, hk, hvid⟩ := reportFault_eq k
  have hsched : vid.scheduledTerm = k.con.vid.scheduledTerm :=
    congrArg Video.Selection.scheduledTerm hvid
  have hterm : vid.currentTerminal = k.con.vid.currentTerminal :=
    congrArg Video.Selection.currentTerminal hvid
  rw [hk]
  unfold noteHalt callerPcb currPid scheduledTerm
  dsimp only
  rw [hsched, hterm]

theorem closeFile_tracksLines (hc : k.con.TracksLines h) (fd : Int) :
    (k.closeFile fd).1.con.TracksLines (noteLines k (.closeFile fd) (k.closeFile fd).1 h) := by
  unfold noteLines
  dsimp only
  rw [closeFile_con]
  by_cases hcloses : k.ClosesTerminalFile fd
  · rw [if_pos hcloses, if_pos hcloses]
    exact hc.wipe
  · rw [if_neg hcloses, if_neg hcloses]
    exact hc

/-- A call of `execute` that does not fault moves no line. -/
theorem execute_sameKeys {call : ExecCall} {r : Regs}
    (hcall : unlessFaults (k.execute call r) = some k') : SameKeys k.con k'.con := by
  rcases execute_unlessFaults hcall with ⟨p, image, -, hk⟩ | hrefused
  · rw [hk]
    exact ⟨launched_kb call p image r k, launched_currentTerminal call p image r k⟩
  · exact ⟨hrefused.kb, hrefused.currentTerminal⟩

theorem execute_tracksLines (hc : k.con.TracksLines h) {call : ExecCall} {r : Regs}
    (hstep : k.step (.execute call r) = some k') :
    k'.con.TracksLines (noteLines k (.execute call r) k' h) := by
  unfold noteLines
  dsimp only
  by_cases hfaults : (k.execute call r).2 = .faults
  · obtain ⟨p, image, hover⟩ := execute_eq_faults hfaults
    have hsame : SameKeys k.con (k.faulted call p image).con :=
      ⟨faulted_kb call p image k, faulted_currentTerminal call p image k⟩
    have hhalt := halt_tracksLines (hsame.tracks hc)
    have hnote := reportFault_noteHalt (k.overrun call p image) h
    rw [if_pos hfaults, execute_overruns hover, hover.step_eq hstep, ← hnote]
    exact hhalt
  · rw [if_neg hfaults]
    exact (execute_sameKeys (unlessFaults_of_step hfaults hstep)).tracks hc

theorem tick_tracksLines (hc : k.con.TracksLines h) {r : Regs} (hminds : k.MindsLines (.tick r))
    (hstep : k.pitHandler r = some k') : k'.con.TracksLines h := by
  have hnext : k.con.nextTerminal.vid.currentTerminal = k.con.vid.currentTerminal :=
    Console.nextTerminal_currentTerminal k.con
  have hsame : SameKeys k.con k.con.nextTerminal := ⟨rfl, hnext⟩
  have hlines := hsame.tracks hc
  unfold MindsLines at hminds
  dsimp only at hminds
  by_cases hwaits : (k.preempted r).WaitsForShell
  · -- The timer displays the terminal before it starts its shell.
    rw [if_pos hwaits] at hminds
    rw [pitHandler_shell hwaits] at hstep
    refine (execute_sameKeys hstep).tracks ?_
    rw [shellReady_con, preempted_con]
    exact hlines.startScreen (hminds.trans hnext.symm) _
  · rw [if_neg hwaits] at hminds
    rw [pitHandler_resume hwaits, Option.some.injEq] at hstep
    rw [← hstep, resume_con]
    have hdone : (k.preempted r).tab.doneInstantiating = k.tab.doneInstantiating := rfl
    rw [preempted_con, hdone]
    split
    · exact hlines
    · rename_i hnot
      have htwo : (2 : Term) = k.con.nextTerminal.vid.currentTerminal := by
        rw [hnext]
        exact (hminds.resolve_left hnot).symm
      exact hlines.display htwo 0

theorem step_tracksLines (hc : k.con.TracksLines h) {e : Event} (he : k.MindsLines e)
    (hstep : k.step e = some k') : k'.con.TracksLines (noteLines k e k' h) := by
  cases e with
  | key scan =>
    cases hstep
    exact hc.key he
  | tick r => exact tick_tracksLines hc he hstep
  | rtc =>
    cases hstep
    exact hc
  | execute call r => exact execute_tracksLines hc hstep
  | halt status =>
    cases hstep
    exact halt_tracksLines hc
  | read fd nbytes =>
    cases hstep
    exact (read_sameKeys fd nbytes k).tracks hc
  | readDone nbytes =>
    unfold Kernel.step at hstep
    dsimp only at hstep
    obtain ⟨⟨con, result⟩, hcon, rfl⟩ := Option.map_eq_some_iff.mp hstep
    unfold Console.terminalReadFinish at hcon
    split at hcon
    · cases hcon
      exact hc.drop k.scheduledTerm
    · cases hcon
  | write fd buf =>
    cases hstep
    exact (write_sameKeys fd buf k).tracks hc
  | openFile fname garbage =>
    cases hstep
    exact (openFile_sameKeys fname garbage k).tracks hc
  | closeFile fd =>
    cases hstep
    exact closeFile_tracksLines hc fd
  | getargs nbytes =>
    cases hstep
    exact hc
  | vidmap screenStart =>
    cases hstep
    exact (vidmap_sameKeys screenStart k).tracks hc
  | vidmapStore offset b =>
    cases hstep
    exact hc

/-! ## Runs -/

/-- The runs of the machine, with the history of the lines. -/
def Tracked (k₀ : Kernel) (s : Kernel × LineHistory) : Prop :=
  Reaches (observe step noteLines) (fun s e => s.1.MindsLines e) (k₀, .start) s

theorem reaches_iff_tracked {k₀ : Kernel} :
    Reaches step MindsLines k₀ k ↔ ∃ h, Tracked k₀ (k, h) :=
  reaches_iff_watched LineHistory.start

theorem Tracked.tracksLines {ram : Ram} {img : Image} {k₀ : Kernel}
    (hentry : entry ram img = some k₀) (hrun : Tracked k₀ (k, h)) : k.con.TracksLines h := by
  obtain ⟨-, hkb, hsel⟩ := entry_booting hentry
  have hsame : SameKeys (Console.init ram.mem) k₀.con :=
    ⟨hkb, congrArg Video.Selection.currentTerminal hsel⟩
  have hstart : k₀.con.TracksLines .start := hsame.tracks (Console.init_tracksLines ram.mem)
  refine hrun.invariant (I := fun s => s.1.con.TracksLines s.2) ?_ hstart
  rintro s e s' hs he hstep
  obtain ⟨hk, hnote⟩ := observe_eq_some.mp hstep
  rw [hnote]
  exact step_tracksLines hs he hk

theorem Tracked.tick {k₀ : Kernel} {r : Regs} (hrun : Tracked k₀ (k, h))
    (hminds : k.MindsLines (.tick r)) (hstep : k.pitHandler r = some k') : Tracked k₀ (k', h) :=
  Reaches.step (e := .tick r) hrun hminds (observe_eq_some.mpr ⟨hstep, rfl⟩)

/-- The boot minds the lines if no key is pressed before its end. -/
theorem boot_tracked {ram : Ram} {img : Image} {r₁ r₂ r₃ : Regs}
    (hboot : boot ram img r₁ r₂ r₃ = some k) :
    ∃ k₀, entry ram img = some k₀ ∧ Tracked k₀ (k, .start) := by
  unfold boot at hboot
  obtain ⟨k₂, hboot₂, htick₃⟩ := Option.bind_eq_some_iff.mp hboot
  obtain ⟨k₁, hboot₁, htick₂⟩ := Option.bind_eq_some_iff.mp hboot₂
  obtain ⟨k₀, hentry, htick₁⟩ := Option.bind_eq_some_iff.mp hboot₁
  obtain ⟨hbooting₀, hkb₀, hsel₀⟩ := entry_booting hentry
  obtain ⟨j₁, hj₁, hbooting₁, hkb₁, hterm₁⟩ := hbooting₀.tick (m := 1) rfl (Or.inl rfl) r₁
  cases hj₁.symm.trans htick₁
  obtain ⟨j₂, hj₂, hbooting₂, -, hterm₂⟩ := hbooting₁.tick (m := 2) rfl (Or.inr rfl) r₂
  cases hj₂.symm.trans htick₂
  have hminds₁ : k₀.MindsLines (.tick r₁) := by
    unfold MindsLines
    dsimp only
    have hterm₀ : k₀.con.vid.currentTerminal = 0 :=
      (congrArg Video.Selection.currentTerminal hsel₀).trans (Video.init_currentTerminal ram.mem)
    rw [if_pos (hbooting₀.waits rfl (Or.inl rfl) r₁).2, hkb₀, hterm₀]
    rfl
  have hminds₂ : k₁.MindsLines (.tick r₂) := by
    unfold MindsLines
    dsimp only
    rw [if_pos (hbooting₁.waits rfl (Or.inr rfl) r₂).2, hkb₁, hterm₁]
    unfold Console.startScreen
    rw [Console.clear_kb]
    rfl
  have hminds₃ : k₂.MindsLines (.tick r₃) := by
    have hup : k₂.ShellsUp := hbooting₂.shellsUp_iff.mpr rfl
    unfold MindsLines
    dsimp only
    rw [if_neg (not_waitsForShell hup r₃)]
    exact Or.inr hterm₂
  have hrun₁ : Tracked k₀ (k₁, .start) := Tracked.tick .refl hminds₁ htick₁
  exact ⟨k₀, hentry, (hrun₁.tick hminds₂ htick₂).tick hminds₃ htick₃⟩

theorem Tracked.key {k₀ : Kernel} {c c' : Console} {scan : UInt8}
    (hrun : Tracked k₀ ({ k with con := c }, h)) (hhandler : c.keyboardHandler scan = c')
    (hminds : c.Minds scan) : Tracked k₀ ({ k with con := c' }, c.noteKey scan h) :=
  Reaches.step (e := .key scan) hrun hminds (observe_eq_some.mpr ⟨step_key hhandler, rfl⟩)

/-- A terminal whose line `w` was entered and not read yet can read, and the read
returns `w` with its line break exactly where the terminal displayed at that moment
holds `w`. -/
theorem delivers_iff {ram : Ram} {img : Image} {k₀ : Kernel} (hentry : entry ram img = some k₀)
    (hrun : Tracked k₀ (k, h)) {w : List UInt8} (hunread : h.unread k.scheduledTerm = some w) :
    k.con.ReadReady ∧ (k.con.Delivers w ↔ h.held k.con.vid.currentTerminal = some w) := by
  have hlines := hrun.tracksLines hentry
  obtain ⟨hbreak, hlength⟩ := hlines.lines _ w hunread
  have hready := hlines.ready hunread
  exact ⟨hready, Console.delivers_iff_placed hready hlines.active hbreak hlength⟩

/-- The line `a`, entered on the first terminal after the boot. -/
theorem exists_entered : ∃ (k₀ k : Kernel) (c : Console), entry zeroRam shellImage = some k₀ ∧
    Tracked k₀ ({ k with con := c }, LineHistory.start.enter 0 [0x61]) ∧
    c.vid.currentTerminal = 0 ∧ c.vid.scheduledTerm = 0 ∧ c.kb.currTerm = 0 := by
  obtain ⟨-, k, -, hboot, -, -, hcon⟩ :=
    exists_baseShells KeepsTables keepsTables_boot zeroRam hasShell_shellImage shellBytes_fits
  obtain ⟨k₀, hentry, hrun⟩ := boot_tracked hboot
  obtain ⟨c₁, h₁⟩ : ∃ c₁, k.con.keyboardHandler 0x1E = c₁ := ⟨_, rfl⟩
  obtain ⟨c₂, h₂⟩ : ∃ c₂, c₁.keyboardHandler 0x1C = c₂ := ⟨_, rfl⟩
  have hkb : k.con.kb
      = ((((Keyboard.init.pick 1).changeLine.pick 2).changeLine).pick 0).changeLine :=
    hcon ▸ Console.booted_kb zeroRam.mem
  have hdisplay : k.con.vid.currentTerminal = 0 := hcon ▸ Console.booted_currentTerminal zeroRam.mem
  have hscheduled : k.con.vid.scheduledTerm = 0 := hcon ▸ Console.booted_scheduledTerm zeroRam.mem
  have hletter : keyOf 0x1E ≠ .enter := by decide
  have hterms₁ : c₁.terms = k.con.terms := h₁ ▸ Console.keyboardHandler_terms rfl
  have hterms₂ : c₂.terms = c₁.terms := h₂ ▸ Console.keyboardHandler_terms rfl
  have hdisplay₁ : c₁.vid.currentTerminal = 0 :=
    (congrArg Console.Terms.currentTerminal hterms₁).trans hdisplay
  have hkb₁ : c₁.kb = k.con.kb.press 0x1E 0 := by
    rw [← h₁, Console.keyboardHandler_kb, hdisplay]
  have hkb₂ : c₂.kb = (k.con.kb.press 0x1E 0).press 0x1C 0 := by
    rw [← h₂, Console.keyboardHandler_kb, hdisplay₁, hkb₁]
  have hline : c₁.kb.pendingLine = [0x61] := by
    rw [hkb₁, hkb]
    rfl
  have hidx : c₁.kb.bufIdx = 1 := by
    rw [hkb₁, hkb]
    rfl
  have hrun₁ : Tracked k₀ ({ k with con := c₁ }, .start) := by
    have hnote : k.con.noteKey 0x1E .start = .start := if_neg hletter
    exact hnote ▸ Tracked.key (c := k.con) hrun h₁ ⟨fun e => absurd e hletter, nofun⟩
  refine ⟨k₀, k, c₂, hentry, ?_, ?_, ?_, ?_⟩
  · have hminds : c₁.Minds 0x1C :=
      ⟨fun _ => by rw [hidx]; decide, nofun⟩
    have hnote : c₁.noteKey 0x1C .start = LineHistory.start.enter 0 [0x61] := by
      rw [← hline, ← hdisplay₁]
      rfl
    exact hnote ▸ hrun₁.key h₂ hminds
  · exact (congrArg Console.Terms.currentTerminal hterms₂).trans hdisplay₁
  · exact (congrArg Console.Terms.scheduledTerm (hterms₂.trans hterms₁)).trans hscheduled
  · rw [hkb₂, hkb]
    rfl

/-- The line `a`, read by the shell of the displayed terminal. -/
theorem line_delivered : ∃ k₀ k h, entry zeroRam shellImage = some k₀ ∧
    Tracked k₀ (k, h) ∧ k.con.ReadReady ∧ k.con.Delivers [0x61] := by
  obtain ⟨k₀, k, c, hentry, hrun, hdisplay, hscheduled, -⟩ := exists_entered
  have hunread : (LineHistory.start.enter 0 [0x61]).unread c.vid.scheduledTerm = some [0x61] := by
    rw [hscheduled]
    rfl
  have hheld : (LineHistory.start.enter 0 [0x61]).held c.vid.currentTerminal = some [0x61] := by
    rw [hdisplay]
    rfl
  obtain ⟨hready, hdelivers⟩ := delivers_iff hentry hrun hunread
  exact ⟨k₀, _, _, hentry, hrun, hready, hdelivers.mpr hheld⟩

/-- The line `a` entered on the first terminal, and the second displayed before the shell
of the first reads it. -/
theorem line_lost_on_switch : ∃ k₀ k h, entry zeroRam shellImage = some k₀ ∧
    Tracked k₀ (k, h) ∧ h.unread k.scheduledTerm = some [0x61] ∧ k.con.ReadReady ∧
    ¬ k.con.Delivers [0x61] := by
  obtain ⟨k₀, k, c, hentry, hrun, hdisplay, hscheduled, hchoice⟩ := exists_entered
  obtain ⟨c₁, h₁⟩ : ∃ c₁, c.keyboardHandler altPush = c₁ := ⟨_, rfl⟩
  obtain ⟨c₂, h₂⟩ : ∃ c₂, c₁.keyboardHandler (fPush 1) = c₂ := ⟨_, rfl⟩
  have hterms₁ : c₁.terms = c.terms := h₁ ▸ Console.keyboardHandler_terms rfl
  have hterms₂ := Console.terms_of_keys h₁ h₂
  have hnone : ∀ scan, keyOf scan ≠ .enter → ∀ (c : Console) (h : LineHistory),
      c.noteKey scan h = h := fun scan hk c h => if_neg hk
  have hrun₁ := hrun.key h₁ ⟨fun e => absurd e (by decide), nofun⟩
  have hrun₂ := hrun₁.key h₂ ⟨fun e => absurd e (by decide), fun t _ => ?_⟩
  · rw [hnone (fPush 1) (by decide), hnone altPush (by decide)] at hrun₂
    have hlines := hrun₂.tracksLines hentry
    have hdisplay₂ : c₂.vid.currentTerminal = 1 := congrArg Console.Terms.currentTerminal hterms₂
    have hscheduled₂ : c₂.vid.scheduledTerm = 0 :=
      (congrArg Console.Terms.scheduledTerm hterms₂).trans hscheduled
    have hunread : (LineHistory.start.enter 0 [0x61]).unread c₂.vid.scheduledTerm
        = some [0x61] := by
      rw [hscheduled₂]
      rfl
    have hready : c₂.ReadReady := hlines.ready hunread
    refine ⟨k₀, _, _, hentry, hrun₂, hunread, hready, fun hdelivers => ?_⟩
    have hheld := (Console.delivers_iff_placed hready hlines.active (by decide) (by decide)).mp
      hdelivers
    have hwiped : (LineHistory.start.enter 0 [0x61]).held c₂.vid.currentTerminal = none := by
      rw [hdisplay₂]
      rfl
    rw [hwiped] at hheld
    cases hheld
  · have hdisplay₁ : c₁.vid.currentTerminal = 0 :=
      (congrArg Console.Terms.currentTerminal hterms₁).trans hdisplay
    have hkb₁ : c₁.kb = c.kb.press altPush c.vid.currentTerminal := by
      rw [← h₁, Console.keyboardHandler_kb]
    rw [hdisplay₁, hkb₁]
    exact hchoice

end Kernel

end StudentDistrib
