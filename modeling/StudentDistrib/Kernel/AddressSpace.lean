import StudentDistrib.Console.EchoSection
import StudentDistrib.Kernel.Delivery
import StudentDistrib.Kernel.Paging
import StudentDistrib.Kernel.Switch

/-!
# Address spaces over the runs of the kernel

The kernel beside the words of its page tables: each step assigns the three addresses
that the kernel's globals have after it.  In every run the tables hold those frames, so
that the walk gives the address space in closed form.  A user program reaches the page
of a process and the screen page of the scheduled terminal, and nothing else.
-/

namespace StudentDistrib

open Machine

/-! ## The mappings of video memory -/

namespace Video

/-- Both mappings name the logical page of the scheduled terminal. -/
structure OwnPages (v : Video) : Prop where
  kernel : v.pageTable = v.logicalFrame v.scheduledTerm
  user : v.videoPageTable = v.logicalFrame v.scheduledTerm
  process : v.keyboardPutCFlag = false

theorem OwnPages.steady {v : Video} (h : v.OwnPages) : v.Steady := ⟨h.process, h.kernel⟩

theorem OwnPages.of_eq {v v' : Video} (h : v.OwnPages) (hpage : v'.pageTable = v.pageTable)
    (hvideo : v'.videoPageTable = v.videoPageTable) (hflag : v'.keyboardPutCFlag = v.keyboardPutCFlag)
    (hsched : v'.scheduledTerm = v.scheduledTerm) (hcurr : v'.currentTerminal = v.currentTerminal) :
    v'.OwnPages := by
  have hframe : v'.logicalFrame v'.scheduledTerm = v.logicalFrame v.scheduledTerm := by
    simp only [logicalFrame, hsched, hcurr]
  exact
    { kernel := by rw [hpage, hframe, h.kernel]
      user := by rw [hvideo, hframe, h.user]
      process := by rw [hflag, h.process] }

theorem OwnPages.of_selection {v v' : Video} (h : v.OwnPages) (hsel : v'.selection = v.selection) :
    v'.OwnPages :=
  h.of_eq (congrArg Selection.pageTable hsel) (congrArg Selection.videoPageTable hsel)
    (congrArg Selection.keyboardPutCFlag hsel) (congrArg Selection.scheduledTerm hsel)
    (congrArg Selection.currentTerminal hsel)

/-- `set_paging_scheduling` for the displayed terminal maps both pages. -/
theorem setPagingScheduling_ownPages {v : Video} (hprocess : v.keyboardPutCFlag = false) :
    (v.setPagingScheduling v.currentTerminal).OwnPages := by
  unfold setPagingScheduling
  by_cases hshown : v.scheduledTerm = v.currentTerminal
  · rw [if_pos hshown]
    have hframe : videoFrame = if v.scheduledTerm = v.currentTerminal then videoFrame
        else saveFrame v.scheduledTerm := (if_pos hshown).symm
    exact ⟨hframe, hframe, hprocess⟩
  · rw [if_neg hshown]
    have hframe : saveFrame v.scheduledTerm = if v.scheduledTerm = v.currentTerminal then videoFrame
        else saveFrame v.scheduledTerm := (if_neg hshown).symm
    exact ⟨hframe, hframe, hprocess⟩

/-- The display moved to terminal `t` after the pages are mapped for it. -/
theorem terminalChanging_ownPages {v : Video} (hprocess : v.keyboardPutCFlag = false) (t : Term) :
    ((v.setPagingScheduling t).terminalChanging t).OwnPages := by
  have hmapped : ({ v with currentTerminal := t }.setPagingScheduling t).OwnPages :=
    setPagingScheduling_ownPages hprocess
  unfold terminalChanging setPagingScheduling at *
  dsimp only at *
  split at hmapped
  · rename_i hshown
    rw [if_pos hshown]
    split
    · exact hmapped.of_eq rfl rfl rfl rfl rfl
    · rename_i hsame
      exact hmapped.of_eq rfl rfl rfl rfl (not_not.mp hsame).symm
  · rename_i hhidden
    rw [if_neg hhidden]
    split
    · exact hmapped.of_eq rfl rfl rfl rfl rfl
    · rename_i hsame
      exact hmapped.of_eq rfl rfl rfl rfl (not_not.mp hsame).symm

theorem vidmapPage_ownPages {v : Video} (h : v.OwnPages) : v.vidmapPage.OwnPages where
  kernel := h.kernel
  user := rfl
  process := h.process

end Video

namespace Console

variable {c : Console}

theorem ownPages_keyboardHandler (h : c.vid.OwnPages) (scan : UInt8) :
    (c.keyboardHandler scan).vid.OwnPages := by
  cases hs : switches scan c.kb with
  | some t =>
    rw [(keyboardHandler_switch hs).1]
    exact (Video.terminalChanging_ownPages (v := c.vid.cli) h.process t).of_selection
      (Video.sti_selection _)
  | none =>
    rw [keyboardHandler_eq]
    have hplain : ∀ a ∈ Action.cli :: c.kb.script scan c.vid.currentTerminal,
        a.Plain ∨ a = .clear := by
      intro a ha
      rcases List.mem_cons.mp ha with rfl | ha
      · exact Or.inl trivial
      · rcases Keyboard.script_plain hs c.vid.currentTerminal with hall | ⟨l, hl, hall⟩
        · exact Or.inl (hall a ha)
        · rw [hl] at ha
          rcases List.mem_cons.mp ha with rfl | ha
          · exact Or.inr rfl
          · exact Or.inl (hall a ha)
    exact h.of_selection (perform_selection h.steady hplain).1

theorem ownPages_nextTerminal (h : c.vid.OwnPages) : c.nextTerminal.vid.OwnPages :=
  Video.setPagingScheduling_ownPages
    (v := { c.vid with scheduledTerm := c.vid.scheduledTerm + 1 }) h.process

theorem ownPages_display (h : c.vid.OwnPages) (prev t : Term) : (c.display prev t).vid.OwnPages :=
  Video.terminalChanging_ownPages h.process t

theorem ownPages_startScreen (h : c.vid.OwnPages) (t : Term) : (c.startScreen t).vid.OwnPages :=
  (ownPages_display h c.kb.currTerm t).of_selection (Video.clear_selection _)

theorem ownPages_terminalWrite (h : c.vid.OwnPages) (buf : List UInt8) :
    (c.terminalWrite buf).1.vid.OwnPages := by
  unfold terminalWrite
  split
  · exact h
  · exact h.of_selection (Video.printf_selection _ _ _)

end Console

/-! ## The kernel's frames -/

namespace Kernel

variable {k k' : Kernel} {e : Event}

/-- Video memory is mapped for the scheduled terminal, and the program's page is that of
some process. -/
structure Framed (k : Kernel) : Prop where
  screen : k.con.vid.OwnPages
  program : ∃ p : Pid, k.tab.userPageAddress = (mb8 + mb4 * p) / 2 ^ 22

theorem Framed.of_core (h : k.Framed) (hscreen : k'.con.vid.OwnPages)
    (hcore : k'.core.userPageAddress = k.core.userPageAddress) : k'.Framed := by
  obtain ⟨p, hp⟩ := h.program
  exact ⟨hscreen, p, hcore.trans hp⟩

theorem Refused.ownPages {call : ExecCall} (h : k.Refused call k') (hscreen : k.con.vid.OwnPages) :
    k'.con.vid.OwnPages := hscreen.of_selection h.selection

theorem launched_page (call : ExecCall) (p : Pid) (image : List UInt8) (r : Regs) (k : Kernel) :
    (k.launched call p image r).tab.userPageAddress = (mb8 + mb4 * p) / 2 ^ 22 :=
  congrArg Core.userPageAddress (launched_core call p image r k)

theorem resume_framed (hscreen : k.con.vid.OwnPages) : k.resume.Framed := by
  refine ⟨?_, k.currPid, ?_⟩
  · rw [resume_con]
    split
    · exact hscreen
    · exact Console.ownPages_display hscreen 2 0
  · exact congrArg Core.userPageAddress (resume_core k)

theorem ownPages_read (h : k.con.vid.OwnPages) (fd nbytes : Int) :
    (k.read fd nbytes).1.con.vid.OwnPages := by
  have hstart : k.sti.setCurrPcb.con.vid.OwnPages := h.of_eq rfl rfl rfl rfl rfl
  have hterminal : ∀ k : Kernel, k.con.vid.OwnPages → (k.readTerminal nbytes).1.con.vid.OwnPages := by
    intro k h
    unfold readTerminal Console.terminalReadBegin
    by_cases hclamp : Console.clampRead nbytes ≤ 0
    · rw [if_pos hclamp]
      exact h
    · rw [if_neg hclamp]
      exact h.of_eq rfl rfl rfl rfl rfl
  have hfile : ∀ k : Kernel, (k.readFile fd nbytes).1.con = k.con := by
    intro k
    unfold readFile
    dsimp only
    split
    · split <;> rfl
    · rfl
  have hdirectory : ∀ k : Kernel, (k.readDirectory fd).1.con = k.con := by
    intro k
    unfold readDirectory
    dsimp only
    split
    · split <;> rfl
    · rfl
  unfold read
  split
  · exact h
  · split
    · exact h
    · dsimp only
      split
      · split
        · exact hterminal _ hstart
        · exact hstart
        · rw [hdirectory]
          exact hstart
        · rw [hfile]
          exact hstart
        · exact hstart
      · exact hstart

theorem ownPages_write (h : k.con.vid.OwnPages) (fd : Int) (buf : List UInt8) :
    (k.write fd buf).1.con.vid.OwnPages := by
  have hstart : k.sti.setCurrPcb.con.vid.OwnPages := h.of_eq rfl rfl rfl rfl rfl
  unfold write
  dsimp only
  split
  · exact hstart
  · split
    · split
      · exact Console.ownPages_terminalWrite hstart buf
      · exact hstart
      · exact hstart
    · exact hstart.of_selection (Video.putc_selection _ _ _)

theorem openFile_con (fname : Bytes) (garbage : Image.Dentry) (k : Kernel) :
    (k.openFile fname garbage).1.con = k.con := by
  unfold openFile
  split
  · rfl
  · dsimp only
    split
    · rfl
    · split <;> rfl

theorem ownPages_vidmap (h : k.con.vid.OwnPages) (screenStart : Int) :
    (k.vidmap screenStart).1.con.vid.OwnPages := by
  unfold vidmap
  split
  · exact h
  · split
    · exact h
    · exact Video.vidmapPage_ownPages h

theorem halt_framed (h : k.Framed) : k.halt.Framed := by
  have hscreen : k.halt.con.vid.OwnPages := by
    rw [halt_con]
    split
    · exact h.screen
    · exact h.screen
  have hcore := congrArg Core.userPageAddress (halt_core k)
  by_cases hbase : isBase k.currPid = true
  · rw [if_pos hbase] at hcore
    exact h.of_core hscreen hcore
  · rw [if_neg hbase] at hcore
    exact ⟨hscreen, k.core.parentPidForTerm k.scheduledTerm, hcore⟩

theorem execute_framed (h : k.Framed) {call : ExecCall} {r : Regs}
    (hstep : k.step (.execute call r) = some k') : k'.Framed := by
  rcases execute_step hstep with ⟨p, image, -, -, hk⟩ | hrefused | ⟨p, image, -, hk⟩
  · rw [hk]
    exact ⟨h.screen.of_selection (launched_selection call p image r k), p,
      launched_page call p image r k⟩
  · refine h.of_core (hrefused.ownPages h.screen) ?_
    rw [hrefused.core]
  · have hclaimed : (k.faulted call p image).Framed :=
      ⟨h.screen.of_selection (faulted_selection call p image k), p,
        congrArg Core.userPageAddress (faulted_core call p image k)⟩
    rw [hk]
    exact halt_framed hclaimed

theorem tick_framed (h : k.Framed) {r : Regs} (hstep : k.pitHandler r = some k') : k'.Framed := by
  have hnext : (k.preempted r).con.vid.OwnPages := by
    rw [preempted_con]
    exact Console.ownPages_nextTerminal h.screen
  by_cases hwaits : (k.preempted r).WaitsForShell
  · rw [pitHandler_shell hwaits] at hstep
    have hready : ((k.preempted r).shellReady (k.preempted r).scheduledTerm).con.vid.OwnPages := by
      rw [shellReady_con]
      exact Console.ownPages_startScreen hnext _
    refine execute_framed (h.of_core hready ?_) (step_of_unlessFaults hstep)
    rw [shellReady_core, preempted_core]
    rfl
  · rw [pitHandler_resume hwaits, Option.some.injEq] at hstep
    rw [← hstep]
    exact resume_framed hnext

/-- Every event keeps the mappings in step with the scheduler and the display. -/
theorem step_framed (h : k.Framed) (hstep : k.step e = some k') : k'.Framed := by
  by_cases hchooses : e.Chooses
  · cases e with
    | tick r => exact tick_framed h hstep
    | execute call r => exact execute_framed h hstep
    | halt status =>
      cases hstep
      exact halt_framed h
    | _ => exact absurd hchooses id
  · refine h.of_core ?_ (congrArg Core.userPageAddress (aside_step hchooses hstep).core)
    cases e with
    | key scan =>
      cases hstep
      exact Console.ownPages_keyboardHandler h.screen scan
    | rtc =>
      cases hstep
      exact h.screen
    | read fd nbytes =>
      cases hstep
      exact ownPages_read h.screen fd nbytes
    | readDone nbytes =>
      obtain ⟨⟨con, result⟩, hcon, rfl⟩ := Option.map_eq_some_iff.mp hstep
      unfold Console.terminalReadFinish at hcon
      split at hcon
      · cases hcon
        exact h.screen.of_eq rfl rfl rfl rfl rfl
      · cases hcon
    | write fd buf =>
      cases hstep
      exact ownPages_write h.screen fd buf
    | openFile fname garbage =>
      cases hstep
      show (k.openFile fname garbage).1.con.vid.OwnPages
      rw [openFile_con]
      exact h.screen
    | closeFile fd =>
      cases hstep
      show (k.closeFile fd).1.con.vid.OwnPages
      rw [closeFile_con]
      split
      · exact h.screen
      · exact h.screen
    | getargs nbytes =>
      cases hstep
      exact h.screen
    | vidmap screenStart =>
      cases hstep
      exact ownPages_vidmap h.screen screenStart
    | vidmapStore offset b =>
      cases hstep
      exact h.screen.of_eq rfl rfl rfl rfl rfl
    | _ => exact absurd trivial hchooses

theorem init_ownPages (ram : Ram) (img : Image) : (init ram img).con.vid.OwnPages := by
  have hsel := Video.init_selection ram.mem
  have hpage := congrArg Video.Selection.pageTable hsel
  have hvideo := congrArg Video.Selection.videoPageTable hsel
  have hframe : (Video.init ram.mem).logicalFrame (Video.init ram.mem).scheduledTerm = videoFrame := by
    rw [Video.init_scheduledTerm, Video.logicalFrame, Video.init_currentTerminal, if_pos rfl]
  exact
    { kernel := hpage.trans hframe.symm
      user := hvideo.trans hframe.symm
      process := congrArg Video.Selection.keyboardPutCFlag hsel }

theorem entry_framed {ram : Ram} {img : Image} (h : entry ram img = some k) : k.Framed := by
  obtain ⟨p, hstarts⟩ := ifStarts_eq_some.mp h
  have hout : ((init ram img).execute shellCall { ebp := 0, esp := 0 }).2 = .starts p := by
    rw [hstarts]
  obtain ⟨image, hstart⟩ := execute_eq_starts hout
  rw [execute_starts hstart] at hstarts
  have hk : k = (init ram img).launched shellCall p image { ebp := 0, esp := 0 } :=
    (congrArg Prod.fst hstarts).symm
  rw [hk]
  exact ⟨(init_ownPages ram img).of_selection (launched_selection _ _ _ _ _), p,
    launched_page _ p image _ _⟩

/-! ## The kernel beside its page tables -/

/-- The frames that the kernel's globals name. -/
def frames (k : Kernel) : Frames where
  program := k.tab.userPageAddress
  screen := k.con.vid.pageTable.toNat
  vidmap := k.con.vid.videoPageTable.toNat

/-- The three address fields assigned.  Where an event leaves a frame as it was, the
assignment leaves its word. -/
def assignFrames (L : Layout) (k : Kernel) (mem : Words) : Words :=
  L.assignVidmap k.frames.vidmap (L.assignScreen k.frames.screen
    (L.assignProgram k.frames.program mem))

/-- The kernel with the physical memory that holds its tables. -/
def pagedStep (L : Layout) : Kernel × Words → Event → Option (Kernel × Words) :=
  observe step fun _ _ k' mem => k'.assignFrames L mem

variable {L : Layout} {mem mem' : Words} {p : Pid}

/-- The frame of the page that holds the scheduled terminal's screen. -/
def screenFrame (k : Kernel) : Nat := (k.con.vid.logicalFrame k.scheduledTerm).toNat

theorem screenFrame_bounds (k : Kernel) : 184 ≤ k.screenFrame ∧ k.screenFrame ≤ 187 := by
  have hterm := k.scheduledTerm.isLt
  unfold screenFrame Video.logicalFrame
  split
  · rw [videoFrame_eq]
    omega
  · rw [saveFrame_eq]
    omega

theorem Framed.frames_eq (h : k.Framed) : ∃ p : Pid,
    k.tab.userPageAddress = (mb8 + mb4 * p) / 2 ^ 22 ∧
    k.frames = { program := 2 + p, screen := k.screenFrame, vidmap := k.screenFrame } := by
  obtain ⟨p, hp⟩ := h.program
  have hprogram : k.tab.userPageAddress = 2 + p := by
    have hmb8 : mb8 = 0x800000 := rfl
    have hmb4 : mb4 = 0x400000 := rfl
    rw [hp, hmb8, hmb4]
    omega
  have hscreen : k.con.vid.pageTable.toNat = k.screenFrame := congrArg Int.toNat h.screen.kernel
  have hvidmap : k.con.vid.videoPageTable.toNat = k.screenFrame := congrArg Int.toNat h.screen.user
  exact ⟨p, hp, by rw [frames, hprogram, hscreen, hvidmap]⟩

theorem Framed.assignFrames {f : Frames} (h : k.Framed) (hmem : L.Holds f mem) :
    L.Holds k.frames (k.assignFrames L mem) := by
  obtain ⟨p, -, hframes⟩ := h.frames_eq
  have hbounds := k.screenFrame_bounds
  have hp := p.isLt
  have hprogram : k.frames.program < 2 ^ 10 := by
    rw [hframes]
    show 2 + (p : Nat) < 2 ^ 10
    omega
  have hscreen : k.frames.screen < 2 ^ 20 := by
    rw [hframes]
    show k.screenFrame < 2 ^ 20
    omega
  have hvidmap : k.frames.vidmap < 2 ^ 20 := by
    rw [hframes]
    show k.screenFrame < 2 ^ 20
    omega
  exact ((hmem.assignProgram hprogram).assignScreen hscreen).assignVidmap hvidmap

/-- In every run the tables hold the frames that the globals name. -/
theorem reaches_holds {ok : Kernel × Words → Event → Prop} {ram : Ram} {img : Image} {k₀ : Kernel}
    (hentry : entry ram img = some k₀) (hcleared : L.Cleared mem)
    (hrun : Reaches (pagedStep L) ok (k₀, k₀.assignFrames L (L.pagingInit mem)) (k, mem')) :
    k.Framed ∧ L.Holds k.frames mem' := by
  have hinit := (entry_framed hentry).assignFrames (Layout.pagingInit_holds hcleared)
  refine hrun.invariant (I := fun s => s.1.Framed ∧ L.Holds s.1.frames s.2) ?_
    ⟨entry_framed hentry, hinit⟩
  intro s e s' hs _ hstep
  obtain ⟨hk, hmem⟩ := observe_eq_some.mp hstep
  have hframed := step_framed hs.1 hk
  refine ⟨hframed, ?_⟩
  rw [hmem]
  exact hframed.assignFrames hs.2

/-! ## What a user program reaches -/

/-- In every run the kernel's page is mapped to itself for the supervisor alone, both
mappings of video memory lead to the screen of the scheduled terminal, the program's
window leads to the page of some process, and every other address faults. -/
theorem reaches_space {ram : Ram} {img : Image} {k₀ : Kernel} (hentry : entry ram img = some k₀)
    (hcleared : L.Cleared mem)
    (hrun : Reaches (pagedStep L) (fun _ _ => True) (k₀, k₀.assignFrames L (L.pagingInit mem))
      (k, mem')) (c : Control) :
    ∃ p : Pid, k.tab.userPageAddress = (mb8 + mb4 * p) / 2 ^ 22 ∧ ∀ va : BitVec 32,
      translated (L.loadPageDirectory c) mem' va =
        Frames.space { program := 2 + p, screen := k.screenFrame, vidmap := k.screenFrame }
          va.toNat := by
  obtain ⟨hframed, hholds⟩ := reaches_holds hentry hcleared hrun
  obtain ⟨p, hp, hframes⟩ := hframed.frames_eq
  refine ⟨p, hp, fun va => ?_⟩
  rw [hholds.translated, hframes]

/-- The tables of the machine that boots one shell on each terminal. -/
def shellTables : Words :=
  shellKernel.assignFrames Layout.firstFrames (Layout.firstFrames.pagingInit fun _ => 0)

/-- The boot beside its page tables. -/
theorem exists_paged (ok : Kernel → Event → Prop)
    (hok : ∀ n k, Booting n k → ok k (.tick (baseFrame n))) : ∃ k mem, BaseShells 0 k ∧
      Reaches (pagedStep Layout.firstFrames) (fun s e => ok s.1 e) (shellKernel, shellTables)
        (k, mem) := by
  obtain ⟨k, hrun, hshells, -⟩ := exists_baseShells_shell ok hok
  obtain ⟨mem, hpaged⟩ := hrun.watched shellTables
  exact ⟨k, mem, hshells, hpaged⟩

/-- After the boot, with the first shell scheduled. -/
theorem reaches_space_shell : ∃ k mem, BaseShells 0 k ∧
    ∃ p : Pid, k.tab.userPageAddress = (mb8 + mb4 * p) / 2 ^ 22 ∧ ∀ va : BitVec 32,
      translated (Layout.firstFrames.loadPageDirectory Layout.protectedMode) mem va =
        Frames.space { program := 2 + p, screen := k.screenFrame, vidmap := k.screenFrame }
          va.toNat := by
  obtain ⟨k, mem, hshells, hrun⟩ := exists_paged (fun _ _ => True) fun _ _ _ => trivial
  exact ⟨k, mem, hshells,
    reaches_space entry_shellImage (Layout.cleared_zero _) hrun Layout.protectedMode⟩

/-- In every run the address that `peek` and `poke` take for a byte of video memory, and
the one that a store by a user program takes, are those to which the walk leads. -/
theorem reaches_translate {ram : Ram} {img : Image} {k₀ : Kernel} (hentry : entry ram img = some k₀)
    (hcleared : L.Cleared mem)
    (hrun : Reaches (pagedStep L) (fun _ _ => True) (k₀, k₀.assignFrames L (L.pagingInit mem))
      (k, mem')) (c : Control) :
    (∀ va : BitVec 32, video ≤ va.toNat → (va.toNat : Int) < video + 4 * fourKB →
      translated (L.loadPageDirectory c) mem' va = some
        { phys := (translate k.con.vid.pageTable va.toNat).toNat, user := false
          writable := true }) ∧
    ∀ va : BitVec 32, 0x8000000 + mb4 ≤ va.toNat → va.toNat < 0x8000000 + mb4 + 4096 →
      translated (L.loadPageDirectory c) mem' va = some
        { phys := (k.con.vid.videoPageTable * fourKB + (va.toNat - (0x8000000 + mb4) : Nat)).toNat
          user := true, writable := true } := by
  have hmb8 : mb8 = 0x800000 := rfl
  have hmb4 : mb4 = 0x400000 := rfl
  have hvideo : video = 0xB8000 := rfl
  have hfour : fourKB = 4096 := rfl
  obtain ⟨hframed, hholds⟩ := reaches_holds hentry hcleared hrun
  obtain ⟨p, -, hframes⟩ := hframed.frames_eq
  have hbounds := k.screenFrame_bounds
  have hpage : k.con.vid.pageTable = k.screenFrame := by
    have hscreen : k.con.vid.pageTable = k.con.vid.logicalFrame k.scheduledTerm :=
      hframed.screen.kernel
    rw [hscreen]
    unfold screenFrame at hbounds ⊢
    omega
  have huser : k.con.vid.videoPageTable = k.screenFrame := by
    have hscreen : k.con.vid.videoPageTable = k.con.vid.logicalFrame k.scheduledTerm :=
      hframed.screen.user
    rw [hscreen]
    unfold screenFrame at hbounds ⊢
    omega
  constructor
  · intro va hlo hhi
    rw [hvideo] at hlo hhi
    rw [hfour] at hhi
    rw [hholds.translated, hframes, hpage, translate, hvideo, hfour]
    simp only [Frames.space, hmb4, hmb8]
    rw [if_neg (by omega)]
    by_cases hscreen : va.toNat / 4096 = 0xB8
    · rw [if_pos hscreen, if_pos (by omega)]
      exact Layout.mapping_congr (by omega) _ _
    · rw [if_neg hscreen, if_pos (by omega), if_neg (by omega)]
      exact Layout.mapping_congr (by omega) _ _
  · intro va hlo hhi
    rw [hmb4] at hlo hhi
    rw [hholds.translated, hframes, huser, hfour]
    simp only [Frames.space, hmb4, hmb8]
    rw [if_neg (by omega), if_neg (by omega), if_neg (by omega), if_neg (by omega),
      if_pos (by omega)]
    exact Layout.mapping_congr (by omega) _ _

/-- The first byte of video memory after the boot. -/
theorem reaches_translate_shell : ∃ k mem, BaseShells 0 k ∧
    translated (Layout.firstFrames.loadPageDirectory Layout.protectedMode) mem 0xB8000#32 = some
      { phys := (translate k.con.vid.pageTable (0xB8000#32).toNat).toNat, user := false
        writable := true } := by
  obtain ⟨k, mem, hshells, hrun⟩ := exists_paged (fun _ _ => True) fun _ _ _ => trivial
  exact ⟨k, mem, hshells, (reaches_translate entry_shellImage
    (Layout.cleared_zero Layout.firstFrames) hrun Layout.protectedMode).1 0xB8000#32 (by decide)
      (by decide)⟩

end Kernel

end StudentDistrib
