import Mathlib.Data.List.Induction
import StudentDistrib.Console.Screens

/-!
# The virtual consoles refine three private screens

A run of screen steps acts on the logical screen of each terminal as the terminal's
own operations, in order, act on a private screen.  The invariant that carries it is
`Mapped`: between steps `VIDEO` and the user's video page map to the logical page of
the scheduled terminal.
-/

namespace StudentDistrib

open Machine

namespace Video

/-- Both mappings name the logical page of the scheduled terminal, and every cursor
is on its screen. -/
structure Mapped (v : Video) : Prop where
  kernel : v.pageTable = v.logicalFrame v.scheduledTerm
  user : v.videoPageTable = v.logicalFrame v.scheduledTerm
  process : v.keyboardPutCFlag = false
  cursors : ∀ t, (v.screenOf t).InRange

/-- The same choice of pages and the same screens but that of terminal `t`. -/
theorem Mapped.of_selection {v v' : Video} (h : v.Mapped) (hsel : v'.selection = v.selection)
    (hcursors : ∀ t, (v'.screenOf t).InRange) : v'.Mapped := by
  have hcurrent := congrArg Selection.currentTerminal hsel
  have hscheduled := congrArg Selection.scheduledTerm hsel
  have hkernel := congrArg Selection.pageTable hsel
  have huser := congrArg Selection.videoPageTable hsel
  have hprocess := congrArg Selection.keyboardPutCFlag hsel
  simp only [selection] at hcurrent hscheduled hkernel huser hprocess
  have hframe : v'.logicalFrame v'.scheduledTerm = v.logicalFrame v.scheduledTerm := by
    unfold logicalFrame
    rw [hcurrent, hscheduled]
  exact
    { kernel := by rw [hkernel, hframe, h.kernel]
      user := by rw [huser, hframe, h.user]
      process := by rw [hprocess, h.process]
      cursors := hcursors }

/-! ## One step -/

theorem screenOf_sti (v : Video) (t : Term) : v.sti.screenOf t = v.screenOf t := rfl

/-- The process of the scheduled terminal prints on its own screen. -/
theorem putc_screenOf {v : Video} (h : v.Mapped) (bufIdx : Int) {c : UInt8}
    (hc : c ≠ backspaceAscii) (t : Term) :
    (v.putc bufIdx c).screenOf t =
      if t = v.scheduledTerm then (v.screenOf t).putc c else v.screenOf t := by
  rw [putc_process bufIdx hc h.process, screenOf_sti]
  split
  · rename_i ht
    rw [ht]
    exact print_self c h.kernel (h.cursors _)
  · rename_i ht
    exact print_ne c h.kernel (h.cursors _) ht

/-- An echo puts the mapping of `VIDEO` and the flag back. -/
theorem keyboardputc_selection {v : Video} (hprocess : v.keyboardPutCFlag = false) (bufIdx : Int)
    (c : UInt8) : (v.keyboardputc bufIdx c).selection = v.selection := by
  unfold keyboardputc
  split
  · have hsel := putc_selection bufIdx c
      { v with pageTable := videoFrame, keyboardPutCFlag := true }
    simp only [selection, Selection.mk.injEq] at hsel ⊢
    obtain ⟨hcurrent, hscheduled, hread, -, huser, -⟩ := hsel
    exact ⟨hcurrent, hscheduled, hread, trivial, huser, hprocess.symm⟩
  · rfl

/-- An echo prints on the displayed screen, if its terminal is read. -/
theorem keyboardputc_screenOf {v : Video} (h : v.Mapped) (bufIdx : Int) {c : UInt8}
    (hc : c ≠ backspaceAscii) (t : Term) :
    (v.keyboardputc bufIdx c).screenOf t =
      if t = v.currentTerminal ∧ v.termReadFlag t = true then (v.screenOf t).putc c
      else v.screenOf t := by
  unfold keyboardputc
  by_cases hread : v.termReadFlag v.currentTerminal = true
  · rw [if_pos hread]
    dsimp only
    have hpage : videoFrame = v.logicalFrame v.currentTerminal := (if_pos rfl).symm
    have hscreen : ∀ w : Video,
        ({ w with keyboardPutCFlag := false, pageTable := v.pageTable } : Video).screenOf t
          = w.screenOf t := fun _ => rfl
    rw [hscreen, putc_echo bufIdx hc rfl, screenOf_sti]
    by_cases ht : t = v.currentTerminal
    · rw [if_pos ⟨ht, ht ▸ hread⟩, ht]
      exact print_self c hpage (h.cursors _)
    · rw [if_neg fun e => ht e.1]
      exact print_ne c hpage (h.cursors _) ht
  · rw [if_neg hread, if_neg]
    rintro ⟨rfl, e⟩
    exact hread e

/-- A store through the video page is a store into the scheduled terminal's screen. -/
theorem vidmapStore_screenOf {v : Video} (h : v.Mapped) (i : Fin 4096) (b : UInt8) (t : Term) :
    (v.vidmapStore i b).screenOf t =
      if t = v.scheduledTerm then (v.screenOf t).store i b else v.screenOf t := by
  have hi := i.isLt
  split
  · rename_i ht
    subst ht
    ext1
    · funext j
      show Function.update v.mem (v.videoPageTable * fourKB + i) b
        (v.logicalFrame v.scheduledTerm * fourKB + j) = _
      rw [h.user]
      unfold Screen.store
      simp only [Function.update_apply, Fin.ext_iff]
      by_cases hj : (j : Nat) = i
      · rw [if_pos hj, if_pos (by omega)]
      · rw [if_neg hj, if_neg (by omega)]
        rfl
    · rfl
    · rfl
  · rename_i ht
    refine screenOf_mem_ne (t := v.scheduledTerm) (fun g hg => ?_) ht
    funext j
    unfold pageAt
    rw [h.user, Function.update_of_ne]
    exact page_ne hg j (by omega) (by omega)

theorem screenOf_setPagingScheduling (t u : Term) (v : Video) :
    (v.setPagingScheduling t).screenOf u = v.screenOf u := by
  unfold setPagingScheduling
  split <;> rfl

theorem terminalChanging_cursors (choice : Term) (v : Video) :
    (v.terminalChanging choice).termScreenx = v.termScreenx ∧
      (v.terminalChanging choice).termScreeny = v.termScreeny := by
  unfold terminalChanging
  split <;> exact ⟨rfl, rfl⟩

/-- The two copies of a switch move the screens with the pages that hold them. -/
theorem terminalChanging_screenOf (choice t : Term) (v : Video) :
    (v.terminalChanging choice).screenOf t = v.screenOf t := by
  have hcurrent := terminalChanging_currentTerminal choice v
  by_cases hchange : choice ≠ v.currentTerminal
  · have hsave : ∀ u : Term, video + ((u : Nat) + 1 : Int) * fourKB = saveFrame u * fourKB := by
      intro u
      rw [saveFrame_eq]
      unfold video fourKB
      omega
    have hvideo : video = videoFrame * fourKB := by decide
    have hmem : (v.terminalChanging choice).mem =
        memcpy videoFrame (videoFrame * fourKB) (saveFrame choice * fourKB) 4096
          (memcpy videoFrame (saveFrame v.currentTerminal * fourKB) (videoFrame * fourKB) 4096
            v.mem) := by
      unfold terminalChanging
      rw [if_pos hchange, ← hsave, ← hsave, ← hvideo]
    have hne : ∀ {u w : Term}, u ≠ w → saveFrame u ≠ saveFrame w :=
      fun h e => h (saveFrame_injective e)
    have hframe : ∀ u, (v.terminalChanging choice).logicalFrame u
        = if u = choice then videoFrame else saveFrame u := by
      intro u
      unfold logicalFrame
      rw [hcurrent]
    ext1
    · show pageAt ((v.terminalChanging choice).logicalFrame t) (v.terminalChanging choice).mem
        = pageAt (v.logicalFrame t) v.mem
      rw [hframe, hmem]
      unfold logicalFrame
      by_cases hnew : t = choice
      · have hold : t ≠ v.currentTerminal := hnew ▸ hchange
        rw [if_pos hnew, if_neg hold, pageAt_memcpy (saveFrame_ne _), hnew,
          pageAt_memcpy_ne (saveFrame_ne _).symm (hne hchange)]
      · rw [if_neg hnew, pageAt_memcpy_ne (saveFrame_ne _) (saveFrame_ne _)]
        by_cases hold : t = v.currentTerminal
        · rw [if_pos hold, hold, pageAt_memcpy (saveFrame_ne _).symm]
        · rw [if_neg hold, pageAt_memcpy_ne (saveFrame_ne _).symm (hne hold)]
    · exact congrFun (terminalChanging_cursors choice v).1 t
    · exact congrFun (terminalChanging_cursors choice v).2 t
  · unfold terminalChanging
    rw [if_neg hchange]

/-- `set_paging_scheduling` for the terminal that is displayed next. -/
theorem setPagingScheduling_pages (t : Term) (v : Video) :
    (v.setPagingScheduling t).pageTable
        = (if v.scheduledTerm = t then videoFrame else saveFrame v.scheduledTerm) ∧
      (v.setPagingScheduling t).videoPageTable
        = (if v.scheduledTerm = t then videoFrame else saveFrame v.scheduledTerm) := by
  unfold setPagingScheduling
  split <;> exact ⟨rfl, rfl⟩

theorem setPagingScheduling_keyboardPutCFlag (t : Term) (v : Video) :
    (v.setPagingScheduling t).keyboardPutCFlag = v.keyboardPutCFlag := by
  unfold setPagingScheduling
  split <;> rfl

theorem terminalChanging_pages (choice : Term) (v : Video) :
    (v.terminalChanging choice).pageTable = v.pageTable ∧
      (v.terminalChanging choice).videoPageTable = v.videoPageTable ∧
      (v.terminalChanging choice).keyboardPutCFlag = v.keyboardPutCFlag := by
  unfold terminalChanging
  split <;> exact ⟨rfl, rfl, rfl⟩

/-- A switch to `t`. -/
theorem mapped_switch {v : Video} (t : Term) (hprocess : v.keyboardPutCFlag = false)
    (hcursors : ∀ u, (v.screenOf u).InRange) :
    ((v.setPagingScheduling t).terminalChanging t).Mapped := by
  obtain ⟨hkernel, huser, hflag⟩ := terminalChanging_pages t (v.setPagingScheduling t)
  obtain ⟨hkernel', huser'⟩ := setPagingScheduling_pages t v
  have hframe : ((v.setPagingScheduling t).terminalChanging t).logicalFrame
      ((v.setPagingScheduling t).terminalChanging t).scheduledTerm
        = if v.scheduledTerm = t then videoFrame else saveFrame v.scheduledTerm := by
    unfold logicalFrame
    rw [terminalChanging_currentTerminal, terminalChanging_scheduledTerm,
      setPagingScheduling_scheduledTerm]
  exact
    { kernel := by rw [hkernel, hkernel', hframe]
      user := by rw [huser, huser', hframe]
      process := by rw [hflag, setPagingScheduling_keyboardPutCFlag, hprocess]
      cursors := fun u => by
        rw [terminalChanging_screenOf, screenOf_setPagingScheduling]
        exact hcursors u }

/-- A timer interrupt schedules a terminal and maps its page. -/
theorem mapped_schedule {v : Video} (hprocess : v.keyboardPutCFlag = false)
    (hcursors : ∀ u, (v.screenOf u).InRange) :
    (v.setPagingScheduling v.currentTerminal).Mapped := by
  obtain ⟨hkernel, huser⟩ := setPagingScheduling_pages v.currentTerminal v
  have hframe : (v.setPagingScheduling v.currentTerminal).logicalFrame
      (v.setPagingScheduling v.currentTerminal).scheduledTerm
        = if v.scheduledTerm = v.currentTerminal then videoFrame
          else saveFrame v.scheduledTerm := by
    unfold logicalFrame
    rw [setPagingScheduling_currentTerminal, setPagingScheduling_scheduledTerm]
  exact
    { kernel := by rw [hkernel, hframe]
      user := by rw [huser, hframe]
      process := by rw [setPagingScheduling_keyboardPutCFlag, hprocess]
      cursors := fun u => by
        rw [screenOf_setPagingScheduling]
        exact hcursors u }

end Video

/-! ## Runs -/

/-- The atomic steps that reach a screen or choose one. -/
inductive ScreenStep
  /-- A character printed by the process of the scheduled terminal. -/
  | putc (c : UInt8) (h : c ≠ backspaceAscii)
  /-- A character echoed by the keyboard driver. -/
  | echo (c : UInt8) (h : c ≠ backspaceAscii)
  /-- A store by the scheduled process through its video page. -/
  | store (i : Fin 4096) (b : UInt8)
  | vidmap
  /-- Alt, and a function key while it is held. -/
  | switch (t : Term)
  | tick
  /-- `terminal_read` of the scheduled process starts or ends. -/
  | reading (on : Bool)

/-- An operation on a private screen. -/
inductive ScreenOp
  | putc (c : UInt8)
  | store (i : Fin 4096) (b : UInt8)

def Screen.apply (s : Screen) : ScreenOp → Screen
  | .putc c => s.putc c
  | .store i b => s.store i b

theorem Screen.apply_inRange {s : Screen} (op : ScreenOp) (h : s.InRange) :
    (s.apply op).InRange := by
  cases op with
  | putc c => exact putc_inRange c h
  | store i b => exact h

theorem Screen.foldl_own (p : Prop) [Decidable p] (op : ScreenOp) (s : Screen) :
    (if p then [op] else []).foldl Screen.apply s = if p then s.apply op else s := by
  split <;> rfl

namespace Console

def screenStep (c : Console) : ScreenStep → Console
  | .putc b _ => { c with vid := c.vid.putc c.kb.bufIdx b }
  | .echo b _ => c.keyboardputc b
  | .store i b => { c with vid := c.vid.vidmapStore i b }
  | .vidmap => { c with vid := c.vid.vidmapPage }
  | .switch t => (c.keyboardHandler altPush).keyboardHandler (fPush t)
  | .tick => c.nextTerminal
  | .reading on => c.setReadFlag on

/-- What a step is to terminal `t`: an operation of its own, or nothing. -/
def ownOp (c : Console) (t : Term) : ScreenStep → List ScreenOp
  | .putc b _ => if t = c.vid.scheduledTerm then [.putc b] else []
  | .echo b _ =>
    if t = c.vid.currentTerminal ∧ c.vid.termReadFlag t = true then [.putc b] else []
  | .store i b => if t = c.vid.scheduledTerm then [.store i b] else []
  | _ => []

def screenRun (c : Console) (steps : List ScreenStep) : Console := steps.foldl screenStep c

/-- The operations of terminal `t` along a run, in order. -/
def ownOps (c : Console) (t : Term) : List ScreenStep → List ScreenOp
  | [] => []
  | s :: steps => c.ownOp t s ++ ownOps (c.screenStep s) t steps

theorem switch_vid (c : Console) (t : Term) :
    (c.screenStep (.switch t)).vid =
      (((c.keyboardHandler altPush).vid.cli.setPagingScheduling t).terminalChanging t).sti :=
  (keyboardHandler_switch (switches_of_alt rfl)).1

/-- One step is the owner's operation on its screen and leaves the other screens
alone. -/
theorem screenStep_screenOf {c : Console} (h : c.vid.Mapped) (s : ScreenStep) (t : Term) :
    (c.screenStep s).vid.screenOf t = (c.ownOp t s).foldl Screen.apply (c.vid.screenOf t) := by
  cases s with
  | putc b hb =>
    rw [ownOp, Screen.foldl_own]
    exact Video.putc_screenOf h c.kb.bufIdx hb t
  | echo b hb =>
    rw [ownOp, Screen.foldl_own]
    exact Video.keyboardputc_screenOf h c.kb.bufIdx hb t
  | store i b =>
    rw [ownOp, Screen.foldl_own]
    exact Video.vidmapStore_screenOf h i b t
  | vidmap => rfl
  | switch u =>
    show (c.screenStep (.switch u)).vid.screenOf t = c.vid.screenOf t
    rw [switch_vid, Video.screenOf_sti, Video.terminalChanging_screenOf,
      Video.screenOf_setPagingScheduling]
    rfl
  | tick =>
    show c.nextTerminal.vid.screenOf t = c.vid.screenOf t
    unfold nextTerminal
    dsimp only
    rw [Video.screenOf_setPagingScheduling]
    rfl
  | reading on => rfl

/-- The mapping after each step. -/
theorem screenStep_mapped {c : Console} (h : c.vid.Mapped) (s : ScreenStep) :
    (c.screenStep s).vid.Mapped := by
  have hcursors : ∀ t, ((c.screenStep s).vid.screenOf t).InRange := by
    intro t
    have hrange : ∀ (ops : List ScreenOp) (screen : Screen), screen.InRange →
        (ops.foldl Screen.apply screen).InRange := by
      intro ops
      induction ops with
      | nil => exact fun _ hscreen => hscreen
      | cons op ops ih => exact fun _ hscreen => ih _ (Screen.apply_inRange op hscreen)
    rw [screenStep_screenOf h s t]
    exact hrange _ _ (h.cursors t)
  cases s with
  | putc b hb => exact h.of_selection (Video.putc_selection _ _ _) hcursors
  | echo b hb =>
    exact h.of_selection (Video.keyboardputc_selection h.process c.kb.bufIdx b) hcursors
  | store i b => exact h.of_selection rfl hcursors
  | vidmap =>
    have hpage : (if c.vid.scheduledTerm = c.vid.currentTerminal then videoFrame
        else saveFrame c.vid.scheduledTerm) = c.vid.videoPageTable := h.user.symm
    refine h.of_selection ?_ hcursors
    show c.vid.vidmapPage.selection = c.vid.selection
    unfold Video.vidmapPage Video.selection
    rw [hpage]
  | switch t =>
    rw [switch_vid]
    have hswitch := Video.mapped_switch (v := (c.keyboardHandler altPush).vid.cli) t h.process
      h.cursors
    exact hswitch.of_selection rfl hswitch.cursors
  | tick => exact Video.mapped_schedule (v := { c.vid with
      scheduledTerm := c.vid.scheduledTerm + 1 }) h.process h.cursors
  | reading on => exact { h with }

theorem screenRun_mapped {c : Console} (h : c.vid.Mapped) (steps : List ScreenStep) :
    (c.screenRun steps).vid.Mapped := by
  induction steps generalizing c with
  | nil => exact h
  | cons s steps ih => exact ih (screenStep_mapped h s)

theorem screenRun_screenOf {c : Console} (h : c.vid.Mapped) (steps : List ScreenStep) (t : Term) :
    (c.screenRun steps).vid.screenOf t
      = (c.ownOps t steps).foldl Screen.apply (c.vid.screenOf t) := by
  induction steps generalizing c with
  | nil => rfl
  | cons s steps ih =>
    have hrest := ih (screenStep_mapped h s)
    show ((c.screenStep s).screenRun steps).vid.screenOf t = _
    rw [hrest, screenStep_screenOf h, ownOps, List.foldl_append]

theorem display_mapped {c : Console} (h : c.vid.Mapped) (prev t : Term) :
    (c.display prev t).vid.Mapped := Video.mapped_switch t h.process h.cursors

theorem nextTerminal_mapped {c : Console} (h : c.vid.Mapped) : c.nextTerminal.vid.Mapped :=
  screenStep_mapped h .tick

theorem clear_mapped {c : Console} (h : c.vid.Mapped) : c.clear.vid.Mapped := by
  have horigin : ∀ (mem : Bytes) (t : Term),
      ((({ c.vid with mem } : Video).setCursor c.vid.currentTerminal 0 0).screenOf t).InRange := by
    intro mem t
    by_cases ht : t = c.vid.currentTerminal
    · rw [ht, Video.screenOf_setCursor_self]
      exact Screen.inRange_origin _
    · rw [Video.screenOf_setCursor_ne ht]
      exact h.cursors t
  refine h.of_selection (Video.clear_selection c.vid) fun t => ?_
  unfold clear Video.clear
  exact horigin _ t

theorem startScreen_mapped {c : Console} (h : c.vid.Mapped) (t : Term) :
    (c.startScreen t).vid.Mapped := clear_mapped (display_mapped h _ t)

theorem init_mapped (mem : Bytes) : (init mem).vid.Mapped := by
  have hinit : Video.Mapped
      { mem
        pageTable := videoFrame
        videoPageTable := videoFrame
        termScreenx := fun _ => 0
        termScreeny := fun _ => 0
        currentTerminal := 0
        scheduledTerm := 0
        termReadFlag := fun _ => false
        keyboardPutCFlag := false
        interruptFlag := false } :=
    { kernel := rfl
      user := rfl
      process := rfl
      cursors := fun _ => Screen.inRange_origin _ }
  exact clear_mapped (c := Console.mk _ Keyboard.init) hinit

/-- The boot leaves the mapping of the first terminal and every cursor on its screen. -/
theorem booted_mapped (mem : Bytes) : (booted mem).vid.Mapped := by
  have hfirst := nextTerminal_mapped (init_mapped mem)
  have hsecond := nextTerminal_mapped (startScreen_mapped hfirst 1)
  have hthird := nextTerminal_mapped (startScreen_mapped hsecond 2)
  exact display_mapped hthird 2 0

/-- Every logical screen is the private screen of its terminal, and the two mappings
name the logical page of the scheduled terminal after every step. -/
theorem screens_refine (mem : Bytes) (steps : List ScreenStep) :
    (∀ t, ((booted mem).screenRun steps).vid.screenOf t
      = ((booted mem).ownOps t steps).foldl Screen.apply ((booted mem).vid.screenOf t)) ∧
    (∀ before, before <+: steps →
      ((booted mem).screenRun before).vid.pageTable
          = ((booted mem).screenRun before).vid.logicalFrame
            ((booted mem).screenRun before).vid.scheduledTerm ∧
        ((booted mem).screenRun before).vid.videoPageTable
          = ((booted mem).screenRun before).vid.logicalFrame
            ((booted mem).screenRun before).vid.scheduledTerm) := by
  have hboot := booted_mapped mem
  refine ⟨fun t => screenRun_screenOf hboot steps t, fun before _ => ?_⟩
  have hmapped := screenRun_mapped hboot before
  exact ⟨hmapped.kernel, hmapped.user⟩

end Console

end StudentDistrib
