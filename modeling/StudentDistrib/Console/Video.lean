import StudentDistrib.Basic

/-!
# Video memory and the paging that selects it

The globals of `lib.c`, `paging.c` and `scheduling.c` that decide where a byte is
drawn, and the functions that draw or remap: `putc`, `keyboardputc`, `clear`,
`set_paging_scheduling` and `terminal_changing`.

`mem` is physical memory.  The kernel writes text through the virtual page at
`VIDEO`, which `page_table[VIDEO/FourKB]` maps to a physical page, and a user
program through the page at 132 MB, which `video_page_table[0]` maps.  Entries of
`page_table` after `VIDEO` map the three save pages to themselves.  `tlbFlush`
has no counterpart: a translation is read from the tables at every access.
`update_cursor` only writes to the CRT controller's ports.
-/

namespace StudentDistrib

open Machine

structure Video where
  mem : Bytes
  /-- `page_table[VIDEO/FourKB].p_address`. -/
  pageTable : Int
  /-- `video_page_table[0].p_address`. -/
  videoPageTable : Int
  termScreenx : Term → Int
  termScreeny : Term → Int
  currentTerminal : Term
  scheduledTerm : Term
  termReadFlag : Term → Bool
  keyboardPutCFlag : Bool
  interruptFlag : Bool

/-! ## Memory behind the page tables -/

/-- The physical page of the displayed screen. -/
def videoFrame : Int := video / fourKB

/-- The physical page that keeps the screen of a terminal that is not displayed. -/
def saveFrame (t : Term) : Int := (video + ((t : Nat) + 1 : Int) * fourKB) / fourKB

/-- The physical address of a kernel virtual address when `page_table` maps
`VIDEO` to `frame`. -/
def translate (frame a : Int) : Int :=
  if a / fourKB = video / fourKB then frame * fourKB + a % fourKB else a

def peek (frame a : Int) (mem : Bytes) : UInt8 := mem (translate frame a)

def poke (frame a : Int) (b : UInt8) (mem : Bytes) : Bytes :=
  Function.update mem (translate frame a) b

/-- `video_mem + ((NUM_COLS * y + x) << 1)`. -/
def cellAddr (y x : Int) : Int := video + 2 * (numCols * y + x)

/-- A character and its attribute byte.  Above the screen the store is a page fault in the
source: `Console.KeyFaults` and `Console.WriteFaults` say when it comes to that. -/
def drawCell (frame y x : Int) (c : UInt8) (mem : Bytes) : Bytes :=
  poke frame (cellAddr y x + 1) attrib (poke frame (cellAddr y x) c mem)

/-- One step of the loop that moves every row up by one. -/
def scrollCell (frame i j : Int) (mem : Bytes) : Bytes :=
  drawCell frame i j (peek frame (cellAddr (i + 1) j) mem) mem

def scrollRow (frame i : Int) (mem : Bytes) : Bytes :=
  (List.range 80).foldl (fun m (j : Nat) => scrollCell frame i j m) mem

def scrollRows (frame : Int) (mem : Bytes) : Bytes :=
  (List.range 24).foldl (fun m (i : Nat) => scrollRow frame i m) mem

/-- Every row moved up by one and the last row set to null bytes. -/
def scroll (frame : Int) (mem : Bytes) : Bytes :=
  (List.range 80).foldl (fun m (j : Nat) => drawCell frame 24 j 0 m) (scrollRows frame mem)

/-- `memcpy` between kernel virtual addresses, byte by byte. -/
def memcpy (frame dst src : Int) (n : Nat) (mem : Bytes) : Bytes :=
  (List.range n).foldl (fun m (i : Nat) => poke frame (dst + i) (peek frame (src + i) m) m) mem

namespace Video

def cli (v : Video) : Video := { v with interruptFlag := false }

def sti (v : Video) : Video := { v with interruptFlag := true }

/-! ## Output -/

def setCursor (t : Term) (x y : Int) (v : Video) : Video :=
  { v with
    termScreenx := Function.update v.termScreenx t x,
    termScreeny := Function.update v.termScreeny t y }

/-- The branch of `putc` for a backspace.  It addresses the cursor of the
displayed terminal whoever prints. -/
def putBackspace (bufIdx : Int) (v : Video) : Video :=
  let t := v.currentTerminal
  let x := v.termScreenx t
  let y := v.termScreeny t
  if x = 0 ∧ y = 0 then v
  else
    let x := x - 1
    let v := { v with mem := drawCell v.pageTable y x space v.mem }
    let x := x.tmod numCols
    if ¬(x = 0 ∧ bufIdx = 0) then v.setCursor t x ((y + x.tdiv numCols).tmod numRows)
    else v.setCursor t x (y - 1)

/-- The branch of `putc` for a line break. -/
def putNewline (t : Term) (v : Video) : Video :=
  v.setCursor t 0 (v.termScreeny t + 1)

/-- The branch of `putc` for every other character. -/
def putGlyph (t : Term) (c : UInt8) (v : Video) : Video :=
  let x := v.termScreenx t
  let y := v.termScreeny t
  let v := { v with mem := drawCell v.pageTable y x c v.mem }
  if x + 1 ≥ numCols then v.setCursor t 0 (y + 1) else v.setCursor t (x + 1) y

def scrollIfNeeded (t : Term) (v : Video) : Video :=
  if v.termScreeny t > numRows - 1 then
    { v with mem := scroll v.pageTable v.mem }.setCursor t 0 (numRows - 1)
  else v

def putc (bufIdx : Int) (c : UInt8) (v : Video) : Video :=
  let v := v.cli
  let putTerminal := if v.keyboardPutCFlag then v.currentTerminal else v.scheduledTerm
  if c = backspaceAscii then (v.putBackspace bufIdx).sti
  else if c = newline ∨ c = carriageReturn then
    ((v.putNewline putTerminal).scrollIfNeeded putTerminal).sti
  else ((v.putGlyph putTerminal c).scrollIfNeeded putTerminal).sti

/-- `printf` of a text without conversions. -/
def printf (bufIdx : Int) (text : List UInt8) (v : Video) : Video :=
  text.foldl (fun v c => v.putc bufIdx c) v

def keyboardputc (bufIdx : Int) (c : UInt8) (v : Video) : Video :=
  if v.termReadFlag v.currentTerminal then
    let oldAddr := v.pageTable
    let v := { v with pageTable := videoFrame, keyboardPutCFlag := true }.putc bufIdx c
    { v with keyboardPutCFlag := false, pageTable := oldAddr }
  else v

/-- `clear`, which maps `VIDEO` to itself while it writes. -/
def clear (v : Video) : Video :=
  { v with
    mem := (List.range 2000).foldl (fun m (i : Nat) => drawCell videoFrame 0 i space m) v.mem
    }.setCursor v.currentTerminal 0 0

def clearHelp (bufIdx : Int) (v : Video) : Video :=
  v.setCursor v.currentTerminal bufIdx 0

/-! ## Paging -/

def setPagingScheduling (currTerm : Term) (v : Video) : Video :=
  if v.scheduledTerm = currTerm then
    { v with videoPageTable := videoFrame, pageTable := videoFrame }
  else
    { v with videoPageTable := saveFrame v.scheduledTerm, pageTable := saveFrame v.scheduledTerm }

/-- `terminal_changing`, with `recentTermChoice[1]` as an argument.  The two
copies run while `VIDEO` is mapped to itself. -/
def terminalChanging (choice : Term) (v : Video) : Video :=
  if choice ≠ v.currentTerminal then
    let nextAddress := video + ((choice : Nat) + 1 : Int) * fourKB
    let prevAddress := video + ((v.currentTerminal : Nat) + 1 : Int) * fourKB
    let mem := memcpy videoFrame prevAddress video 4096 v.mem
    { v with mem := memcpy videoFrame video nextAddress 4096 mem, currentTerminal := choice }
  else v

/-- The mapping that `vidmap` installs, as in `set_paging_scheduling`. -/
def vidmapPage (v : Video) : Video :=
  { v with
    videoPageTable :=
      if v.scheduledTerm = v.currentTerminal then videoFrame else saveFrame v.scheduledTerm }

/-- A store by a user program at `offset` in its video page. -/
def vidmapStore (offset : Int) (b : UInt8) (v : Video) : Video :=
  { v with mem := Function.update v.mem (v.videoPageTable * fourKB + offset) b }

/-- Bytes stored from the start of that page on. -/
def vidmapCopy (bytes : List UInt8) (v : Video) : Video :=
  bytes.zipIdx.foldl (fun v p => v.vidmapStore p.2 p.1) v

/-! ## Boot -/

/-- The screen after `paging_init` and the `clear` that follows it. -/
def init (mem : Bytes) : Video :=
  clear
    { mem
      pageTable := videoFrame
      videoPageTable := videoFrame
      termScreenx := fun _ => 0
      termScreeny := fun _ => 0
      currentTerminal := 0
      scheduledTerm := 0
      termReadFlag := fun _ => false
      keyboardPutCFlag := false
      interruptFlag := false }

/-! ## What drawing leaves alone

Drawing a character writes memory and cursors only.  The rest of the state says
which terminal and which page an access reaches. -/

structure Selection where
  currentTerminal : Term
  scheduledTerm : Term
  termReadFlag : Term → Bool
  pageTable : Int
  videoPageTable : Int
  keyboardPutCFlag : Bool

def selection (v : Video) : Selection :=
  { currentTerminal := v.currentTerminal
    scheduledTerm := v.scheduledTerm
    termReadFlag := v.termReadFlag
    pageTable := v.pageTable
    videoPageTable := v.videoPageTable
    keyboardPutCFlag := v.keyboardPutCFlag }

theorem putBackspace_selection (bufIdx : Int) (v : Video) :
    (v.putBackspace bufIdx).selection = v.selection := by
  unfold putBackspace
  dsimp only
  split
  · rfl
  · split <;> rfl

theorem putGlyph_selection (t : Term) (c : UInt8) (v : Video) :
    (v.putGlyph t c).selection = v.selection := by
  unfold putGlyph
  dsimp only
  split <;> rfl

theorem scrollIfNeeded_selection (t : Term) (v : Video) :
    (v.scrollIfNeeded t).selection = v.selection := by
  unfold scrollIfNeeded
  split <;> rfl

theorem sti_selection (v : Video) : v.sti.selection = v.selection := rfl

theorem putc_selection (bufIdx : Int) (c : UInt8) (v : Video) :
    (v.putc bufIdx c).selection = v.selection := by
  unfold putc
  dsimp only
  split
  · rw [sti_selection, putBackspace_selection]
    rfl
  · split
    · rw [sti_selection, scrollIfNeeded_selection]
      rfl
    · rw [sti_selection, scrollIfNeeded_selection, putGlyph_selection]
      rfl

theorem printf_selection (bufIdx : Int) (text : List UInt8) (v : Video) :
    (v.printf bufIdx text).selection = v.selection := by
  unfold printf
  induction text generalizing v with
  | nil => rfl
  | cons c text ih => rw [List.foldl_cons, ih, putc_selection]

theorem vidmapCopy_selection (bytes : List UInt8) (v : Video) :
    (v.vidmapCopy bytes).selection = v.selection := by
  unfold vidmapCopy
  induction bytes.zipIdx generalizing v with
  | nil => rfl
  | cons p l ih => exact ih (v.vidmapStore p.2 p.1)

@[simp] theorem vidmapCopy_currentTerminal (bytes : List UInt8) (v : Video) :
    (v.vidmapCopy bytes).currentTerminal = v.currentTerminal :=
  congrArg Selection.currentTerminal (vidmapCopy_selection bytes v)

theorem clear_selection (v : Video) : v.clear.selection = v.selection := by
  simp only [clear, setCursor, selection]

theorem init_selection (mem : Bytes) : (init mem).selection =
    { currentTerminal := 0
      scheduledTerm := 0
      termReadFlag := fun _ => false
      pageTable := videoFrame
      videoPageTable := videoFrame
      keyboardPutCFlag := false } := by
  unfold init
  rw [clear_selection]
  rfl

theorem init_currentTerminal (mem : Bytes) : (init mem).currentTerminal = 0 :=
  congrArg Selection.currentTerminal (init_selection mem)

theorem init_scheduledTerm (mem : Bytes) : (init mem).scheduledTerm = 0 :=
  congrArg Selection.scheduledTerm (init_selection mem)

theorem putc_termReadFlag (bufIdx : Int) (c : UInt8) (v : Video) :
    (v.putc bufIdx c).termReadFlag = v.termReadFlag :=
  congrArg Selection.termReadFlag (putc_selection bufIdx c v)

theorem putc_scheduledTerm (bufIdx : Int) (c : UInt8) (v : Video) :
    (v.putc bufIdx c).scheduledTerm = v.scheduledTerm :=
  congrArg Selection.scheduledTerm (putc_selection bufIdx c v)

theorem printf_scheduledTerm (bufIdx : Int) (text : List UInt8) (v : Video) :
    (v.printf bufIdx text).scheduledTerm = v.scheduledTerm :=
  congrArg Selection.scheduledTerm (printf_selection bufIdx text v)

theorem keyboardputc_currentTerminal (bufIdx : Int) (c : UInt8) (v : Video) :
    (v.keyboardputc bufIdx c).currentTerminal = v.currentTerminal := by
  unfold keyboardputc
  split
  · exact congrArg Selection.currentTerminal (putc_selection bufIdx c _)
  · rfl

theorem keyboardputc_scheduledTerm (bufIdx : Int) (c : UInt8) (v : Video) :
    (v.keyboardputc bufIdx c).scheduledTerm = v.scheduledTerm := by
  unfold keyboardputc
  split
  · exact congrArg Selection.scheduledTerm (putc_selection bufIdx c _)
  · rfl

theorem keyboardputc_termReadFlag (bufIdx : Int) (c : UInt8) (v : Video) :
    (v.keyboardputc bufIdx c).termReadFlag = v.termReadFlag := by
  unfold keyboardputc
  split
  · exact putc_termReadFlag bufIdx c _
  · rfl

theorem terminalChanging_currentTerminal (choice : Term) (v : Video) :
    (v.terminalChanging choice).currentTerminal = choice := by
  unfold terminalChanging
  split
  · rfl
  · rename_i h
    exact (not_not.mp h).symm

theorem terminalChanging_scheduledTerm (choice : Term) (v : Video) :
    (v.terminalChanging choice).scheduledTerm = v.scheduledTerm := by
  unfold terminalChanging
  split <;> rfl

theorem setPagingScheduling_currentTerminal (t : Term) (v : Video) :
    (v.setPagingScheduling t).currentTerminal = v.currentTerminal := by
  unfold setPagingScheduling
  split <;> rfl

theorem setPagingScheduling_scheduledTerm (t : Term) (v : Video) :
    (v.setPagingScheduling t).scheduledTerm = v.scheduledTerm := by
  unfold setPagingScheduling
  split <;> rfl

end Video

end StudentDistrib
