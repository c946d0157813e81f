import StudentDistrib.Console.Background
import StudentDistrib.Console.Unmapped

/-!
# Typing a character and erasing it

A character and a Backspace, each with its echo, on a terminal that is being read.
The line comes back, and the cell is blank, wherever the cursor was.  The backspace
branch of `putc` finds the cell that the character went to also across the end of a
row, but not the cursor's column there, and on an empty line it leaves the first
column's row.
-/

namespace StudentDistrib

open Machine

def backspacePress : UInt8 := 0x0E

/-- A character with a shape, the space among them. -/
def Graphic (b : UInt8) : Prop := 0x20 ≤ b ∧ b ≤ 0x7E

theorem Graphic.ne {b : UInt8} (h : Graphic b) :
    b ≠ 0 ∧ b ≠ backspaceAscii ∧ b ≠ newline ∧ b ≠ carriageReturn := by
  obtain ⟨hlow, -⟩ := h
  refine ⟨?_, ?_, ?_, ?_⟩ <;> rintro rfl <;> exact absurd hlow (by decide)

namespace Video

/-! ## The two echoes -/

/-- The column and the row after a character at `x` and `y`, before any scrolling. -/
def nextColumn (x : Int) : Int := if x + 1 ≥ numCols then 0 else x + 1

def nextRow (x y : Int) : Int := if x + 1 ≥ numCols then y + 1 else y

/-- A character that does not scroll the screen. -/
theorem print_glyph {v : Video} {t : Term} {c : UInt8} (hc : c ≠ newline ∧ c ≠ carriageReturn)
    (hrow : nextRow (v.termScreenx t) (v.termScreeny t) < numRows) : v.print t c =
    { v with mem := drawCell v.pageTable (v.termScreeny t) (v.termScreenx t) c v.mem }.setCursor t
      (nextColumn (v.termScreenx t)) (nextRow (v.termScreenx t) (v.termScreeny t)) := by
  have hglyph : v.putGlyph t c =
      { v with mem := drawCell v.pageTable (v.termScreeny t) (v.termScreenx t) c v.mem }.setCursor
        t (nextColumn (v.termScreenx t)) (nextRow (v.termScreenx t) (v.termScreeny t)) := by
    unfold putGlyph nextColumn nextRow
    dsimp only
    split <;> rfl
  have hlast : ¬ (v.putGlyph t c).termScreeny t > numRows - 1 := by
    rw [hglyph]
    simp only [setCursor, Function.update_self]
    omega
  unfold print scrollIfNeeded
  rw [if_neg (not_or.mpr hc), if_neg hlast, hglyph]

/-- The echo of a character that does not scroll the screen. -/
theorem keyboardputc_glyph {v : Video} (hread : v.termReadFlag v.currentTerminal = true)
    (bufIdx : Int) {b : UInt8} (hb : b ≠ backspaceAscii ∧ b ≠ newline ∧ b ≠ carriageReturn)
    (hrow : nextRow (v.termScreenx v.currentTerminal) (v.termScreeny v.currentTerminal) <
      numRows) :
    v.keyboardputc bufIdx b =
      { v with
        mem := drawCell videoFrame (v.termScreeny v.currentTerminal)
          (v.termScreenx v.currentTerminal) b v.mem
        keyboardPutCFlag := false
        interruptFlag := true }.setCursor v.currentTerminal
          (nextColumn (v.termScreenx v.currentTerminal))
          (nextRow (v.termScreenx v.currentTerminal) (v.termScreeny v.currentTerminal)) := by
  unfold keyboardputc
  dsimp only
  rw [if_pos hread, putc_echo bufIdx hb.1 rfl, print_glyph hb.2]
  · rfl
  · exact hrow

/-- The row after a backspace that stops in column `x`. -/
def rowBack (bufIdx x y : Int) : Int :=
  if ¬ (x = 0 ∧ bufIdx = 0) then (y + x.tdiv numCols).tmod numRows else y - 1

theorem putBackspace_eq {v : Video} (bufIdx : Int) (horigin : ¬ v.AtOrigin) :
    v.putBackspace bufIdx =
      { v with
        mem := drawCell v.pageTable (v.termScreeny v.currentTerminal)
          (v.termScreenx v.currentTerminal - 1) space v.mem
        }.setCursor v.currentTerminal
          ((v.termScreenx v.currentTerminal - 1).tmod numCols)
          (rowBack bufIdx ((v.termScreenx v.currentTerminal - 1).tmod numCols)
            (v.termScreeny v.currentTerminal)) := by
  have hmoves : ¬ (v.termScreenx v.currentTerminal = 0 ∧ v.termScreeny v.currentTerminal = 0) :=
    horigin
  unfold putBackspace rowBack
  dsimp only
  rw [if_neg hmoves]
  split <;> rfl

/-- The echo of a backspace. -/
theorem keyboardputc_backspace {v : Video} (hread : v.termReadFlag v.currentTerminal = true)
    (bufIdx : Int) (horigin : ¬ v.AtOrigin) :
    v.keyboardputc bufIdx backspaceAscii =
      { v with
        mem := drawCell videoFrame (v.termScreeny v.currentTerminal)
          (v.termScreenx v.currentTerminal - 1) space v.mem
        keyboardPutCFlag := false
        interruptFlag := true }.setCursor v.currentTerminal
          ((v.termScreenx v.currentTerminal - 1).tmod numCols)
          (rowBack bufIdx ((v.termScreenx v.currentTerminal - 1).tmod numCols)
            (v.termScreeny v.currentTerminal)) := by
  unfold keyboardputc
  dsimp only
  rw [if_pos hread, putc_body]
  unfold putcBody
  rw [if_pos rfl, putBackspace_eq]
  · rfl
  · exact horigin

/-- The two echoes at `x` and `y`: both draw the cell there, across the end of a row
too. -/
theorem keyboardputc_twice {v : Video} (hread : v.termReadFlag v.currentTerminal = true)
    (bufIdx : Int) {b : UInt8} (hb : b ≠ backspaceAscii ∧ b ≠ newline ∧ b ≠ carriageReturn)
    {x y : Int} (hx : v.termScreenx v.currentTerminal = x)
    (hy : v.termScreeny v.currentTerminal = y) (hcol : 0 ≤ x ∧ x < numCols) (hpos : 0 ≤ y)
    (hrow : nextRow x y < numRows) :
    (v.keyboardputc bufIdx b).cli.keyboardputc bufIdx backspaceAscii =
      { v with
        mem := drawCell videoFrame y x space (drawCell videoFrame y x b v.mem)
        keyboardPutCFlag := false
        interruptFlag := true }.setCursor v.currentTerminal
          ((nextColumn x - 1).tmod numCols)
          (rowBack bufIdx ((nextColumn x - 1).tmod numCols) (nextRow x y)) := by
  have hcols : numCols = 80 := rfl
  have hcell : ∀ c m, drawCell videoFrame (nextRow x y) (nextColumn x - 1) c m
      = drawCell videoFrame y x c m := by
    intro c m
    have haddr : cellAddr (nextRow x y) (nextColumn x - 1) = cellAddr y x := by
      unfold cellAddr nextRow nextColumn
      split
      · have hlast : x = 79 := by omega
        rw [hlast, hcols]
        omega
      · omega
    simp only [drawCell, haddr]
  subst hx
  subst hy
  rw [keyboardputc_glyph hread bufIdx hb hrow, keyboardputc_backspace]
  · simp only [cli, setCursor, Function.update_self, Function.update_idem, hcell]
  · exact hread
  · simp only [AtOrigin, cli, setCursor, Function.update_self]
    unfold nextColumn nextRow
    split <;> omega

theorem nextColumn_back {x : Int} (hcol : 0 ≤ x ∧ x < numCols) :
    (nextColumn x - 1).tmod numCols = if x = numCols - 1 then -1 else x := by
  have hcols : numCols = 80 := rfl
  unfold nextColumn
  by_cases hlast : x = numCols - 1
  · rw [if_pos (by omega), if_pos hlast, hcols]
    rfl
  · rw [if_neg (by omega), if_neg hlast, Int.add_sub_cancel]
    exact Int.tmod_eq_of_lt hcol.1 hcol.2

theorem rowBack_back {x y : Int} (bufIdx : Int) (hcol : 0 ≤ x ∧ x < numCols) (hpos : 0 ≤ y)
    (hrow : nextRow x y < numRows) :
    rowBack bufIdx ((nextColumn x - 1).tmod numCols) (nextRow x y) =
      if x = 0 ∧ bufIdx = 0 then y - 1 else nextRow x y := by
  have hcols : numCols = 80 := rfl
  have hnext : 0 ≤ nextRow x y := by
    unfold nextRow
    split <;> omega
  rw [nextColumn_back hcol]
  unfold rowBack
  by_cases hlast : x = numCols - 1
  · have hdiv : (-1 : Int).tdiv numCols = 0 := by
      rw [hcols]
      rfl
    rw [if_pos hlast, if_pos (by omega), if_neg (by omega), hdiv, Int.add_zero]
    exact Int.tmod_eq_of_lt hnext hrow
  · have hsame : nextRow x y = y := if_neg (by omega)
    rw [if_neg hlast, hsame]
    by_cases hempty : x = 0 ∧ bufIdx = 0
    · rw [if_neg (not_not.mpr hempty), if_pos hempty]
    · rw [if_pos hempty, if_neg hempty, Int.tdiv_eq_zero_of_lt hcol.1 hcol.2, Int.add_zero]
      exact Int.tmod_eq_of_lt hpos (hsame ▸ hrow)

end Video

namespace Keyboard

/-- A character appended and erased leaves the line, whose end is a null byte. -/
theorem append_erase {k : Keyboard} (b : UInt8) (hidx : 0 ≤ k.bufIdx)
    (hend : k.keyboardBuf k.bufIdx = 0) :
    (k.append b).erase.bufIdx = k.bufIdx ∧ (k.append b).erase.keyboardBuf = k.keyboardBuf := by
  have hback : k.bufIdx + 1 - 1 = k.bufIdx := by omega
  have hpos : (k.append b).bufIdx > 0 := by
    show k.bufIdx + 1 > 0
    omega
  unfold erase
  rw [if_pos hpos]
  refine ⟨hback, ?_⟩
  show Function.update (Function.update k.keyboardBuf k.bufIdx b) (k.bufIdx + 1 - 1) 0 = _
  rw [hback, Function.update_idem, ← hend, Function.update_eq_self]

/-- The scancode types the character `b`. -/
def Types (scan : UInt8) (b : UInt8) (k : Keyboard) : Prop :=
  (keyOf scan = .space ∧ b = space) ∨
    (keyOf scan = .other ∧ ¬ (k.ctrlState = true ∧ scan = lPress) ∧
      scancodeHelper k.capslockFlag k.capitalFlag scan = some b)

end Keyboard

namespace Console

/-- A character typed where the line has room. -/
theorem keyboardHandler_types {c : Console} {scan b : UInt8} (hkey : c.kb.Types scan b)
    (hroom : c.kb.bufIdx < bufsize - 1) :
    ∃ log, c.keyboardHandler scan =
      { vid := (c.vid.cli.keyboardputc c.kb.bufIdx b).sti
        kb := ({ c.kb with tableLog := log } : Keyboard).append b } := by
  rcases hkey with ⟨hspace, rfl⟩ | ⟨hother, hctrl, hb⟩
  · refine ⟨c.kb.tableLog, ?_⟩
    unfold keyboardHandler
    rw [hspace]
    simp only [spaceHelper, storeAtIdx, echoAtIdx, keyboardputc, advance, sti, cli,
      Keyboard.store, Keyboard.append, Function.update_self]
  · refine ⟨scan.toNat :: c.kb.tableLog, ?_⟩
    have hctrl' : ¬ (c.cli.kb.ctrlState = true ∧ scan = lPress) := hctrl
    have hb' : scancodeHelper c.cli.kb.capslockFlag c.cli.kb.capitalFlag scan = some b := hb
    have hroom' : ¬ c.cli.kb.bufIdx ≥ bufsize - 1 := Int.not_le.mpr hroom
    unfold keyboardHandler
    rw [hother]
    dsimp only
    rw [if_neg hctrl']
    unfold typeKey
    rw [if_neg hroom', hb']
    simp only [storeAtIdx, echoAtIdx, keyboardputc, advance, sti, cli,
      Keyboard.store, Keyboard.append, Function.update_self]

theorem keyboardHandler_backspace {c : Console} (hpos : 0 < c.kb.bufIdx) :
    c.keyboardHandler backspacePress =
      { vid := (c.vid.cli.keyboardputc (c.kb.bufIdx - 1) backspaceAscii).sti
        kb := c.kb.erase } := by
  have hhelper : c.keyboardHandler backspacePress = c.cli.backspaceHelper := rfl
  have hpos' : c.cli.kb.bufIdx > 0 := hpos
  rw [hhelper]
  unfold backspaceHelper Keyboard.erase
  rw [if_pos hpos', if_pos hpos]
  rfl

/-- What typing a character and erasing it must leave as it was. -/
structure Restores (c c' : Console) : Prop where
  cursor : c'.vid.termScreenx c.vid.currentTerminal = c.vid.termScreenx c.vid.currentTerminal ∧
    c'.vid.termScreeny c.vid.currentTerminal = c.vid.termScreeny c.vid.currentTerminal
  idx : c'.kb.bufIdx = c.kb.bufIdx
  line : c'.kb.keyboardBuf = c.kb.keyboardBuf
  blank : c'.vid.mem (cellAddr (c.vid.termScreeny c.vid.currentTerminal)
      (c.vid.termScreenx c.vid.currentTerminal)) = space ∧
    c'.vid.mem (cellAddr (c.vid.termScreeny c.vid.currentTerminal)
      (c.vid.termScreenx c.vid.currentTerminal) + 1) = attrib
  others : ∀ a, a ∉ Video.cellStores (c.vid.termScreeny c.vid.currentTerminal)
      (c.vid.termScreenx c.vid.currentTerminal) → c'.vid.mem a = c.vid.mem a

/-- A character typed and erased. -/
def typedErased (scan : UInt8) (c : Console) : Console :=
  (c.keyboardHandler scan).keyboardHandler backspacePress

/-- The displayed terminal is being read, with its cursor on the screen but not in the last
cell, and the line has room for a character. -/
structure Ready (c : Console) : Prop where
  reading : c.vid.termReadFlag c.vid.currentTerminal = true
  inRange : (c.vid.screenOf c.vid.currentTerminal).InRange
  notLast : ¬ (c.vid.termScreenx c.vid.currentTerminal = numCols - 1 ∧
    c.vid.termScreeny c.vid.currentTerminal = numRows - 1)
  idx : 0 ≤ c.kb.bufIdx ∧ c.kb.bufIdx < bufsize - 1
  line : c.kb.Ended

/-- The line and the screen after a character was typed and erased. -/
structure Erased (c c' : Console) : Prop where
  idx : c'.kb.bufIdx = c.kb.bufIdx
  line : c'.kb.keyboardBuf = c.kb.keyboardBuf
  mem : ∃ b, c'.vid.mem = drawCell videoFrame (c.vid.termScreeny c.vid.currentTerminal)
    (c.vid.termScreenx c.vid.currentTerminal) space (drawCell videoFrame
      (c.vid.termScreeny c.vid.currentTerminal) (c.vid.termScreenx c.vid.currentTerminal) b
      c.vid.mem)
  column : c'.vid.termScreenx c.vid.currentTerminal =
    if c.vid.termScreenx c.vid.currentTerminal = numCols - 1 then -1
    else c.vid.termScreenx c.vid.currentTerminal
  row : c'.vid.termScreeny c.vid.currentTerminal =
    if c.vid.termScreenx c.vid.currentTerminal = 0 ∧ c.kb.bufIdx = 0 then
      c.vid.termScreeny c.vid.currentTerminal - 1
    else Video.nextRow (c.vid.termScreenx c.vid.currentTerminal)
      (c.vid.termScreeny c.vid.currentTerminal)

theorem typedErased_erased {c : Console} (h : c.Ready) {scan b : UInt8} (hkey : c.kb.Types scan b)
    (hb : Graphic b) : Erased c (c.typedErased scan) := by
  have hcols : numCols = 80 := rfl
  have hrows : numRows = 25 := rfl
  obtain ⟨hx, hy⟩ : (0 ≤ c.vid.termScreenx c.vid.currentTerminal ∧
      c.vid.termScreenx c.vid.currentTerminal < numCols) ∧
    0 ≤ c.vid.termScreeny c.vid.currentTerminal ∧
      c.vid.termScreeny c.vid.currentTerminal < numRows := h.inRange
  have hlast := h.notLast
  obtain ⟨hzero, hback, hnewline, hreturn⟩ := hb.ne
  obtain ⟨log, htyped⟩ := keyboardHandler_types hkey h.idx.2
  have hrow : Video.nextRow (c.vid.termScreenx c.vid.currentTerminal)
      (c.vid.termScreeny c.vid.currentTerminal) < numRows := by
    unfold Video.nextRow
    split <;> omega
  have hidx : c.kb.bufIdx + 1 - 1 = c.kb.bufIdx := by omega
  have herased : c.typedErased scan =
      { vid := ((c.vid.cli.keyboardputc c.kb.bufIdx b).cli.keyboardputc c.kb.bufIdx
          backspaceAscii).sti
        kb := (({ c.kb with tableLog := log } : Keyboard).append b).erase } := by
    have hroom : 0 < c.kb.bufIdx + 1 := by
      have := h.idx.1
      omega
    unfold typedErased
    rw [htyped, keyboardHandler_backspace hroom]
    show Console.mk (Video.keyboardputc (c.kb.bufIdx + 1 - 1) _ _).sti _ = _
    rw [hidx]
    rfl
  have hend : c.kb.keyboardBuf c.kb.bufIdx = 0 := by
    have hfull := h.idx.2
    exact (h.line c.kb.bufIdx h.idx.1 (by omega)).mpr (Int.le_refl _)
  obtain ⟨hline, hbuf⟩ := Keyboard.append_erase (k := { c.kb with tableLog := log }) b h.idx.1 hend
  have htwice := Video.keyboardputc_twice (v := c.vid.cli) h.reading c.kb.bufIdx
    ⟨hback, hnewline, hreturn⟩ rfl rfl hx hy.1 hrow
  rw [herased, htwice]
  refine ⟨hline, hbuf, ⟨b, rfl⟩, ?_, ?_⟩
  · show Function.update c.vid.termScreenx c.vid.currentTerminal _ c.vid.currentTerminal = _
    rw [Function.update_self]
    exact Video.nextColumn_back hx
  · show Function.update c.vid.termScreeny c.vid.currentTerminal _ c.vid.currentTerminal = _
    rw [Function.update_self]
    exact Video.rowBack_back c.kb.bufIdx hx hy.1 hrow

/-- The cursor comes back where the character did not wrap and was not the first of a
line that began in the first column. -/
theorem Erased.restored_iff {c c' : Console} (h : Erased c c') (hready : c.Ready) :
    Restores c c' ↔ c.vid.termScreenx c.vid.currentTerminal ≠ numCols - 1 ∧
      ¬ (c.vid.termScreenx c.vid.currentTerminal = 0 ∧ c.kb.bufIdx = 0) := by
  have hcols : numCols = 80 := rfl
  constructor
  · intro hrestores
    obtain ⟨hx, hy⟩ := hrestores.cursor
    have hcolumn := h.column
    have hrow := h.row
    refine ⟨fun hlast => ?_, fun hfirst => ?_⟩
    · rw [if_pos hlast] at hcolumn
      omega
    · rw [if_pos hfirst] at hrow
      omega
  · intro hwhere
    obtain ⟨hlast, hfirst⟩ := hwhere
    obtain ⟨b, hmem⟩ := h.mem
    obtain ⟨h0, hlt⟩ : 0 ≤ Screen.offset (c.vid.termScreeny c.vid.currentTerminal)
        (c.vid.termScreenx c.vid.currentTerminal) ∧
      Screen.offset (c.vid.termScreeny c.vid.currentTerminal)
        (c.vid.termScreenx c.vid.currentTerminal) + 1 < 4000 :=
      Screen.offset_bounds hready.inRange
    have hpage : fourKB = 4096 := rfl
    have hcell := drawCell_apply (y := c.vid.termScreeny c.vid.currentTerminal)
      (x := c.vid.termScreenx c.vid.currentTerminal) videoFrame h0 (by omega)
    have hbase : videoFrame * fourKB = video := by
      rw [videoFrame_eq]
      rfl
    have haddr : cellAddr (c.vid.termScreeny c.vid.currentTerminal)
        (c.vid.termScreenx c.vid.currentTerminal) = videoFrame * fourKB + Screen.offset
          (c.vid.termScreeny c.vid.currentTerminal)
          (c.vid.termScreenx c.vid.currentTerminal) := by
      rw [hbase]
      rfl
    refine
      { cursor := ?_
        idx := h.idx
        line := h.line
        blank := ?_
        others := fun a ha => ?_ }
    · rw [h.column, h.row, if_neg hlast, if_neg hfirst]
      have hx : c.vid.termScreenx c.vid.currentTerminal < numCols := hready.inRange.1.2
      exact ⟨rfl, if_neg (by omega)⟩
    · rw [hmem, haddr]
      constructor
      · rw [hcell]
        exact if_pos rfl
      · rw [hcell, if_neg (by omega)]
        exact if_pos rfl
    · simp only [Video.cellStores, List.mem_cons, List.not_mem_nil, or_false, not_or, haddr] at ha
      rw [hmem, hcell, hcell, if_neg ha.1, if_neg ha.2, if_neg ha.1, if_neg ha.2]

/-- Backspace undoes a typed character exactly where the character did not wrap and was
not the first of a line that began in the first column. -/
theorem restores_iff {c : Console} (h : c.Ready) {scan b : UInt8} (hkey : c.kb.Types scan b)
    (hb : Graphic b) :
    Restores c (c.typedErased scan) ↔
      c.vid.termScreenx c.vid.currentTerminal ≠ numCols - 1 ∧
        ¬ (c.vid.termScreenx c.vid.currentTerminal = 0 ∧ c.kb.bufIdx = 0) :=
  (typedErased_erased h hkey hb).restored_iff h

/-- A terminal that is being read, with an empty line and its cursor at `x` and `y`. -/
def readingAt (x y : Int) : Console :=
  { vid :=
      { mem := Bytes.ofList []
        pageTable := videoFrame
        videoPageTable := videoFrame
        termScreenx := fun _ => x
        termScreeny := fun _ => y
        currentTerminal := 0
        scheduledTerm := 0
        termReadFlag := fun _ => true
        keyboardPutCFlag := false
        interruptFlag := true }
    kb := Keyboard.init }

theorem readingAt_ready {x y : Int} (hx : 0 ≤ x ∧ x < numCols) (hy : 0 ≤ y ∧ y < numRows)
    (hlast : ¬ (x = numCols - 1 ∧ y = numRows - 1)) : (readingAt x y).Ready where
  reading := rfl
  inRange := ⟨hx, hy⟩
  notLast := hlast
  idx := by
    show 0 ≤ Keyboard.init.bufIdx ∧ Keyboard.init.bufIdx < bufsize - 1
    decide
  line := Keyboard.init_linesEnded.line

/-- The letter A on an empty line. -/
theorem readingAt_types (x y : Int) : (readingAt x y).kb.Types 0x1E 0x61 := by
  show Keyboard.init.Types 0x1E 0x61
  exact Or.inr ⟨rfl, by decide, by decide⟩

theorem graphic_letter : Graphic 0x61 := ⟨by decide, by decide⟩

/-- The letter A typed and erased in the sixth column. -/
theorem restores_letter : Restores (readingAt 5 0) ((readingAt 5 0).typedErased 0x1E) := by
  have hready : (readingAt 5 0).Ready := readingAt_ready (by decide) (by decide) (by decide)
  refine (restores_iff hready (readingAt_types 5 0) graphic_letter).mpr ?_
  show (5 : Int) ≠ numCols - 1 ∧ ¬ ((5 : Int) = 0 ∧ _)
  decide

/-- The letter A typed and erased on an empty line that begins in the first column. -/
theorem first_letter_leaves_row : ¬ ∀ (c : Console) (scan b : UInt8), c.Ready →
    c.kb.Types scan b → Graphic b → Restores c (c.typedErased scan) := by
  intro h
  have hready : (readingAt 0 0).Ready := readingAt_ready (by decide) (by decide) (by decide)
  have hrestores := h (readingAt 0 0) 0x1E 0x61 hready (readingAt_types 0 0) graphic_letter
  have herased := typedErased_erased hready (readingAt_types 0 0) graphic_letter
  exact ((herased.restored_iff hready).mp hrestores).2 ⟨rfl, rfl⟩

end Console

end StudentDistrib
