import StudentDistrib.Console.Press

/-!
# Three screens behind one page of video memory

`Screen` is a private screen: 4096 bytes and a cursor.  The logical screen of a
terminal is the page at `VIDEO` while it is displayed and its save page otherwise.
A character drawn by the scheduled process, an echo, a store through the video
page, a switch and a timer interrupt act on the logical screens as their owners'
operations act on private ones.
-/

namespace StudentDistrib

open Machine

@[ext]
structure Screen where
  cell : Fin 4096 → UInt8
  x : Int
  y : Int

namespace Screen

/-- The offset of the character at row `y` and column `x`. -/
def offset (y x : Int) : Int := 2 * (numCols * y + x)

def draw (c : UInt8) (s : Screen) : Screen :=
  { s with cell := fun i =>
      if (i : Nat) = offset s.y s.x then c
      else if (i : Nat) = offset s.y s.x + 1 then attrib
      else s.cell i }

/-- Every row moved up by one and the last row emptied, with the cursor on it. -/
def scroll (s : Screen) : Screen :=
  { cell := fun i =>
      if h : (i : Nat) < 3840 then
        if (i : Nat) % 2 = 1 then attrib else s.cell ⟨i + 160, by omega⟩
      else if (i : Nat) < 4000 then
        if (i : Nat) % 2 = 1 then attrib else 0
      else s.cell i
    x := 0
    y := numRows - 1 }

def scrollIfNeeded (s : Screen) : Screen := if s.y > numRows - 1 then s.scroll else s

/-- A character other than a backspace. -/
def putc (c : UInt8) (s : Screen) : Screen :=
  if c = newline ∨ c = carriageReturn then { s with x := 0, y := s.y + 1 }.scrollIfNeeded
  else if s.x + 1 ≥ numCols then { s.draw c with x := 0, y := s.y + 1 }.scrollIfNeeded
  else { s.draw c with x := s.x + 1 }.scrollIfNeeded

def store (i : Fin 4096) (b : UInt8) (s : Screen) : Screen :=
  { s with cell := Function.update s.cell i b }

/-- The cursor is on the screen. -/
def InRange (s : Screen) : Prop := (0 ≤ s.x ∧ s.x < numCols) ∧ 0 ≤ s.y ∧ s.y < numRows

theorem inRange_origin (cell : Fin 4096 → UInt8) : InRange ⟨cell, 0, 0⟩ := by
  show ((0 : Int) ≤ 0 ∧ (0 : Int) < numCols) ∧ (0 : Int) ≤ 0 ∧ (0 : Int) < numRows
  decide

theorem offset_bounds {s : Screen} (h : s.InRange) :
    0 ≤ offset s.y s.x ∧ offset s.y s.x + 1 < 4000 := by
  obtain ⟨hx, hy⟩ := h
  unfold offset
  unfold numCols at *
  unfold numRows at hy
  omega

theorem scrollIfNeeded_inRange {s : Screen} (hx : 0 ≤ s.x ∧ s.x < numCols)
    (hy : 0 ≤ s.y) : s.scrollIfNeeded.InRange := by
  unfold scrollIfNeeded
  split
  · show ((0 : Int) ≤ 0 ∧ (0 : Int) < numCols) ∧ 0 ≤ numRows - 1 ∧ numRows - 1 < numRows
    decide
  · exact ⟨hx, hy, by omega⟩

theorem putc_inRange {s : Screen} (c : UInt8) (h : s.InRange) : (s.putc c).InRange := by
  obtain ⟨hx, hy⟩ := h
  have hleft : (0 : Int) ≤ 0 ∧ (0 : Int) < numCols := by decide
  unfold putc
  split
  · exact scrollIfNeeded_inRange hleft (by show 0 ≤ s.y + 1; omega)
  · split
    · exact scrollIfNeeded_inRange hleft (by show 0 ≤ s.y + 1; omega)
    · exact scrollIfNeeded_inRange (by show 0 ≤ s.x + 1 ∧ s.x + 1 < numCols; omega) hy.1

end Screen

/-! ## Pages of memory -/

/-- The 4096 bytes of a physical page. -/
def pageAt (frame : Int) (mem : Bytes) : Fin 4096 → UInt8 := fun i => mem (frame * fourKB + i)

theorem videoFrame_eq : videoFrame = 184 := by decide

theorem saveFrame_eq (t : Term) : saveFrame t = 185 + (t : Nat) := by
  unfold saveFrame video fourKB
  omega

theorem saveFrame_ne (t : Term) : saveFrame t ≠ videoFrame := by
  rw [saveFrame_eq, videoFrame_eq]
  omega

theorem saveFrame_injective {t u : Term} (h : saveFrame t = saveFrame u) : t = u := by
  rw [saveFrame_eq, saveFrame_eq] at h
  exact Fin.ext (by omega)

/-- An offset in the video page is the same offset in the page that it maps to. -/
theorem translate_video (frame : Int) {o : Int} (h0 : 0 ≤ o) (h : o < fourKB) :
    translate frame (video + o) = frame * fourKB + o := by
  unfold fourKB at h
  unfold translate video fourKB
  rw [if_pos (by omega)]
  omega

/-- Mapped to itself, the video page is where it is. -/
theorem translate_videoFrame (a : Int) : translate videoFrame a = a := by
  rw [videoFrame_eq]
  unfold translate video fourKB
  split <;> omega

theorem cellAddr_eq (y x : Int) : cellAddr y x = video + Screen.offset y x := rfl

/-- Drawing at an offset within the page. -/
theorem drawCell_apply (frame : Int) {y x : Int} (h0 : 0 ≤ Screen.offset y x)
    (h : Screen.offset y x + 1 < fourKB) (c : UInt8) (mem : Bytes) (a : Int) :
    drawCell frame y x c mem a =
      if a = frame * fourKB + Screen.offset y x then c
      else if a = frame * fourKB + Screen.offset y x + 1 then attrib
      else mem a := by
  unfold drawCell poke
  rw [cellAddr_eq, Int.add_assoc, translate_video frame h0 (by omega),
    translate_video frame (by omega) h]
  simp only [Function.update_apply]
  by_cases ha : a = frame * fourKB + Screen.offset y x
  · rw [if_neg (by omega), if_pos ha, if_pos ha]
  · rw [if_neg ha, if_neg ha, Int.add_assoc]

theorem peek_cell (frame : Int) {y x : Int} (h0 : 0 ≤ Screen.offset y x)
    (h : Screen.offset y x < fourKB) (mem : Bytes) :
    peek frame (cellAddr y x) mem = mem (frame * fourKB + Screen.offset y x) := by
  unfold peek
  rw [cellAddr_eq, translate_video frame h0 h]

/-! ## Scrolling -/

/-- The page with the first `n` characters taken from the row below. -/
def shifted (frame n : Int) (mem : Bytes) : Bytes := fun a =>
  let o := a - frame * fourKB
  if 0 ≤ o ∧ o < 2 * n then if o % 2 = 1 then attrib else mem (a + 160) else mem a

/-- The page with the first `n` characters of the last row emptied. -/
def emptied (frame n : Int) (mem : Bytes) : Bytes := fun a =>
  let o := a - frame * fourKB
  if 3840 ≤ o ∧ o < 3840 + 2 * n then if o % 2 = 1 then attrib else 0 else mem a

theorem scrollCell_shifted (frame : Int) (mem : Bytes) {i j : Nat} (hi : i < 24) (hj : j < 80) :
    scrollCell frame i j (shifted frame (80 * i + j) mem)
      = shifted frame (80 * i + j + 1) mem := by
  have hoff : Screen.offset i j = 160 * i + 2 * j := by
    unfold Screen.offset numCols
    omega
  have hbelow : Screen.offset (i + 1) j = 160 * i + 2 * j + 160 := by
    unfold Screen.offset numCols
    omega
  have hsize : fourKB = 4096 := rfl
  -- The character read lies below those already moved.
  have hread : shifted frame (80 * i + j) mem (frame * fourKB + (160 * i + 2 * j + 160))
      = mem (frame * fourKB + (160 * i + 2 * j + 160)) := if_neg (by omega)
  funext a
  unfold scrollCell
  rw [drawCell_apply _ (by omega) (by omega), peek_cell _ (by omega) (by omega), hoff, hbelow,
    hread]
  unfold shifted
  dsimp only
  by_cases hchar : a = frame * fourKB + (160 * i + 2 * j)
  · rw [if_pos hchar, if_pos (by omega), if_neg (by omega), hchar]
    congr 1
    omega
  · rw [if_neg hchar]
    by_cases hattr : a = frame * fourKB + (160 * i + 2 * j) + 1
    · rw [if_pos hattr, if_pos (by omega), if_pos (by omega)]
    · rw [if_neg hattr]
      by_cases hdone : 0 ≤ a - frame * fourKB ∧ a - frame * fourKB < 2 * (80 * i + j)
      · have hnext : 0 ≤ a - frame * fourKB ∧ a - frame * fourKB < 2 * (80 * i + j + 1) := by
          omega
        rw [if_pos hdone, if_pos hnext]
      · rw [if_neg hdone, if_neg (by omega)]

theorem scrollRow_shifted (frame : Int) (mem : Bytes) {i : Nat} (hi : i < 24) :
    scrollRow frame i (shifted frame (80 * i) mem) = shifted frame (80 * (i + 1 : Nat)) mem := by
  have hcols : ∀ n ≤ 80, (List.range n).foldl (fun m (j : Nat) => scrollCell frame i j m)
      (shifted frame (80 * i) mem) = shifted frame (80 * i + n) mem := by
    intro n
    induction n with
    | zero => simp
    | succ n ih =>
      intro hn
      rw [List.range_succ, List.foldl_append, ih (by omega), List.foldl_cons, List.foldl_nil,
        scrollCell_shifted frame mem hi (by omega), Int.add_assoc]
      push_cast
      rfl
  have hrow := hcols 80 (Nat.le_refl _)
  have hnext : (80 : Int) * i + (80 : Nat) = 80 * (i + 1 : Nat) := by omega
  unfold scrollRow
  rw [hrow, hnext]

theorem scrollRows_eq (frame : Int) (mem : Bytes) :
    scrollRows frame mem = shifted frame 1920 mem := by
  have hrows : ∀ n ≤ 24, (List.range n).foldl (fun m (i : Nat) => scrollRow frame i m) mem
      = shifted frame (80 * n) mem := by
    intro n
    induction n with
    | zero =>
      intro _
      funext a
      unfold shifted
      dsimp only
      rw [if_neg (by omega)]
      rfl
    | succ n ih =>
      intro hn
      rw [List.range_succ, List.foldl_append, ih (by omega), List.foldl_cons, List.foldl_nil,
        scrollRow_shifted frame mem (by omega)]
  have hall := hrows 24 (Nat.le_refl _)
  have hcount : (80 : Int) * (24 : Nat) = 1920 := by decide
  unfold scrollRows
  rw [hall, hcount]

theorem drawCell_emptied (frame : Int) (mem : Bytes) {j : Nat} (hj : j < 80) :
    drawCell frame 24 j 0 (emptied frame j mem) = emptied frame (j + 1 : Nat) mem := by
  have hoff : Screen.offset 24 j = 3840 + 2 * j := by
    unfold Screen.offset numCols
    omega
  have hsize : fourKB = 4096 := rfl
  funext a
  rw [drawCell_apply _ (by omega) (by omega), hoff]
  unfold emptied
  dsimp only
  by_cases hchar : a = frame * fourKB + (3840 + 2 * j)
  · rw [if_pos hchar, if_pos (by omega), if_neg (by omega)]
  · rw [if_neg hchar]
    by_cases hattr : a = frame * fourKB + (3840 + 2 * j) + 1
    · rw [if_pos hattr, if_pos (by omega), if_pos (by omega)]
    · rw [if_neg hattr]
      by_cases hdone : 3840 ≤ a - frame * fourKB ∧ a - frame * fourKB < 3840 + 2 * j
      · have hnext : 3840 ≤ a - frame * fourKB ∧
            a - frame * fourKB < 3840 + 2 * (j + 1 : Nat) := by omega
        rw [if_pos hdone, if_pos hnext]
      · rw [if_neg hdone, if_neg (by omega)]

theorem scroll_eq (frame : Int) (mem : Bytes) :
    scroll frame mem = emptied frame 80 (shifted frame 1920 mem) := by
  have hcols : ∀ n ≤ 80, (List.range n).foldl (fun m (j : Nat) => drawCell frame 24 j 0 m)
      (shifted frame 1920 mem) = emptied frame n (shifted frame 1920 mem) := by
    intro n
    induction n with
    | zero =>
      intro _
      funext a
      unfold emptied
      dsimp only
      rw [if_neg (by omega)]
      rfl
    | succ n ih =>
      intro hn
      rw [List.range_succ, List.foldl_append, ih (by omega), List.foldl_cons, List.foldl_nil,
        drawCell_emptied frame _ (by omega)]
  have hall := hcols 80 (Nat.le_refl _)
  have hcount : ((80 : Nat) : Int) = 80 := rfl
  unfold scroll
  rw [scrollRows_eq, hall, hcount]

/-- The copy of a page, where source and destination do not overlap. -/
theorem memcpy_eq {dst src : Int} {n : Nat} (mem : Bytes)
    (hdisjoint : dst + n ≤ src ∨ src + n ≤ dst) :
    memcpy videoFrame dst src n mem =
      fun a => if dst ≤ a ∧ a < dst + n then mem (src + (a - dst)) else mem a := by
  unfold memcpy
  have hbytes : ∀ m ≤ n, (List.range m).foldl
      (fun mem (i : Nat) => poke videoFrame (dst + i) (peek videoFrame (src + i) mem) mem) mem
      = fun a => if dst ≤ a ∧ a < dst + m then mem (src + (a - dst)) else mem a := by
    intro m
    induction m with
    | zero =>
      intro _
      funext a
      rw [if_neg (by omega)]
      rfl
    | succ m ih =>
      intro hm
      rw [List.range_succ, List.foldl_append, ih (by omega)]
      funext a
      simp only [List.foldl_cons, List.foldl_nil, poke, peek, translate_videoFrame,
        Function.update_apply]
      by_cases ha : a = dst + m
      · rw [if_pos ha, if_neg (by omega), if_pos (by omega), ha]
        congr 1
        omega
      · rw [if_neg ha]
        by_cases hdone : dst ≤ a ∧ a < dst + m
        · rw [if_pos hdone, if_pos (by omega)]
        · rw [if_neg hdone, if_neg (by omega)]
  exact hbytes n (Nat.le_refl _)

theorem pageAt_drawCell (frame : Int) {s : Screen} (h : s.InRange) (c : UInt8) {mem : Bytes}
    (hcell : s.cell = pageAt frame mem) :
    pageAt frame (drawCell frame s.y s.x c mem) = (s.draw c).cell := by
  obtain ⟨h0, hlt⟩ := Screen.offset_bounds h
  have hsize : fourKB = 4096 := rfl
  funext i
  unfold pageAt Screen.draw
  dsimp only
  rw [drawCell_apply frame h0 (by omega), hcell]
  by_cases hchar : ((i : Nat) : Int) = Screen.offset s.y s.x
  · rw [if_pos hchar, if_pos (by omega)]
  · rw [if_neg hchar, if_neg (by omega)]
    by_cases hattr : ((i : Nat) : Int) = Screen.offset s.y s.x + 1
    · rw [if_pos hattr, if_pos (by omega)]
    · rw [if_neg hattr, if_neg (by omega)]
      rfl

/-- Addresses in different pages are different. -/
theorem page_ne {f g : Int} (hne : f ≠ g) (i : Fin 4096) {o : Int} (h0 : 0 ≤ o) (h : o < 4096) :
    g * fourKB + i ≠ f * fourKB + o := by
  have hi := i.isLt
  unfold fourKB
  omega

theorem pageAt_drawCell_ne {f g : Int} (hne : f ≠ g) {s : Screen} (h : s.InRange) (c : UInt8)
    (mem : Bytes) : pageAt g (drawCell f s.y s.x c mem) = pageAt g mem := by
  obtain ⟨h0, hlt⟩ := Screen.offset_bounds h
  have hsize : fourKB = 4096 := rfl
  funext i
  unfold pageAt
  rw [drawCell_apply f h0 (by omega), if_neg (page_ne hne i h0 (by omega)), Int.add_assoc,
    if_neg (page_ne hne i (by omega) (by omega))]

theorem pageAt_scroll (frame : Int) {s : Screen} {mem : Bytes} (hcell : s.cell = pageAt frame mem) :
    pageAt frame (scroll frame mem) = s.scroll.cell := by
  funext i
  have hi := i.isLt
  rw [scroll_eq]
  unfold pageAt emptied shifted Screen.scroll
  dsimp only
  by_cases hmoved : (i : Nat) < 3840
  · rw [if_neg (by omega), if_pos (by omega), dif_pos hmoved, hcell]
    by_cases hattr : (i : Nat) % 2 = 1
    · rw [if_pos hattr, if_pos (by omega)]
    · rw [if_neg hattr, if_neg (by omega)]
      unfold pageAt
      congr 1
      push_cast
      omega
  · rw [dif_neg hmoved]
    by_cases hlast : (i : Nat) < 4000
    · rw [if_pos hlast, if_pos (by omega)]
      by_cases hattr : (i : Nat) % 2 = 1
      · rw [if_pos hattr, if_pos (by omega)]
      · rw [if_neg hattr, if_neg (by omega)]
    · rw [if_neg hlast, if_neg (by omega), if_neg (by omega), hcell]
      rfl

theorem pageAt_scroll_ne {f g : Int} (hne : f ≠ g) (mem : Bytes) :
    pageAt g (scroll f mem) = pageAt g mem := by
  funext i
  have hout : ¬ (0 ≤ g * fourKB + i - f * fourKB ∧ g * fourKB + i - f * fourKB < 4096) := by
    intro h
    exact page_ne hne i h.1 h.2 (by omega)
  rw [scroll_eq]
  unfold pageAt emptied shifted
  dsimp only
  rw [if_neg (by omega), if_neg (by omega)]

/-- A page copied over another one. -/
theorem pageAt_memcpy {f g : Int} (hne : f ≠ g) (mem : Bytes) :
    pageAt g (memcpy videoFrame (g * fourKB) (f * fourKB) 4096 mem) = pageAt f mem := by
  have hdisjoint : g * fourKB + (4096 : Nat) ≤ f * fourKB ∨
      f * fourKB + (4096 : Nat) ≤ g * fourKB := by
    unfold fourKB
    omega
  funext i
  have hi := i.isLt
  unfold pageAt
  rw [memcpy_eq mem hdisjoint]
  dsimp only
  rw [if_pos (by omega)]
  congr 1
  omega

theorem pageAt_memcpy_ne {f g u : Int} (hne : f ≠ g) (hu : u ≠ g) (mem : Bytes) :
    pageAt u (memcpy videoFrame (g * fourKB) (f * fourKB) 4096 mem) = pageAt u mem := by
  have hdisjoint : g * fourKB + (4096 : Nat) ≤ f * fourKB ∨
      f * fourKB + (4096 : Nat) ≤ g * fourKB := by
    unfold fourKB
    omega
  funext i
  have hi := i.isLt
  unfold pageAt
  rw [memcpy_eq mem hdisjoint]
  dsimp only
  rw [if_neg]
  unfold fourKB
  omega

/-! ## Logical screens -/

namespace Video

/-- The page that holds the screen of a terminal. -/
def logicalFrame (v : Video) (t : Term) : Int :=
  if t = v.currentTerminal then videoFrame else saveFrame t

def screenOf (v : Video) (t : Term) : Screen :=
  { cell := pageAt (v.logicalFrame t) v.mem, x := v.termScreenx t, y := v.termScreeny t }

theorem logicalFrame_ne {v : Video} {t u : Term} (hne : t ≠ u) :
    v.logicalFrame t ≠ v.logicalFrame u := by
  unfold logicalFrame
  intro h
  split at h
  · rename_i ht
    split at h
    · rename_i hu
      exact hne (ht.trans hu.symm)
    · exact saveFrame_ne u h.symm
  · split at h
    · exact saveFrame_ne t h
    · exact hne (saveFrame_injective h)

theorem screenOf_setCursor_self (t : Term) (x y : Int) (v : Video) :
    (v.setCursor t x y).screenOf t = { v.screenOf t with x := x, y := y } := by
  unfold screenOf setCursor
  dsimp only
  rw [Function.update_self, Function.update_self]
  rfl

theorem screenOf_setCursor_ne {t u : Term} (hne : u ≠ t) (x y : Int) (v : Video) :
    (v.setCursor t x y).screenOf u = v.screenOf u := by
  unfold screenOf setCursor
  dsimp only
  rw [Function.update_of_ne hne, Function.update_of_ne hne]
  rfl

/-- A memory in which only the page of terminal `t` differs. -/
theorem screenOf_mem_ne {v : Video} {mem : Bytes} {t : Term}
    (hmem : ∀ g, v.logicalFrame t ≠ g → pageAt g mem = pageAt g v.mem) {u : Term} (hne : u ≠ t) :
    { v with mem := mem }.screenOf u = v.screenOf u := by
  have hpage : pageAt (v.logicalFrame u) mem = pageAt (v.logicalFrame u) v.mem :=
    hmem _ (logicalFrame_ne hne.symm)
  ext1
  · exact hpage
  · rfl
  · rfl

/-! ## Printing -/

/-- `putc` of a character other than a backspace on terminal `t`. -/
def print (t : Term) (c : UInt8) (v : Video) : Video :=
  if c = newline ∨ c = carriageReturn then (v.putNewline t).scrollIfNeeded t
  else (v.putGlyph t c).scrollIfNeeded t

theorem putc_eq (bufIdx : Int) {c : UInt8} (hc : c ≠ backspaceAscii) (v : Video) :
    v.putc bufIdx c =
      (v.cli.print (if v.keyboardPutCFlag then v.currentTerminal else v.scheduledTerm) c).sti := by
  unfold putc print
  dsimp only
  rw [if_neg hc]
  split <;> rfl

theorem putc_process (bufIdx : Int) {c : UInt8} (hc : c ≠ backspaceAscii) {v : Video}
    (h : v.keyboardPutCFlag = false) :
    v.putc bufIdx c = (v.cli.print v.scheduledTerm c).sti := by
  rw [putc_eq bufIdx hc, h, if_neg (by decide)]

theorem putc_echo (bufIdx : Int) {c : UInt8} (hc : c ≠ backspaceAscii) {v : Video}
    (h : v.keyboardPutCFlag = true) :
    v.putc bufIdx c = (v.cli.print v.currentTerminal c).sti := by
  rw [putc_eq bufIdx hc, h, if_pos rfl]

theorem scrollIfNeeded_self {v : Video} {t : Term} (hpage : v.pageTable = v.logicalFrame t) :
    (v.scrollIfNeeded t).screenOf t = (v.screenOf t).scrollIfNeeded := by
  have hy : (v.screenOf t).y = v.termScreeny t := rfl
  unfold scrollIfNeeded Screen.scrollIfNeeded
  rw [hy]
  split
  · rw [screenOf_setCursor_self]
    ext1
    · show pageAt (v.logicalFrame t) (scroll v.pageTable v.mem) = (v.screenOf t).scroll.cell
      rw [hpage]
      exact pageAt_scroll _ rfl
    · rfl
    · rfl
  · rfl

theorem scrollIfNeeded_ne {v : Video} {t u : Term} (hpage : v.pageTable = v.logicalFrame t)
    (hne : u ≠ t) : (v.scrollIfNeeded t).screenOf u = v.screenOf u := by
  unfold scrollIfNeeded
  split
  · rw [screenOf_setCursor_ne hne]
    refine screenOf_mem_ne (fun g hg => ?_) hne
    rw [hpage]
    exact pageAt_scroll_ne hg _
  · rfl

theorem drawn_self {v : Video} {t : Term} (c : UInt8) (hpage : v.pageTable = v.logicalFrame t)
    (hrange : (v.screenOf t).InRange) :
    { v with mem := drawCell v.pageTable (v.termScreeny t) (v.termScreenx t) c v.mem }.screenOf t
      = (v.screenOf t).draw c := by
  ext1
  · show pageAt (v.logicalFrame t)
      (drawCell v.pageTable (v.screenOf t).y (v.screenOf t).x c v.mem) = _
    rw [hpage]
    exact pageAt_drawCell _ hrange c rfl
  · rfl
  · rfl

theorem drawn_ne {v : Video} {t u : Term} (c : UInt8) (hpage : v.pageTable = v.logicalFrame t)
    (hrange : (v.screenOf t).InRange) (hne : u ≠ t) :
    { v with mem := drawCell v.pageTable (v.termScreeny t) (v.termScreenx t) c v.mem }.screenOf u
      = v.screenOf u := by
  refine screenOf_mem_ne (fun g hg => ?_) hne
  rw [hpage]
  exact pageAt_drawCell_ne hg hrange c _

theorem print_self {v : Video} {t : Term} (c : UInt8) (hpage : v.pageTable = v.logicalFrame t)
    (hrange : (v.screenOf t).InRange) : (v.print t c).screenOf t = (v.screenOf t).putc c := by
  have hx : (v.screenOf t).x = v.termScreenx t := rfl
  have hy : (v.screenOf t).y = v.termScreeny t := rfl
  unfold print Screen.putc
  split
  · rw [scrollIfNeeded_self, putNewline, screenOf_setCursor_self, hy]
    exact hpage
  · unfold putGlyph
    dsimp only
    rw [hx, hy]
    split
    · rw [scrollIfNeeded_self, screenOf_setCursor_self, drawn_self c hpage hrange]
      exact hpage
    · rw [scrollIfNeeded_self, screenOf_setCursor_self, drawn_self c hpage hrange]
      · rfl
      · exact hpage

theorem print_ne {v : Video} {t u : Term} (c : UInt8) (hpage : v.pageTable = v.logicalFrame t)
    (hrange : (v.screenOf t).InRange) (hne : u ≠ t) :
    (v.print t c).screenOf u = v.screenOf u := by
  unfold print
  split
  · rw [scrollIfNeeded_ne ?_ hne, putNewline, screenOf_setCursor_ne hne]
    exact hpage
  · unfold putGlyph
    dsimp only
    split
    · rw [scrollIfNeeded_ne ?_ hne, screenOf_setCursor_ne hne, drawn_ne c hpage hrange hne]
      exact hpage
    · rw [scrollIfNeeded_ne ?_ hne, screenOf_setCursor_ne hne, drawn_ne c hpage hrange hne]
      exact hpage

end Video

end StudentDistrib
