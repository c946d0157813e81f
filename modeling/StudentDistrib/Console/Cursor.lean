import StudentDistrib.Console.EchoSection

/-!
# The range of the cursors

`putc` wraps at the last column and scrolls at the last row, so a character keeps
every cursor on its screen.  Two places do not look: the backspace branch of `putc`
steps left from the first column, or up from the first row, and `clear_help` takes
`buf_idx` for a column.  Every run stays on the screens exactly as long as it does
neither, and then `putc` stores nowhere but in the text page.
-/

namespace StudentDistrib

open Machine

namespace Video

/-- Every cursor is on its screen. -/
def InRange (v : Video) : Prop := ∀ t, (v.screenOf t).InRange

theorem inRange_setCursor {v : Video} (h : v.InRange) {t : Term} {x y : Int}
    (hx : 0 ≤ x ∧ x < numCols) (hy : 0 ≤ y ∧ y < numRows) : (v.setCursor t x y).InRange := by
  intro u
  by_cases hu : u = t
  · rw [hu, screenOf_setCursor_self]
    exact ⟨hx, hy⟩
  · rw [screenOf_setCursor_ne hu]
    exact h u

theorem setCursor_notInRange {v : Video} {t : Term} {x y : Int}
    (h : ¬ ((0 ≤ x ∧ x < numCols) ∧ 0 ≤ y ∧ y < numRows)) : ¬ (v.setCursor t x y).InRange := by
  intro hrange
  have ht := hrange t
  rw [screenOf_setCursor_self] at ht
  exact h ht

theorem setCursor_setCursor (t : Term) (x y x' y' : Int) (v : Video) :
    (v.setCursor t x y).setCursor t x' y' = v.setCursor t x' y' := by
  unfold setCursor
  simp only [Function.update_idem]

/-- After a line break the cursor stands in the first column of a lower row. -/
theorem print_newline {v : Video} (h : v.InRange) (t : Term) :
    (v.print t newline).termScreenx t = 0 ∧ 0 < (v.print t newline).termScreeny t := by
  have hy : 0 ≤ v.termScreeny t := (h t).2.1
  have hrow : (v.putNewline t).termScreeny t = v.termScreeny t + 1 := Function.update_self _ _ _
  unfold print
  rw [if_pos (Or.inl rfl)]
  unfold scrollIfNeeded
  rw [hrow]
  split
  · have hx' : ∀ w : Video, (w.setCursor t 0 (numRows - 1)).termScreenx t = 0 :=
      fun _ => Function.update_self _ _ _
    have hy' : ∀ w : Video, (w.setCursor t 0 (numRows - 1)).termScreeny t = numRows - 1 :=
      fun _ => Function.update_self _ _ _
    rw [hx', hy']
    decide
  · rw [hrow]
    exact ⟨Function.update_self _ _ _, by omega⟩

/-- A cursor moved down, and the screen scrolled where it left the last row. -/
theorem inRange_scrolled {v : Video} (h : v.InRange) {t : Term} {x y : Int}
    (hx : 0 ≤ x ∧ x < numCols) (hy : 0 ≤ y) :
    ((v.setCursor t x y).scrollIfNeeded t).InRange := by
  have hrow : (v.setCursor t x y).termScreeny t = y := Function.update_self _ _ _
  unfold scrollIfNeeded
  rw [hrow]
  split
  · have hmem : { v.setCursor t x y with
        mem := scroll (v.setCursor t x y).pageTable (v.setCursor t x y).mem }.setCursor t 0
          (numRows - 1) = { v with mem := scroll v.pageTable v.mem }.setCursor t 0 (numRows - 1) :=
      setCursor_setCursor t x y 0 (numRows - 1) { v with mem := scroll v.pageTable v.mem }
    rw [hmem]
    exact inRange_setCursor (v := { v with mem := scroll v.pageTable v.mem }) h (by decide)
      (by decide)
  · exact inRange_setCursor h hx ⟨hy, by omega⟩

theorem print_inRange {v : Video} (h : v.InRange) (t : Term) (c : UInt8) :
    (v.print t c).InRange := by
  obtain ⟨hx, hy⟩ : (0 ≤ v.termScreenx t ∧ v.termScreenx t < numCols) ∧
    0 ≤ v.termScreeny t ∧ v.termScreeny t < numRows := h t
  have hleft : (0 : Int) ≤ 0 ∧ (0 : Int) < numCols := by decide
  unfold print
  split
  · exact inRange_scrolled h hleft (by omega)
  · let drawn := { v with
      mem := drawCell v.pageTable (v.termScreeny t) (v.termScreenx t) c v.mem }
    have hdrawn : drawn.InRange := h
    unfold putGlyph
    dsimp only
    split
    · exact inRange_scrolled hdrawn hleft (by omega)
    · exact inRange_scrolled hdrawn (by omega) hy.1

/-! ## The backspace -/

/-- A backspace that leaves the screen: from the first column of a lower row, or back
to the first column of the first row on an empty line. -/
def BackspaceLeaves (bufIdx : Int) (v : Video) : Prop :=
  (v.termScreenx v.currentTerminal = 0 ∧ 0 < v.termScreeny v.currentTerminal) ∨
    (v.termScreenx v.currentTerminal = 1 ∧ v.termScreeny v.currentTerminal = 0 ∧ bufIdx = 0)

/-- The cursor after the backspace branch: the remainder of a column on the screen is
the column, and that of -1 is -1. -/
theorem putBackspace_inRange_iff {v : Video} (h : v.InRange) (bufIdx : Int) :
    (v.putBackspace bufIdx).InRange ↔ ¬ v.BackspaceLeaves bufIdx := by
  obtain ⟨hx, hy⟩ : (0 ≤ v.termScreenx v.currentTerminal ∧ v.termScreenx v.currentTerminal <
    numCols) ∧ 0 ≤ v.termScreeny v.currentTerminal ∧ v.termScreeny v.currentTerminal < numRows :=
      h v.currentTerminal
  unfold putBackspace BackspaceLeaves
  dsimp only
  generalize v.termScreenx v.currentTerminal = x at hx ⊢
  generalize v.termScreeny v.currentTerminal = y at hy ⊢
  have hdrawn : ∀ m : Bytes, ({ v with mem := m } : Video).InRange := fun _ => h
  by_cases horigin : x = 0 ∧ y = 0
  · rw [if_pos horigin]
    exact iff_of_true h (by omega)
  · rw [if_neg horigin]
    by_cases hleft : x = 0
    · -- The column becomes -1, and stays -1.
      have hcol : (x - 1).tmod numCols = -1 := by
        rw [hleft]
        decide
      rw [hcol, if_pos (by omega)]
      exact iff_of_false (setCursor_notInRange (by omega)) (by omega)
    · have hcol : (x - 1).tmod numCols = x - 1 := Int.tmod_eq_of_lt (by omega) (by omega)
      have hrow : (x - 1).tdiv numCols = 0 := Int.tdiv_eq_zero_of_lt (by omega) (by omega)
      rw [hcol]
      by_cases hempty : x - 1 = 0 ∧ bufIdx = 0
      · rw [if_neg (not_not.mpr hempty)]
        by_cases htop : y = 0
        · exact iff_of_false (setCursor_notInRange (by omega)) (by omega)
        · exact iff_of_true (inRange_setCursor (hdrawn _) (by omega) (by omega)) (by omega)
      · rw [if_pos hempty, hrow, Int.add_zero, Int.tmod_eq_of_lt hy.1 hy.2]
        exact iff_of_true (inRange_setCursor (hdrawn _) (by omega) hy) (by omega)

theorem putc_inRange_iff {v : Video} (h : v.InRange) (bufIdx : Int) (c : UInt8) :
    (v.putc bufIdx c).InRange ↔ ¬ (c = backspaceAscii ∧ v.BackspaceLeaves bufIdx) := by
  rw [putc_body]
  show (v.cli.putcBody bufIdx c).InRange ↔ _
  have hcli : v.cli.InRange := h
  unfold putcBody
  by_cases hc : c = backspaceAscii
  · rw [if_pos hc, putBackspace_inRange_iff hcli]
    exact not_congr (by simp only [hc, true_and]; rfl)
  · rw [if_neg hc]
    exact iff_of_true (print_inRange hcli _ c) fun e => hc e.1

theorem keyboardputc_inRange_iff {v : Video} (h : v.InRange) (bufIdx : Int) (c : UInt8) :
    (v.keyboardputc bufIdx c).InRange ↔ ¬ (v.termReadFlag v.currentTerminal = true ∧
      c = backspaceAscii ∧ v.BackspaceLeaves bufIdx) := by
  unfold keyboardputc
  by_cases hread : v.termReadFlag v.currentTerminal = true
  · rw [if_pos hread]
    have hentered :
        ({ v with pageTable := videoFrame, keyboardPutCFlag := true } : Video).InRange := h
    exact (putc_inRange_iff hentered bufIdx c).trans
      (not_congr (by simp only [hread, true_and]; rfl))
  · rw [if_neg hread]
    exact iff_of_true h fun e => hread e.1

theorem keyboardputc_inRange {v : Video} (h : v.InRange) (bufIdx : Int) {c : UInt8}
    (hc : c ≠ backspaceAscii) : (v.keyboardputc bufIdx c).InRange :=
  (keyboardputc_inRange_iff h bufIdx c).mpr fun e => hc e.2.1

theorem clear_inRange {v : Video} (h : v.InRange) : v.clear.InRange := by
  have hdrawn : ∀ m : Bytes, ({ v with mem := m } : Video).InRange := fun _ => h
  unfold clear
  exact inRange_setCursor (hdrawn _) (by decide) (by decide)

theorem clearHelp_inRange_iff {v : Video} (h : v.InRange) {bufIdx : Int} (h0 : 0 ≤ bufIdx) :
    (v.clearHelp bufIdx).InRange ↔ bufIdx < numCols := by
  unfold clearHelp
  by_cases hlt : bufIdx < numCols
  · exact iff_of_true (inRange_setCursor h ⟨h0, hlt⟩ (by decide)) hlt
  · exact iff_of_false (setCursor_notInRange fun e => hlt e.1.2) hlt

/-! ## The stores of `putc` -/

/-- The addresses of a character and its attribute. -/
def cellStores (y x : Int) : List Int := [cellAddr y x, cellAddr y x + 1]

/-- The stores of the loops that scroll, row by row. -/
def scrollStores : List Int :=
  (List.range 25).flatMap fun (i : Nat) => (List.range 80).flatMap fun (j : Nat) => cellStores i j

/-- The virtual addresses that `putc` stores to. -/
def putcStores (c : UInt8) (v : Video) : List Int :=
  let putTerminal := if v.keyboardPutCFlag then v.currentTerminal else v.scheduledTerm
  if c = backspaceAscii then
    let x := v.termScreenx v.currentTerminal
    let y := v.termScreeny v.currentTerminal
    if x = 0 ∧ y = 0 then [] else cellStores y (x - 1)
  else if c = newline ∨ c = carriageReturn then
    if (v.putNewline putTerminal).termScreeny putTerminal > numRows - 1 then scrollStores else []
  else
    cellStores (v.termScreeny putTerminal) (v.termScreenx putTerminal) ++
      if (v.putGlyph putTerminal c).termScreeny putTerminal > numRows - 1 then scrollStores else []

def keyboardputcStores (c : UInt8) (v : Video) : List Int :=
  if v.termReadFlag v.currentTerminal then
    { v with pageTable := videoFrame, keyboardPutCFlag := true }.putcStores c
  else []

/-- The address lies in the 80 * 25 * 2 bytes of the text page. -/
def InTextPage (a : Int) : Prop := video ≤ a ∧ a < video + numCols * numRows * 2

theorem InTextPage.lt_page {a : Int} (h : InTextPage a) : a < video + fourKB := by
  have hsize : video + numCols * numRows * 2 ≤ video + fourKB := by decide
  exact Int.lt_of_lt_of_le h.2 hsize

theorem cellStores_inTextPage {y x : Int} (h0 : 0 ≤ numCols * y + x)
    (h : numCols * y + x < numCols * numRows) : ∀ a ∈ cellStores y x, InTextPage a := by
  intro a ha
  simp only [cellStores, cellAddr, List.mem_cons, List.not_mem_nil, or_false] at ha
  unfold InTextPage
  omega

/-- The stores to a cell of the screen. -/
theorem cellStores_inRange {y x : Int} (hx : 0 ≤ x ∧ x < numCols) (hy : 0 ≤ y ∧ y < numRows) :
    ∀ a ∈ cellStores y x, InTextPage a := by
  have hcols : numCols = 80 := rfl
  have hrows : numRows = 25 := rfl
  exact cellStores_inTextPage (by rw [hcols]; omega) (by rw [hcols, hrows]; omega)

theorem scrollStores_inTextPage : ∀ a ∈ scrollStores, InTextPage a := by
  intro a ha
  obtain ⟨i, hi, ha⟩ := List.mem_flatMap.mp ha
  obtain ⟨j, hj, ha⟩ := List.mem_flatMap.mp ha
  have hi' := List.mem_range.mp hi
  have hj' := List.mem_range.mp hj
  have hcols : numCols = 80 := rfl
  have hrows : numRows = 25 := rfl
  exact cellStores_inRange (by omega) (by omega) a ha

/-- The stores of scrolling where it is needed. -/
theorem scrollStores_if_inTextPage {p : Prop} [Decidable p] :
    ∀ a ∈ (if p then scrollStores else []), InTextPage a := by
  intro a ha
  split at ha
  · exact scrollStores_inTextPage a ha
  · cases ha

theorem putcStores_inTextPage {v : Video} (h : v.InRange) (c : UInt8) :
    ∀ a ∈ v.putcStores c, InTextPage a := by
  have hcell : ∀ t, ∀ a ∈ cellStores (v.termScreeny t) (v.termScreenx t), InTextPage a :=
    fun t => cellStores_inRange (h t).1 (h t).2
  intro a ha
  unfold putcStores at ha
  dsimp only at ha
  split at ha
  · split at ha
    · cases ha
    · rename_i horigin
      have hcols : numCols = 80 := rfl
      have hrows : numRows = 25 := rfl
      obtain ⟨hx, hy⟩ : (0 ≤ v.termScreenx v.currentTerminal ∧ v.termScreenx v.currentTerminal <
        numCols) ∧ 0 ≤ v.termScreeny v.currentTerminal ∧ v.termScreeny v.currentTerminal <
          numRows := h v.currentTerminal
      exact cellStores_inTextPage (by rw [hcols]; omega) (by rw [hcols, hrows]; omega) a ha
  · split at ha
    · exact scrollStores_if_inTextPage a ha
    · rcases List.mem_append.mp ha with ha | ha
      · exact hcell _ a ha
      · exact scrollStores_if_inTextPage a ha

theorem keyboardputcStores_inTextPage {v : Video} (h : v.InRange) (c : UInt8) :
    ∀ a ∈ v.keyboardputcStores c, InTextPage a := by
  intro a ha
  unfold keyboardputcStores at ha
  split at ha
  · have hentered :
        ({ v with pageTable := videoFrame, keyboardPutCFlag := true } : Video).InRange := h
    exact putcStores_inTextPage hentered c a ha
  · cases ha

/-! Memory that no store reaches keeps its byte. -/

theorem drawCell_frame {frame y x a : Int} (c : UInt8) (mem : Bytes)
    (ha : ∀ s ∈ cellStores y x, translate frame s ≠ a) : drawCell frame y x c mem a = mem a := by
  have hchar := ha (cellAddr y x) List.mem_cons_self
  have hattr := ha (cellAddr y x + 1) (List.mem_cons_of_mem _ List.mem_cons_self)
  unfold drawCell poke
  rw [Function.update_of_ne hattr.symm, Function.update_of_ne hchar.symm]

theorem foldl_frame {l : List Nat} {f : Bytes → Nat → Bytes} {stores : Nat → List Int}
    {frame a : Int} (hf : ∀ i m, (∀ s ∈ stores i, translate frame s ≠ a) → f m i a = m a)
    (ha : ∀ s ∈ l.flatMap stores, translate frame s ≠ a) (mem : Bytes) :
    l.foldl f mem a = mem a := by
  induction l generalizing mem with
  | nil => rfl
  | cons i l ih =>
    have hhead : ∀ s ∈ stores i, translate frame s ≠ a :=
      fun s hs => ha s (List.mem_flatMap.mpr ⟨i, List.mem_cons_self, hs⟩)
    have htail : ∀ s ∈ l.flatMap stores, translate frame s ≠ a := by
      intro s hs
      obtain ⟨j, hj, hs⟩ := List.mem_flatMap.mp hs
      exact ha s (List.mem_flatMap.mpr ⟨j, List.mem_cons_of_mem _ hj, hs⟩)
    rw [List.foldl_cons, ih htail, hf i mem hhead]

theorem scroll_frame {frame a : Int} (mem : Bytes)
    (ha : ∀ s ∈ scrollStores, translate frame s ≠ a) : scroll frame mem a = mem a := by
  have hrange : List.range 25 = List.range 24 ++ [24] := List.range_succ
  have hrows : ∀ s ∈ (List.range 24).flatMap fun (i : Nat) => (List.range 80).flatMap
      fun (j : Nat) => cellStores i j, translate frame s ≠ a := by
    intro s hs
    refine ha s ?_
    unfold scrollStores
    rw [hrange, List.flatMap_append]
    exact List.mem_append_left _ hs
  have hlast : ∀ s ∈ (List.range 80).flatMap fun (j : Nat) => cellStores 24 j,
      translate frame s ≠ a := by
    intro s hs
    refine ha s ?_
    unfold scrollStores
    rw [hrange, List.flatMap_append]
    exact List.mem_append_right _ (by simpa using hs)
  unfold scroll scrollRows
  rw [foldl_frame (f := fun m (j : Nat) => drawCell frame 24 j 0 m)
    (fun j m hm => drawCell_frame 0 m hm) hlast]
  refine foldl_frame (f := fun m (i : Nat) => scrollRow frame i m) (fun i m hm => ?_) hrows mem
  exact foldl_frame (f := fun m (j : Nat) => scrollCell frame i j m)
    (fun j m' hm' => drawCell_frame _ m' hm') hm m

theorem scrollIfNeeded_frame {v : Video} {t : Term} {a : Int}
    (ha : ∀ s ∈ (if v.termScreeny t > numRows - 1 then scrollStores else []),
      translate v.pageTable s ≠ a) : (v.scrollIfNeeded t).mem a = v.mem a := by
  unfold scrollIfNeeded
  split
  · rename_i hrow
    rw [if_pos hrow] at ha
    exact scroll_frame v.mem ha
  · rfl

theorem putGlyph_row (t : Term) (c : UInt8) (v : Video) : (v.putGlyph t c).termScreeny t
    = if v.termScreenx t + 1 ≥ numCols then v.termScreeny t + 1 else v.termScreeny t := by
  unfold putGlyph
  dsimp only
  split <;> exact Function.update_self _ _ _

theorem putcStores_cli (c : UInt8) (v : Video) : v.cli.putcStores c = v.putcStores c := by
  unfold putcStores
  dsimp only
  rw [putGlyph_row, putGlyph_row]
  rfl

theorem putc_frame (bufIdx : Int) {c : UInt8} {v : Video} {a : Int}
    (ha : ∀ s ∈ v.putcStores c, translate v.pageTable s ≠ a) :
    (v.putc bufIdx c).mem a = v.mem a := by
  have hpage : ∀ s ∈ v.cli.putcStores c, translate v.cli.pageTable s ≠ a := by
    rw [putcStores_cli]
    exact ha
  rw [putc_body]
  show (v.cli.putcBody bufIdx c).mem a = v.cli.mem a
  generalize v.cli = w at hpage
  unfold putcStores at hpage
  unfold putcBody print
  dsimp only at hpage
  by_cases hback : c = backspaceAscii
  · rw [if_pos hback] at hpage ⊢
    unfold putBackspace
    dsimp only
    by_cases horigin : w.termScreenx w.currentTerminal = 0 ∧ w.termScreeny w.currentTerminal = 0
    · rw [if_pos horigin]
    · rw [if_neg horigin] at hpage ⊢
      have hdrawn := drawCell_frame space w.mem hpage
      split <;> exact hdrawn
  · rw [if_neg hback] at hpage ⊢
    by_cases hbreak : c = newline ∨ c = carriageReturn
    · rw [if_pos hbreak] at hpage ⊢
      exact scrollIfNeeded_frame hpage
    · rw [if_neg hbreak] at hpage ⊢
      generalize (if w.keyboardPutCFlag = true then w.currentTerminal else w.scheduledTerm) = t
        at hpage ⊢
      have hglyph : (w.putGlyph t c).mem a = w.mem a := by
        have hdrawn := drawCell_frame c w.mem fun s hs => hpage s (List.mem_append_left _ hs)
        unfold putGlyph
        dsimp only
        split <;> exact hdrawn
      have hpageTable : (w.putGlyph t c).pageTable = w.pageTable :=
        congrArg Selection.pageTable (putGlyph_selection t c w)
      rw [← hglyph]
      refine scrollIfNeeded_frame fun s hs => ?_
      rw [hpageTable]
      exact hpage s (List.mem_append_right _ hs)

end Video

/-! ## The lines

The index of the line is never negative, and no key puts a backspace into it. -/

namespace Keyboard

structure Printable (k : Keyboard) : Prop where
  idx : 0 ≤ k.bufIdx
  saved : ∀ t, 0 ≤ (k.switchArray t).bufIdx
  line : ∀ i, k.keyboardBuf i ≠ backspaceAscii
  lines : ∀ t i, k.keyboardBufs t i ≠ backspaceAscii

theorem printable_init : init.Printable where
  idx := Int.le_refl 0
  saved := fun _ => Int.le_refl 0
  line := fun i => by
    show Bytes.ofList [] i ≠ backspaceAscii
    rw [show Bytes.ofList [] i = 0 by simp [Bytes.ofList]]
    decide
  lines := fun _ i => by
    show Bytes.ofList [] i ≠ backspaceAscii
    rw [show Bytes.ofList [] i = 0 by simp [Bytes.ofList]]
    decide

theorem update_printable {m : Bytes} (h : ∀ i, m i ≠ backspaceAscii) (j : Int) {b : UInt8}
    (hb : b ≠ backspaceAscii) : ∀ i, Function.update m j b i ≠ backspaceAscii := by
  intro i
  rw [Function.update_apply]
  split
  · exact hb
  · exact h i

theorem zero_printable {m : Bytes} (h : ∀ i, m i ≠ backspaceAscii) :
    ∀ i, Bytes.zero bufsize m i ≠ backspaceAscii := by
  intro i
  unfold Bytes.zero
  split
  · decide
  · exact h i

theorem copy_printable {m m' : Bytes} (h : ∀ i, m i ≠ backspaceAscii)
    (h' : ∀ i, m' i ≠ backspaceAscii) : ∀ i, Bytes.copy bufsize m m' i ≠ backspaceAscii := by
  intro i
  unfold Bytes.copy
  split
  · exact h i
  · exact h' i

theorem Printable.append {k : Keyboard} (h : k.Printable) {b : UInt8} (hb : b ≠ backspaceAscii) :
    (k.append b).Printable where
  idx := by
    have hidx := h.idx
    show 0 ≤ k.bufIdx + 1
    omega
  saved := h.saved
  line := update_printable h.line k.bufIdx hb
  lines := h.lines

theorem Printable.appendSpaces {k : Keyboard} (h : k.Printable) (n : Nat) :
    (k.appendSpaces n).Printable := by
  induction n generalizing k with
  | zero => exact h
  | succ n ih =>
    rw [Keyboard.appendSpaces]
    split
    · exact h
    · exact ih (h.append (by decide))

theorem Printable.markCleared {k : Keyboard} (h : k.Printable) : k.markCleared.Printable := by
  unfold Keyboard.markCleared
  split
  · exact { h with line := update_printable h.line k.bufIdx (by decide) }
  · exact h

theorem Printable.clearBuffers {k : Keyboard} (h : k.Printable) : k.clearBuffers.Printable where
  idx := Int.le_refl 0
  saved := h.saved
  line := zero_printable h.line
  lines := by
    intro t
    show ∀ i, Function.update k.keyboardBufs k.currTerm _ t i ≠ backspaceAscii
    by_cases ht : t = k.currTerm
    · rw [ht, Function.update_self]
      exact zero_printable (h.lines k.currTerm)
    · rw [Function.update_of_ne ht]
      exact h.lines t

theorem Printable.enter {k : Keyboard} (h : k.Printable) (t : Term) : (k.enter t).Printable := by
  have hctrl : ({ k with ctrlKey := 0 } : Keyboard).Printable := { h with }
  have happend := hctrl.append (b := newline) (by decide)
  refine Printable.clearBuffers (Printable.markCleared ?_)
  exact { happend with }

theorem Printable.erase {k : Keyboard} (h : k.Printable) : k.erase.Printable := by
  unfold Keyboard.erase
  split
  · rename_i hpos
    have hidx : 0 ≤ k.bufIdx - 1 := by omega
    exact { h with idx := hidx, line := update_printable h.line (k.bufIdx - 1) (by decide) }
  · exact h

/-- No character of the tables is a backspace but that of the backspace key. -/
theorem scancodeHelper_printable {caps capital : Bool} {scan b : UInt8}
    (hother : keyOf scan = .other) (hb : scancodeHelper caps capital scan = some b) :
    b ≠ backspaceAscii := by
  have htable : ∀ caps capital : Bool, ∀ n < 55, n ≠ 14 →
      (scancodeTable caps capital).getD n 0 ≠ backspaceAscii := by decide
  have hlength := scanCodeOne_length
  have hne : scan.toNat ≠ 14 := by
    intro h
    have hscan : scan = 0x0E := UInt8.toNat_inj.mp h
    subst hscan
    exact absurd hother (by decide)
  unfold scancodeHelper at hb
  split at hb
  · cases hb
  · rw [← Option.some.inj hb]
    exact htable caps capital scan.toNat (by omega) hne

theorem Printable.type {k : Keyboard} (h : k.Printable) {scan : UInt8}
    (hother : keyOf scan = .other) : (k.type scan).Printable := by
  unfold Keyboard.type
  split
  · exact h
  · cases hb : scancodeHelper k.capslockFlag k.capitalFlag scan with
    | none => exact h
    | some b =>
      have hlog : ({ k with tableLog := scan.toNat :: k.tableLog } : Keyboard).Printable :=
        { h with }
      exact hlog.append (scancodeHelper_printable hother hb)

theorem Printable.changeLine {k : Keyboard} (h : k.Printable) : k.changeLine.Printable := by
  have hsaved : ∀ t, 0 ≤ (k.changeLine.switchArray t).bufIdx := by
    intro t
    unfold Keyboard.changeLine Keyboard.switch
    dsimp only
    by_cases ht : t = k.prevTerm
    · rw [ht, Function.update_self]
      exact h.idx
    · rw [Function.update_of_ne ht]
      exact h.saved t
  have hlines : ∀ t i, k.changeLine.keyboardBufs t i ≠ backspaceAscii := by
    intro t
    unfold Keyboard.changeLine Keyboard.switch
    dsimp only
    by_cases ht : t = k.prevTerm
    · rw [ht, Function.update_self]
      exact copy_printable h.line (h.lines k.prevTerm)
    · rw [Function.update_of_ne ht]
      exact h.lines t
  exact
    { idx := hsaved k.currTerm
      saved := hsaved
      line := copy_printable (hlines k.currTerm) h.line
      lines := hlines }

theorem Printable.choose {k : Keyboard} (h : k.Printable) (t : Term) : (k.choose t).Printable := by
  have hpick : (k.pick t).Printable := { h with }
  unfold Keyboard.choose
  split
  · exact hpick.changeLine
  · exact hpick

theorem Printable.press {k : Keyboard} (h : k.Printable) (scan : UInt8) (t : Term) :
    (k.press scan t).Printable := by
  unfold Keyboard.press
  cases hk : keyOf scan with
  | enter => exact h.enter t
  | backspace => exact h.erase
  | space => exact h.append (by decide)
  | tab => exact h.appendSpaces 4
  | f u press =>
    dsimp only
    split
    · exact h.choose u
    · exact h
  | other =>
    dsimp only
    split
    · exact { h with }
    · exact h.type hk
  | _ => exact { h with }

end Keyboard

/-! ## One step -/

namespace Action

/-- The action keeps every cursor on its screen. -/
def Harmless : Action → Prop
  | .echo b => b ≠ backspaceAscii
  | .clearHelp => False
  | _ => True

end Action

namespace Keyboard

theorem fScript_harmless (press : Bool) (t : Term) (k : Keyboard) :
    ∀ a ∈ k.fScript press t, a.Harmless := by
  intro a ha
  unfold fScript at ha
  split at ha
  · split at ha
    · simp only [List.mem_cons, List.not_mem_nil, or_false] at ha
      rcases ha with rfl | rfl | rfl | rfl | rfl <;> trivial
    · simp only [List.mem_cons, List.not_mem_nil, or_false] at ha
      rcases ha with rfl | rfl <;> trivial
  · rw [List.mem_singleton.mp ha]
    trivial

/-- Every key but Backspace, and L with Control. -/
theorem script_harmless {scan : UInt8} {k : Keyboard} (hback : keyOf scan ≠ .backspace)
    (hclear : ¬ (k.ctrlState = true ∧ scan = lPress)) (t : Term) :
    ∀ a ∈ k.script scan t, a.Harmless := by
  have hset : ∀ k' : Keyboard, (Action.set k').Harmless := fun _ => trivial
  have hsti : Action.sti.Harmless := trivial
  have hnewline : (Action.echo newline).Harmless := by
    show newline ≠ backspaceAscii
    decide
  have hspace : (Action.echo space).Harmless := by
    show space ≠ backspaceAscii
    decide
  unfold script
  cases hk : keyOf scan with
  | enter => exact enterScript_forall hset hsti hnewline t k
  | backspace => exact absurd hk hback
  | space => exact appendScript_forall hset hsti hspace k
  | tab => exact tabScript_forall hset hsti hspace 4 k
  | f u press => exact fScript_harmless press u k
  | other =>
    dsimp only
    rw [if_neg hclear]
    exact typeScript_forall hset hsti scan k fun b hb => scancodeHelper_printable hk hb
  | _ => exact setSti_forall hset hsti _

end Keyboard

namespace Console

/-- The step takes a cursor off its screen: a backspace that leaves it, or Control and
L on a line longer than a row. -/
def Leaves (c : Console) : ConsoleStep → Prop
  | .write b => b = backspaceAscii ∧ c.vid.BackspaceLeaves c.kb.bufIdx
  | .key scan =>
    (keyOf scan = .backspace ∧ c.kb.bufIdx > 0 ∧
      c.vid.termReadFlag c.vid.currentTerminal = true ∧ c.vid.BackspaceLeaves (c.kb.bufIdx - 1)) ∨
    (c.kb.ctrlState = true ∧ scan = lPress ∧ c.kb.bufIdx ≥ numCols)
  | _ => False

/-- The addresses that `putc` stores to in a step. -/
def putcStores : ConsoleStep → Console → List Int
  | .key scan, c =>
    (calls act (.cli :: c.kb.script scan c.vid.currentTerminal) c).flatMap fun p =>
      match p.2 with
      | .echo b => p.1.vid.keyboardputcStores b
      | _ => []
  | .write b, c => c.vid.putcStores b
  | _, _ => []

theorem act_inRange {a : Action} {c : Console} (h : c.vid.InRange) (ha : a.Harmless) :
    (act a c).vid.InRange := by
  cases a with
  | echo b => exact Video.keyboardputc_inRange h c.kb.bufIdx ha
  | clear => exact Video.clear_inRange h
  | clearHelp => exact ha.elim
  | setPaging t =>
    intro u
    show ((c.vid.setPagingScheduling t).screenOf u).InRange
    rw [Video.screenOf_setPagingScheduling]
    exact h u
  | changing t =>
    intro u
    show ((c.vid.terminalChanging t).screenOf u).InRange
    rw [Video.terminalChanging_screenOf]
    exact h u
  | _ => exact h

theorem backspace_script {scan : UInt8} (hk : keyOf scan = .backspace) (t : Term) (k : Keyboard) :
    k.script scan t = k.backspaceScript := by
  unfold Keyboard.script
  rw [hk]

theorem clear_script (k : Keyboard) (hctrl : k.ctrlState = true) (t : Term) :
    k.script lPress t = k.clearScript := by
  have hk : keyOf lPress = .other := by decide
  unfold Keyboard.script
  rw [hk]
  exact if_pos ⟨hctrl, rfl⟩

/-- Backspace, action by action. -/
theorem backspace_calls {c : Console} (hleaves : ¬ (c.kb.bufIdx > 0 ∧
      c.vid.termReadFlag c.vid.currentTerminal = true ∧ c.vid.BackspaceLeaves (c.kb.bufIdx - 1))) :
    ∀ p ∈ calls act (.cli :: c.kb.backspaceScript) c,
      p.1.vid.InRange → (act p.2 p.1).vid.InRange := by
  intro p hp hrange
  unfold Keyboard.backspaceScript at hp
  split at hp
  · rename_i hpos
    simp only [calls, List.mem_cons, List.not_mem_nil, or_false] at hp
    rcases hp with rfl | rfl | rfl | rfl | rfl
    · exact act_inRange hrange trivial
    · exact act_inRange hrange trivial
    · exact (Video.keyboardputc_inRange_iff hrange _ _).mpr fun e => hleaves ⟨hpos, e.1, e.2.2⟩
    · exact act_inRange hrange trivial
    · exact act_inRange hrange trivial
  · simp only [calls, List.mem_cons, List.not_mem_nil, or_false] at hp
    rcases hp with rfl | rfl
    · exact act_inRange hrange trivial
    · exact act_inRange hrange trivial

/-- Control and L keep the index of the line to its end. -/
theorem clear_calls_bufIdx (c : Console) :
    ∀ p ∈ calls act (.cli :: c.kb.clearScript) c, p.1.kb.bufIdx = c.kb.bufIdx := by
  refine calls_invariant (I := fun d : Console => d.kb.bufIdx = c.kb.bufIdx) ?_ rfl
  rintro ⟨d, a⟩ hp (hd : d.kb.bufIdx = c.kb.bufIdx)
  have ha := mem_calls_snd act hp
  simp only [Keyboard.clearScript, List.mem_cons, List.mem_append, List.not_mem_nil,
    or_false] at ha
  rcases ha with rfl | rfl | ha | rfl | rfl | rfl
  · exact hd
  · show d.clear.kb.bufIdx = c.kb.bufIdx
    rw [clear_kb, hd]
  · obtain ⟨i, -, -, rfl⟩ := Keyboard.echoScript_echo ha
    exact hd
  · exact hd
  · rfl
  · exact hd

/-- Control and L, action by action. -/
theorem clear_calls {c : Console} (hk : c.kb.Printable) (hshort : c.kb.bufIdx < numCols) :
    ∀ p ∈ calls act (.cli :: c.kb.clearScript) c,
      p.1.vid.InRange → (act p.2 p.1).vid.InRange := by
  have hactions : ∀ a ∈ Action.cli :: c.kb.clearScript, a.Harmless ∨ a = .clearHelp := by
    intro a ha
    simp only [Keyboard.clearScript, List.mem_cons, List.mem_append, List.not_mem_nil,
      or_false] at ha
    rcases ha with rfl | rfl | ha | rfl | rfl | rfl
    · exact Or.inl trivial
    · exact Or.inl trivial
    · obtain ⟨i, -, -, rfl⟩ := Keyboard.echoScript_echo ha
      exact Or.inl (hk.line i)
    · exact Or.inr rfl
    · exact Or.inl trivial
    · exact Or.inl trivial
  rintro ⟨d, a⟩ hp hrange
  have hd : d.kb.bufIdx = c.kb.bufIdx := clear_calls_bufIdx c _ hp
  rcases hactions a (mem_calls_snd act hp) with ha | rfl
  · exact act_inRange hrange ha
  · refine (Video.clearHelp_inRange_iff hrange ?_).mpr ?_
    · rw [hd]
      exact hk.idx
    · rw [hd]
      exact hshort

theorem key_calls {c : Console} (hk : c.kb.Printable) {scan : UInt8}
    (hleaves : ¬ c.Leaves (.key scan)) :
    ∀ p ∈ calls act (.cli :: c.kb.script scan c.vid.currentTerminal) c,
      p.1.vid.InRange → (act p.2 p.1).vid.InRange := by
  by_cases hback : keyOf scan = .backspace
  · rw [backspace_script hback]
    exact backspace_calls fun e => hleaves (Or.inl ⟨hback, e⟩)
  · by_cases hclear : c.kb.ctrlState = true ∧ scan = lPress
    · obtain ⟨hctrl, rfl⟩ := hclear
      rw [clear_script c.kb hctrl]
      exact clear_calls hk (Int.not_le.mp fun e => hleaves (Or.inr ⟨hctrl, rfl, e⟩))
    · intro p hp hrange
      refine act_inRange hrange ?_
      rcases List.mem_cons.mp (mem_calls_snd act hp) with ha | ha
      · rw [ha]
        trivial
      · exact Keyboard.script_harmless hback hclear _ p.2 ha

theorem key_leaves {c : Console} (h : c.vid.InRange) {scan : UInt8}
    (hleaves : c.Leaves (.key scan)) : ¬ (c.keyboardHandler scan).vid.InRange := by
  intro hrange
  rcases hleaves with ⟨hback, hpos, hecho⟩ | ⟨hctrl, rfl, hlong⟩
  · have hvid : (c.keyboardHandler scan).vid
        = (c.vid.cli.keyboardputc (c.kb.bufIdx - 1) backspaceAscii).sti := by
      rw [keyboardHandler_eq, backspace_script hback]
      unfold Keyboard.backspaceScript
      rw [if_pos hpos]
      rfl
    rw [hvid] at hrange
    have hcli : c.vid.cli.InRange := h
    exact (Video.keyboardputc_inRange_iff hcli _ _).mp hrange ⟨hecho.1, rfl, hecho.2⟩
  · have hhandler : c.keyboardHandler lPress = c.cli.clearScreen := by
      rw [keyboardHandler_eq, clear_script c.kb hctrl, clearScreen_script]
      rfl
    rw [hhandler] at hrange
    unfold clearScreen at hrange
    have hidx : (c.cli.clear.echoLine (List.range 128)).kb.bufIdx = c.kb.bufIdx := by
      rw [echoLine_kb, clear_kb]
      rfl
    generalize c.cli.clear.echoLine (List.range 128) = d at hrange hidx
    have hhelp : (d.vid.clearHelp d.kb.bufIdx).InRange := hrange
    rw [hidx] at hhelp
    exact Video.setCursor_notInRange (fun e => Int.not_le.mpr e.1.2 hlong) hhelp

/-- From a state on the screens, the steps that leave them. -/
theorem consoleStep_inRange_iff {c : Console} (hk : c.kb.Printable) (h : c.vid.InRange)
    (s : ConsoleStep) : (consoleStep s c).vid.InRange ↔ ¬ c.Leaves s := by
  cases s with
  | key scan =>
    constructor
    · exact fun hrange hleaves => key_leaves h hleaves hrange
    · intro hleaves
      show (c.keyboardHandler scan).vid.InRange
      rw [keyboardHandler_eq]
      exact perform_invariant (I := fun d : Console => d.vid.InRange) (key_calls hk hleaves) h
  | write b => exact Video.putc_inRange_iff h c.kb.bufIdx b
  | tick =>
    refine iff_of_true (fun u => ?_) not_false
    show (Video.screenOf (Video.setPagingScheduling _ _) u).InRange
    rw [Video.screenOf_setPagingScheduling]
    exact h u
  | reading on => exact iff_of_true h not_false

theorem consoleStep_stores {c : Console} (hk : c.kb.Printable) (h : c.vid.InRange)
    {s : ConsoleStep} (hleaves : ¬ c.Leaves s) : ∀ a ∈ putcStores s c, Video.InTextPage a := by
  cases s with
  | key scan =>
    intro a ha
    obtain ⟨⟨d, b⟩, hp, ha⟩ := List.mem_flatMap.mp ha
    have hd : d.vid.InRange :=
      calls_invariant (I := fun d : Console => d.vid.InRange) (key_calls hk hleaves) h _ hp
    cases b with
    | echo b => exact Video.keyboardputcStores_inTextPage hd b a ha
    | _ => cases ha
  | write b => exact Video.putcStores_inTextPage h b
  | tick => exact fun a ha => nomatch ha
  | reading on => exact fun a ha => nomatch ha

theorem consoleStep_printable {c : Console} (h : c.kb.Printable) (s : ConsoleStep) :
    (consoleStep s c).kb.Printable := by
  cases s with
  | key scan =>
    show (c.keyboardHandler scan).kb.Printable
    rw [keyboardHandler_kb]
    exact h.press scan _
  | _ => exact h

/-! ## Runs -/

theorem booted_printable (mem : Bytes) : (booted mem).kb.Printable := by
  have hpick : ∀ {k : Keyboard} (t : Term), k.Printable → (k.pick t).changeLine.Printable :=
    fun t h => Keyboard.Printable.changeLine { h with }
  rw [booted_kb]
  exact hpick 0 (hpick 2 (hpick 1 Keyboard.printable_init))

theorem booted_inRange (mem : Bytes) : (booted mem).vid.InRange := (booted_mapped mem).cursors

/-- Every state of a run has its cursors on their screens exactly when no step leaves
them. -/
theorem ran_inRange_iff (mem : Bytes) (steps : List ConsoleStep) :
    (∀ before, before <+: steps → (ran mem before).vid.InRange) ↔
      ∀ p ∈ calls consoleStep steps (booted mem), ¬ p.1.Leaves p.2 :=
  prefixes_invariant_iff (I := fun c : Console => c.vid.InRange)
    (J := fun c : Console => c.kb.Printable) (fun _ s h => consoleStep_printable h s)
    (fun _ s hk h => consoleStep_inRange_iff hk h s) (booted_printable mem) (booted_inRange mem)
    steps

/-- In every run the cursors stay on their screens, and every byte that `putc` stores
lies in the text page, exactly when no step is a backspace that leaves its screen or a
clearing of the screen on a line longer than a row. -/
theorem cursors_inRange_iff (mem : Bytes) (steps : List ConsoleStep) :
    ((∀ before, before <+: steps → (ran mem before).vid.InRange) ∧
      ∀ p ∈ calls consoleStep steps (booted mem), ∀ a ∈ putcStores p.2 p.1, Video.InTextPage a) ↔
    ∀ p ∈ calls consoleStep steps (booted mem), ¬ p.1.Leaves p.2 := by
  constructor
  · exact fun h => (ran_inRange_iff mem steps).mp h.1
  · intro hleaves
    refine ⟨(ran_inRange_iff mem steps).mpr hleaves, fun p hp => ?_⟩
    have hstay : ∀ q ∈ calls consoleStep steps (booted mem),
        q.1.kb.Printable ∧ q.1.vid.InRange →
          (consoleStep q.2 q.1).kb.Printable ∧ (consoleStep q.2 q.1).vid.InRange :=
      fun q hq h => ⟨consoleStep_printable h.1 q.2,
        (consoleStep_inRange_iff h.1 h.2 q.2).mpr (hleaves q hq)⟩
    have hp' := calls_invariant (I := fun c : Console => c.kb.Printable ∧ c.vid.InRange) hstay
      ⟨booted_printable mem, booted_inRange mem⟩ p hp
    exact consoleStep_stores hp'.1 hp'.2 (hleaves p hp)

/-- A process of the first terminal prints a line break and a backspace. -/
theorem cursor_leaves_on_backspace : ¬ ∀ before,
    before <+: [ConsoleStep.write newline, ConsoleStep.write backspaceAscii] →
      (ran (Bytes.ofList []) before).vid.InRange := by
  intro h
  have hrun := (ran_inRange_iff _ _).mp h
  refine hrun (consoleStep (.write newline) (booted (Bytes.ofList [])), .write backspaceAscii)
    (List.mem_cons_of_mem _ List.mem_cons_self) ⟨rfl, Or.inl ?_⟩
  have hrange : (booted (Bytes.ofList [])).vid.InRange := booted_inRange _
  have hsame : (booted (Bytes.ofList [])).vid.scheduledTerm
      = (booted (Bytes.ofList [])).vid.currentTerminal :=
    (booted_scheduledTerm _).trans (booted_currentTerminal _).symm
  have hprocess : (booted (Bytes.ofList [])).vid.keyboardPutCFlag = false :=
    (booted_mapped _).process
  generalize booted (Bytes.ofList []) = c at hrange hsame hprocess
  have hcli : c.vid.cli.InRange := hrange
  have hputc := Video.putc_process c.kb.bufIdx (c := newline) (by decide) hprocess
  have hterm : (c.vid.putc c.kb.bufIdx newline).currentTerminal = c.vid.currentTerminal :=
    congrArg Video.Selection.currentTerminal (Video.putc_selection c.kb.bufIdx newline c.vid)
  have hcursor := Video.print_newline hcli c.vid.scheduledTerm
  show (c.vid.putc c.kb.bufIdx newline).termScreenx (c.vid.putc c.kb.bufIdx newline).currentTerminal
    = 0 ∧ 0 < (c.vid.putc c.kb.bufIdx newline).termScreeny
      (c.vid.putc c.kb.bufIdx newline).currentTerminal
  rw [hterm, hputc, ← hsame]
  exact hcursor

end Console

end StudentDistrib
