import StudentDistrib.Console.Cursor

/-!
# Characters drawn above the screen

`page_table` has the page at `VIDEO` and the three save pages after it, and no page
before them.  After a backspace has taken the cursor above the first row, the next
character that `putc` draws is a page fault inside the kernel, and the handler's
message goes through the same `putc`.
-/

namespace StudentDistrib

open Machine

namespace Video

/-- The addresses of the text screen and of the save pages. -/
def Present (a : Int) : Prop := video ≤ a ∧ a < video + 4 * fourKB

instance (a : Int) : Decidable (Present a) := inferInstanceAs (Decidable (_ ∧ _))

/-- No cursor is past the last column or the last row. -/
def Bounded (v : Video) : Prop := ∀ t, v.termScreenx t < numCols ∧ v.termScreeny t < numRows

theorem InRange.bounded {v : Video} (h : v.InRange) : v.Bounded :=
  fun t => ⟨(h t).1.2, (h t).2.2⟩

theorem InTextPage.present {a : Int} (h : InTextPage a) : Present a := by
  have hpages : video + fourKB ≤ video + 4 * fourKB := by decide
  exact ⟨h.1, Int.lt_of_lt_of_le h.lt_page hpages⟩

/-! ## The cursors after a character -/

theorem bounded_setCursor {v : Video} (h : v.Bounded) {t : Term} {x y : Int} (hx : x < numCols)
    (hy : y < numRows) : (v.setCursor t x y).Bounded := by
  intro u
  unfold setCursor
  dsimp only
  by_cases hu : u = t
  · rw [hu, Function.update_self, Function.update_self]
    exact ⟨hx, hy⟩
  · rw [Function.update_of_ne hu, Function.update_of_ne hu]
    exact h u

/-- A cursor moved at most one row down, and the screen scrolled where it left the
last row. -/
theorem bounded_scrolled {v : Video} (h : v.Bounded) {t : Term} {x y : Int} (hx : x < numCols) :
    ((v.setCursor t x y).scrollIfNeeded t).Bounded := by
  have hrow : (v.setCursor t x y).termScreeny t = y := Function.update_self _ _ _
  have hrows : numRows = 25 := rfl
  unfold scrollIfNeeded
  rw [hrow]
  split
  · have hmem : { v.setCursor t x y with
        mem := scroll (v.setCursor t x y).pageTable (v.setCursor t x y).mem }.setCursor t 0
          (numRows - 1) = { v with mem := scroll v.pageTable v.mem }.setCursor t 0 (numRows - 1) :=
      setCursor_setCursor t x y 0 (numRows - 1) { v with mem := scroll v.pageTable v.mem }
    rw [hmem]
    exact bounded_setCursor (v := { v with mem := scroll v.pageTable v.mem }) h (by decide)
      (by decide)
  · exact bounded_setCursor h hx (by omega)

theorem putBackspace_bounded {v : Video} (h : v.Bounded) (bufIdx : Int) :
    (v.putBackspace bufIdx).Bounded := by
  have hcols : numCols = 80 := rfl
  have hrows : numRows = 25 := rfl
  have hrow := (h v.currentTerminal).2
  have hdrawn : ∀ mem : Bytes, ({ v with mem } : Video).Bounded := fun _ => h
  unfold putBackspace
  dsimp only
  split
  · exact h
  · have hcol : (v.termScreenx v.currentTerminal - 1).tmod numCols < numCols :=
      Int.tmod_lt_of_pos _ (by decide)
    split
    · exact bounded_setCursor (hdrawn _) hcol (Int.tmod_lt_of_pos _ (by decide))
    · exact bounded_setCursor (hdrawn _) hcol (by omega)

theorem putc_bounded {v : Video} (h : v.Bounded) (bufIdx : Int) (c : UInt8) :
    (v.putc bufIdx c).Bounded := by
  have hleft : (0 : Int) < numCols := by decide
  have hcli : v.cli.Bounded := h
  rw [putc_body]
  show (v.cli.putcBody bufIdx c).Bounded
  generalize v.cli = w at hcli
  unfold putcBody print
  split
  · exact putBackspace_bounded hcli bufIdx
  · generalize (if w.keyboardPutCFlag = true then w.currentTerminal else w.scheduledTerm) = t
    split
    · exact bounded_scrolled hcli hleft
    · have hdrawn : ∀ mem : Bytes, ({ w with mem } : Video).Bounded := fun _ => hcli
      unfold putGlyph
      dsimp only
      split
      · exact bounded_scrolled (hdrawn _) hleft
      · exact bounded_scrolled (hdrawn _) (by omega)

theorem keyboardputc_bounded {v : Video} (h : v.Bounded) (bufIdx : Int) (c : UInt8) :
    (v.keyboardputc bufIdx c).Bounded := by
  have hentered :
      ({ v with pageTable := videoFrame, keyboardPutCFlag := true } : Video).Bounded := h
  unfold keyboardputc
  split
  · exact putc_bounded hentered bufIdx c
  · exact h

theorem clear_bounded {v : Video} (h : v.Bounded) : v.clear.Bounded := by
  have hdrawn : ∀ mem : Bytes, ({ v with mem } : Video).Bounded := fun _ => h
  unfold clear
  exact bounded_setCursor (hdrawn _) (by decide) (by decide)

/-! ## The stores that fault -/

theorem cellStores_present_iff {y x : Int} (hx : x < numCols) (hy : y < numRows) :
    (∀ a ∈ cellStores y x, Present a) ↔ 0 ≤ numCols * y + x := by
  have hcols : numCols = 80 := rfl
  have hrows : numRows = 25 := rfl
  rw [hcols] at hx ⊢
  rw [hrows] at hy
  constructor
  · intro h
    have hcell : video ≤ cellAddr y x := (h _ List.mem_cons_self).1
    unfold cellAddr at hcell
    rw [hcols] at hcell
    omega
  · intro h0 a ha
    exact (cellStores_inTextPage (by rw [hcols]; omega) (by rw [hcols, hrows]; omega) a ha).present

/-- The cell under the cursor of the displayed terminal, counted from the first. -/
def cursorCell (v : Video) : Int :=
  numCols * v.termScreeny v.currentTerminal + v.termScreenx v.currentTerminal

theorem echo_present_iff {v : Video} (h : v.Bounded) {c : UInt8} (hback : c ≠ backspaceAscii)
    (hbreak : ¬ (c = newline ∨ c = carriageReturn)) :
    (∀ a ∈ v.keyboardputcStores c, Present a) ↔
      ¬ (v.termReadFlag v.currentTerminal = true ∧ v.cursorCell < 0) := by
  have hcell := cellStores_present_iff (h v.currentTerminal).1 (h v.currentTerminal).2
  unfold keyboardputcStores
  by_cases hread : v.termReadFlag v.currentTerminal = true
  · rw [if_pos hread]
    unfold putcStores
    dsimp only
    rw [if_neg hback, if_neg hbreak, if_pos rfl, List.forall_mem_append, hcell]
    unfold cursorCell
    constructor
    · exact fun hp he => Int.not_le.mpr he.2 hp.1
    · refine fun hn => ⟨Int.not_lt.mp fun hneg => hn ⟨hread, hneg⟩, fun a ha => ?_⟩
      exact (scrollStores_if_inTextPage a ha).present
  · rw [if_neg hread]
    exact iff_of_true (fun a ha => nomatch ha) fun e => hread e.1

theorem echo_newline_present (v : Video) : ∀ a ∈ v.keyboardputcStores newline, Present a := by
  have hback : newline ≠ backspaceAscii := by decide
  unfold keyboardputcStores
  split
  · unfold putcStores
    dsimp only
    rw [if_neg hback, if_pos (Or.inl rfl)]
    exact fun a ha => (scrollStores_if_inTextPage a ha).present
  · exact fun a ha => nomatch ha

/-- The backspace branch stores one cell to the left, and nowhere at the origin. -/
theorem echo_backspace_present_iff {v : Video} (h : v.Bounded) :
    (∀ a ∈ v.keyboardputcStores backspaceAscii, Present a) ↔
      ¬ (v.termReadFlag v.currentTerminal = true ∧
        ¬ (v.termScreenx v.currentTerminal = 0 ∧ v.termScreeny v.currentTerminal = 0) ∧
        v.cursorCell - 1 < 0) := by
  have hcols := (h v.currentTerminal).1
  have hcell := cellStores_present_iff (x := v.termScreenx v.currentTerminal - 1) (by omega)
    (h v.currentTerminal).2
  have hleft : numCols * v.termScreeny v.currentTerminal + (v.termScreenx v.currentTerminal - 1)
      = v.cursorCell - 1 := (Int.add_sub_assoc _ _ _).symm
  rw [hleft] at hcell
  unfold keyboardputcStores
  by_cases hread : v.termReadFlag v.currentTerminal = true
  · rw [if_pos hread]
    unfold putcStores
    dsimp only
    rw [if_pos rfl]
    by_cases horigin : v.termScreenx v.currentTerminal = 0 ∧ v.termScreeny v.currentTerminal = 0
    · rw [if_pos horigin]
      exact iff_of_true (fun a ha => nomatch ha) fun e => e.2.1 horigin
    · rw [if_neg horigin, hcell]
      exact ⟨fun h0 e => Int.not_le.mpr e.2.2 h0,
        fun hn => Int.not_lt.mp fun hneg => hn ⟨hread, horigin, hneg⟩⟩
  · rw [if_neg hread]
    exact iff_of_true (fun a ha => nomatch ha) fun e => hread e.1

theorem setCursor_cursorCell {v : Video} (x y : Int) :
    (v.setCursor v.currentTerminal x y).cursorCell = numCols * y + x := by
  have hx : (v.setCursor v.currentTerminal x y).termScreenx v.currentTerminal = x :=
    Function.update_self _ _ _
  have hy : (v.setCursor v.currentTerminal x y).termScreeny v.currentTerminal = y :=
    Function.update_self _ _ _
  show numCols * (v.setCursor v.currentTerminal x y).termScreeny v.currentTerminal
    + (v.setCursor v.currentTerminal x y).termScreenx v.currentTerminal = _
  rw [hx, hy]

theorem scrolled_cursorCell {v : Video} {x y : Int} (h0 : 0 ≤ numCols * y + x) :
    0 ≤ ((v.setCursor v.currentTerminal x y).scrollIfNeeded v.currentTerminal).cursorCell := by
  unfold scrollIfNeeded
  split
  · have hlast : numCols * (numRows - 1) + 0 = 1920 := by decide
    have hmem := setCursor_cursorCell (v := { v.setCursor v.currentTerminal x y with
      mem := scroll (v.setCursor v.currentTerminal x y).pageTable
        (v.setCursor v.currentTerminal x y).mem }) 0 (numRows - 1)
    rw [hlast] at hmem
    exact hmem ▸ (by decide : (0 : Int) ≤ 1920)
  · rw [setCursor_cursorCell]
    exact h0

/-- A character drawn on the screen leaves the cursor on it. -/
theorem glyph_cursorCell {v : Video} (h : v.Bounded) (c : UInt8) (h0 : 0 ≤ v.cursorCell) :
    0 ≤ ((v.putGlyph v.currentTerminal c).scrollIfNeeded v.currentTerminal).cursorCell := by
  have hcols : numCols = 80 := rfl
  have hcol := (h v.currentTerminal).1
  unfold cursorCell at h0
  rw [hcols] at h0
  have hnext := fun (mem : Bytes) (x y : Int) => scrolled_cursorCell (v := { v with mem })
    (x := x) (y := y)
  unfold putGlyph
  dsimp only
  split
  · exact hnext _ _ _ (by rw [hcols]; omega)
  · exact hnext _ _ _ (by rw [hcols]; omega)

theorem echo_cursorCell {v : Video} (h : v.Bounded) (bufIdx : Int) {c : UInt8}
    (hback : c ≠ backspaceAscii) (hbreak : ¬ (c = newline ∨ c = carriageReturn))
    (h0 : 0 ≤ v.cursorCell) :
    0 ≤ (v.keyboardputc bufIdx c).cursorCell := by
  unfold keyboardputc
  split
  · rw [putc_body]
    unfold putcBody print
    rw [if_neg hback, if_neg hbreak]
    exact glyph_cursorCell (v := cli { v with
      pageTable := videoFrame, keyboardPutCFlag := true }) h c h0
  · exact h0

end Video

/-! ## The keys -/

namespace Console

/-- `keyboard_handler` stores outside the pages that are present. -/
def KeyFaults (scan : UInt8) (c : Console) : Prop :=
  ∃ a ∈ putcStores (.key scan) c, ¬ Video.Present a

instance (scan : UInt8) (c : Console) : Decidable (c.KeyFaults scan) :=
  inferInstanceAs (Decidable (∃ a ∈ _, ¬ Video.Present a))

/-- The key draws above the screen: a character at a cursor above the first row, or a
backspace that clears the cell before one. -/
def DrawsAbove (scan : UInt8) (c : Console) : Prop :=
  c.vid.termReadFlag c.vid.currentTerminal = true ∧
    match keyOf scan with
    | .space | .tab => c.vid.cursorCell < 0
    | .other => scan.toNat < 54 ∧ c.vid.cursorCell < 0
    | .backspace => 0 < c.kb.bufIdx ∧ c.vid.cursorCell ≤ 0 ∧
        ¬ (c.vid.termScreenx c.vid.currentTerminal = 0 ∧
          c.vid.termScreeny c.vid.currentTerminal = 0)
    | _ => False

/-- The addresses that the echoes of a list of actions store to. -/
def echoStores (l : List Action) (c : Console) : List Int :=
  (calls act l c).flatMap fun p =>
    match p.2 with
    | .echo b => p.1.vid.keyboardputcStores b
    | _ => []

variable {c : Console}

/-- No echo of a character other than a line break. -/
theorem echoStores_present {l : List Action} (hl : ∀ b, .echo b ∈ l → b = newline) :
    ∀ a ∈ c.echoStores l, Video.Present a := by
  intro a ha
  obtain ⟨⟨d, e⟩, hp, ha⟩ := List.mem_flatMap.mp ha
  cases e with
  | echo b =>
    have hb := hl b (mem_calls_snd act hp)
    rw [hb] at ha
    exact Video.echo_newline_present d.vid a ha
  | _ => cases ha

/-- The echo of a byte appended to the line. -/
theorem appendScript_present_iff (h : c.vid.Bounded) {b : UInt8} (hback : b ≠ backspaceAscii)
    (hbreak : ¬ (b = newline ∨ b = carriageReturn)) (k : Keyboard) :
    (∀ a ∈ c.echoStores (k.appendScript b), Video.Present a) ↔
      ¬ (c.vid.termReadFlag c.vid.currentTerminal = true ∧ c.vid.cursorCell < 0) := by
  have hrest : c.echoStores (k.appendScript b) = c.vid.keyboardputcStores b := by
    show c.vid.keyboardputcStores b ++ [] = _
    rw [List.append_nil]
  rw [hrest]
  exact Video.echo_present_iff h hback hbreak

theorem echoStores_append (l m : List Action) :
    c.echoStores (l ++ m) = c.echoStores l ++ (perform act l c).echoStores m := by
  induction l generalizing c with
  | nil => rfl
  | cons a l ih =>
    unfold echoStores at ih ⊢
    rw [List.cons_append, calls, calls, List.flatMap_cons, List.flatMap_cons, ih,
      List.append_assoc]
    rfl

/-- The spaces of a tab after the first follow it on the screen. -/
theorem tabScript_present (h : c.vid.Bounded)
    (hscreen : c.vid.termReadFlag c.vid.currentTerminal = true → 0 ≤ c.vid.cursorCell)
    (n : Nat) (k : Keyboard) : ∀ a ∈ c.echoStores (k.tabScript n), Video.Present a := by
  have hback : space ≠ backspaceAscii := by decide
  have hbreak : ¬ (space = newline ∨ space = carriageReturn) := by decide
  have hnone : ∀ d : Console, ∀ a ∈ d.echoStores [.sti], Video.Present a :=
    fun d => echoStores_present fun b hb => nomatch List.mem_singleton.mp hb
  induction n generalizing c k with
  | zero => exact hnone c
  | succ n ih =>
    rw [Keyboard.tabScript]
    split
    · exact hnone c
    · rw [echoStores_append, List.forall_mem_append]
      have hfirst := (appendScript_present_iff h hback hbreak k).mpr
        fun e => Int.not_le.mpr e.2 (hscreen e.1)
      refine ⟨hfirst, ih ?_ ?_ _⟩
      · exact Video.keyboardputc_bounded h _ space
      · intro hread
        have hflag : (c.vid.keyboardputc (k.store k.bufIdx space).bufIdx space).termReadFlag
            (c.vid.keyboardputc (k.store k.bufIdx space).bufIdx space).currentTerminal = true :=
          hread
        rw [Video.keyboardputc_termReadFlag, Video.keyboardputc_currentTerminal] at hflag
        exact Video.echo_cursorCell h _ hback hbreak (hscreen hflag)

/-! ## Writes -/

/-- The addresses that `terminal_write` stores to. -/
def writeStores (buf : List UInt8) (c : Console) : List Int :=
  (calls (fun b v => Video.putc c.kb.bufIdx b v) (buf.filter (· ≠ 0)) c.vid).flatMap
    fun p => p.1.putcStores p.2

/-- `terminal_write` stores outside the pages that are present. -/
def WriteFaults (buf : List UInt8) (c : Console) : Prop :=
  ∃ a ∈ c.writeStores buf, ¬ Video.Present a

instance (buf : List UInt8) (c : Console) : Decidable (c.WriteFaults buf) :=
  inferInstanceAs (Decidable (∃ a ∈ _, ¬ Video.Present a))

theorem act_bounded {a : Action} (h : c.vid.Bounded) (ha : a ≠ .clearHelp) :
    (act a c).vid.Bounded := by
  cases a with
  | echo b => exact Video.keyboardputc_bounded h c.kb.bufIdx b
  | clear => exact Video.clear_bounded h
  | clearHelp => exact absurd rfl ha
  | setPaging t =>
    show (c.vid.setPagingScheduling t).Bounded
    unfold Video.setPagingScheduling
    split <;> exact h
  | changing t =>
    have hcopied : ∀ mem : Bytes, ∀ t : Term,
        ({ c.vid with mem, currentTerminal := t } : Video).Bounded := fun _ _ => h
    show (c.vid.terminalChanging t).Bounded
    unfold Video.terminalChanging
    split
    · exact hcopied _ _
    · exact h
  | _ => exact h

theorem keyboardHandler_bounded (h : c.vid.Bounded) {scan : UInt8}
    (hclear : ¬ (c.kb.ctrlState = true ∧ scan = lPress)) :
    (c.keyboardHandler scan).vid.Bounded := by
  have hactions : ∀ a ∈ Action.cli :: c.kb.script scan c.vid.currentTerminal,
      a ≠ .clearHelp := by
    rintro a ha rfl
    rcases List.mem_cons.mp ha with ha | ha
    · cases ha
    by_cases hback : keyOf scan = .backspace
    · rw [backspace_script hback] at ha
      unfold Keyboard.backspaceScript at ha
      split at ha <;> simp at ha
    · exact Keyboard.script_harmless hback hclear _ _ ha
  rw [keyboardHandler_eq]
  exact perform_invariant (I := fun d : Console => d.vid.Bounded)
    (fun p hp hd => act_bounded hd (hactions p.2 (mem_calls_snd act hp))) h

end Console

end StudentDistrib
