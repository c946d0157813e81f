import StudentDistrib.Console.Background
import StudentDistrib.Machine.Teletype

/-!
# Output as a teletype

The text page of a terminal that was cleared shows the last 25 rows of all that
`terminal_write` printed on it, laid out on rows of 80 columns.  A cell with a null
byte, as scrolling leaves it, and one with a space, as `clear` leaves it, are blank.
-/

namespace StudentDistrib

open Machine

/-- What a cell with byte `b` looks like. -/
def shown (b : UInt8) : UInt8 := if b = 0 then space else b

/-- The characters that end a row. -/
def BreaksRow (c : UInt8) : Prop := c = newline ∨ c = carriageReturn

instance : DecidablePred BreaksRow := fun c =>
  inferInstanceAs (Decidable (c = newline ∨ c = carriageReturn))

/-- The text that a write prints, which skips null bytes, on rows of 80 columns. -/
def layOut (buf : List UInt8) : Teletype UInt8 :=
  (buf.filter (· ≠ 0)).foldl (Teletype.feed BreaksRow 80) Teletype.blank

theorem layOut_concat (buf : List UInt8) (b : UInt8) : layOut (buf ++ [b]) =
    if b = 0 then layOut buf else (layOut buf).feed BreaksRow 80 b := by
  unfold layOut
  rw [List.filter_append, List.foldl_append]
  by_cases hb : b = 0
  · simp [hb]
  · simp [hb]

namespace Screen

/-- The character at row `i` and column `j`. -/
def charAt (i j : Nat) (s : Screen) : UInt8 :=
  if h : 160 * i + 2 * j < 4096 then s.cell ⟨160 * i + 2 * j, h⟩ else 0

/-- The text page looks like the last rows that were printed. -/
def ShowsRows (s : Screen) (t : Teletype UInt8) : Prop :=
  ∀ i < 25, ∀ j < 80, shown (s.charAt i j) = shown ((t.cellAt 25 i j).getD space)

/-- The page shows the last rows, and the cursor follows the last character. -/
structure ShowsText (s : Screen) (t : Teletype UInt8) : Prop where
  rows : s.ShowsRows t
  column : s.x = t.row.length
  line : s.y = t.line 25
  width : t.row.length < 80

/-- A blank page with the cursor in its first cell. -/
structure Cleared (s : Screen) : Prop where
  blank : ∀ i < 25, ∀ j < 80, shown (s.charAt i j) = space
  cursor : s.x = 0 ∧ s.y = 0

variable {s : Screen} {t : Teletype UInt8}

theorem Cleared.showsText (h : s.Cleared) : s.ShowsText Teletype.blank where
  rows := by
    intro i hi j hj
    rw [h.blank i hi j hj, Teletype.cellAt_blank]
    rfl
  column := h.cursor.1
  line := h.cursor.2
  width := by decide

theorem ShowsText.inRange (h : s.ShowsText t) : s.InRange := by
  have hcols : numCols = 80 := rfl
  have hrows : numRows = 25 := rfl
  have hwidth := h.width
  have hline : t.line 25 = min t.done.length 24 := rfl
  simp only [InRange, h.column, h.line, hline]
  omega

theorem charAt_draw (h : s.InRange) (c : UInt8) {i j : Nat} (hi : i < 25) (hj : j < 80) :
    (s.draw c).charAt i j = if (i : Int) = s.y ∧ (j : Int) = s.x then c else s.charAt i j := by
  have hcols : numCols = 80 := rfl
  have hrows : numRows = 25 := rfl
  obtain ⟨hx, hy⟩ := h
  have hcell : 160 * i + 2 * j < 4096 := by omega
  simp only [charAt, draw, dif_pos hcell, offset, hcols]
  by_cases hat : (i : Int) = s.y ∧ (j : Int) = s.x
  · rw [if_pos hat, if_pos]
    push_cast
    omega
  · rw [if_neg hat, if_neg, if_neg]
    · push_cast
      omega
    · push_cast
      omega

theorem charAt_scroll {i j : Nat} (hi : i < 25) (hj : j < 80) :
    s.scroll.charAt i j = if i < 24 then s.charAt (i + 1) j else 0 := by
  have hcell : 160 * i + 2 * j < 4096 := by omega
  have hchar : ¬ (160 * i + 2 * j) % 2 = 1 := by omega
  simp only [charAt, scroll, dif_pos hcell, if_neg hchar]
  by_cases hmoved : i < 24
  · have hnext : 160 * i + 2 * j + 160 = 160 * (i + 1) + 2 * j := by omega
    have hbelow : 160 * (i + 1) + 2 * j < 4096 := by omega
    rw [dif_pos (by omega), if_pos hmoved, dif_pos hbelow]
    simp only [hnext]
  · rw [dif_neg (by omega), if_pos (by omega), if_neg hmoved]

/-- A new row, with the page scrolled where it was full. -/
theorem ShowsRows.newRow (h : s.ShowsRows t) (hline : s.y = t.line 25) :
    ({ s with x := 0, y := s.y + 1 } : Screen).scrollIfNeeded.ShowsText t.newRow := by
  have hrows : numRows = 25 := rfl
  have hdone : t.newRow.done.length = t.done.length + 1 := by simp [Teletype.newRow]
  have hold : t.line 25 = min t.done.length 24 := rfl
  have hnew : t.newRow.line 25 = min (t.done.length + 1) 24 := by
    rw [← hdone]
    rfl
  unfold scrollIfNeeded
  split
  · rename_i hfull
    have hroom : ¬ t.done.length + 1 < 25 := by
      simp only [hline, hold] at hfull
      omega
    refine ⟨fun i hi j hj => ?_, rfl, ?_, Nat.zero_lt_succ 79⟩
    · rw [charAt_scroll hi hj, Teletype.cellAt_newRow t hi, if_neg hroom]
      by_cases hlast : i < 24
      · rw [if_pos hlast, if_pos (by omega)]
        exact h (i + 1) (by omega) j hj
      · rw [if_neg hlast, if_neg (by omega)]
        rfl
    · show numRows - 1 = _
      rw [hnew]
      omega
  · rename_i hfits
    have hroom : t.done.length + 1 < 25 := by
      simp only [hline, hold] at hfits
      omega
    refine ⟨fun i hi j hj => ?_, rfl, ?_, Nat.zero_lt_succ 79⟩
    · rw [Teletype.cellAt_newRow t hi, if_pos hroom]
      exact h i hi j hj
    · show s.y + 1 = _
      rw [hline, hold, hnew]
      omega

/-- A character drawn at the cursor. -/
theorem ShowsText.draw (h : s.ShowsText t) (c : UInt8) : (s.draw c).ShowsRows (t.put c) := by
  intro i hi j hj
  rw [charAt_draw h.inRange c hi hj, Teletype.cellAt_put t c hi]
  have hat : ((i : Int) = s.y ∧ (j : Int) = s.x) ↔ i = t.line 25 ∧ j = t.row.length := by
    rw [h.line, h.column]
    omega
  by_cases hcursor : i = t.line 25 ∧ j = t.row.length
  · rw [if_pos hcursor, if_pos (hat.mpr hcursor)]
    rfl
  · rw [if_neg hcursor, if_neg (fun e => hcursor (hat.mp e))]
    exact h.rows i hi j hj

/-- `putc` prints a character on the teletype. -/
theorem ShowsText.putc (h : s.ShowsText t) (c : UInt8) :
    (s.putc c).ShowsText (t.feed BreaksRow 80 c) := by
  have hcols : numCols = 80 := rfl
  have hrows : numRows = 25 := rfl
  have hcolumn := h.column
  have hwidth := h.width
  have hput : (t.put c).row.length = t.row.length + 1 := by simp [Teletype.put]
  unfold Screen.putc Teletype.feed
  by_cases hbreak : BreaksRow c
  · rw [if_pos hbreak]
    have hbreak' : c = newline ∨ c = carriageReturn := hbreak
    rw [if_pos hbreak']
    exact h.rows.newRow h.line
  · rw [if_neg hbreak]
    have hglyph : ¬ (c = newline ∨ c = carriageReturn) := hbreak
    rw [if_neg hglyph]
    by_cases hwrap : s.x + 1 ≥ numCols
    · rw [if_pos hwrap, if_neg (by omega)]
      exact (h.draw c).newRow h.line
    · have hstay : ¬ ({ s.draw c with x := s.x + 1 } : Screen).y > numRows - 1 := by
        have hy := h.inRange.2.2
        show ¬ s.y > numRows - 1
        omega
      rw [if_neg hwrap, if_pos (by omega), scrollIfNeeded, if_neg hstay]
      refine ⟨h.draw c, ?_, h.line, by omega⟩
      show s.x + 1 = _
      omega

end Screen

namespace Video

theorem ownStores_inTextPage {t : Term} {v : Video} (h : (v.screenOf t).InRange) (c : UInt8) :
    ∀ a ∈ v.ownStores t c, InTextPage a := by
  intro a ha
  unfold ownStores at ha
  split at ha
  · exact scrollStores_if_inTextPage a ha
  · rcases List.mem_append.mp ha with ha | ha
    · exact cellStores_inRange h.1 h.2 a ha
    · exact scrollStores_if_inTextPage a ha

/-- The text page lies at the start of the page that `VIDEO` maps to. -/
theorem translate_inTextPage (frame : Int) {a : Int} (h : InTextPage a) :
    translate frame a = frame * fourKB + (a - video) := by
  have hcols : numCols = 80 := rfl
  have hrows : numRows = 25 := rfl
  obtain ⟨hlow, hhigh⟩ := h
  have hoffset := translate_video frame (o := a - video) (by omega) (by
    rw [hcols, hrows] at hhigh
    show a - video < 4096
    omega)
  have hback : video + (a - video) = a := by omega
  rw [hback] at hoffset
  exact hoffset

end Video

namespace Console

/-! ## Whole writes -/

/-- What `terminal_write` must do to the page and the cursor of its terminal. -/
structure PrintsText (buf : List UInt8) (c : Console) : Prop where
  shows : ((c.written buf).screenOf c.vid.scheduledTerm).ShowsText (layOut buf)
  inRange : ∀ before, before <+: buf → ((c.written before).screenOf c.vid.scheduledTerm).InRange
  stores : ∀ before b, before ++ [b] <+: buf → b ≠ 0 →
    ∀ a ∈ (c.written before).putcStores b, Video.InTextPage a
  outside : ∀ a, ¬ (c.vid.pageTable * fourKB ≤ a ∧
    a < c.vid.pageTable * fourKB + numCols * numRows * 2) → (c.written buf).mem a = c.vid.mem a

theorem written_showsText {c : Console} (hsteady : c.vid.Steady)
    (hclear : (c.vid.screenOf c.vid.scheduledTerm).Cleared) {buf : List UInt8}
    (hback : backspaceAscii ∉ buf) : (c.written buf).selection = c.vid.selection ∧
      ((c.written buf).screenOf c.vid.scheduledTerm).ShowsText (layOut buf) := by
  have hsteps : ∀ before b, before ++ [b] <+: buf → b ≠ backspaceAscii := by
    intro before b hpre hb
    exact hback (hb ▸ hpre.subset (List.mem_append_right _ List.mem_cons_self))
  apply steps_invariant (I := fun before => (c.written before).selection = c.vid.selection ∧
    ((c.written before).screenOf c.vid.scheduledTerm).ShowsText (layOut before))
    (Q := fun _ b => b ≠ backspaceAscii) _ _ hsteps
  · rw [written_nil]
    exact ⟨rfl, hclear.showsText⟩
  · intro before b hbefore hb
    obtain ⟨hsel, hshows⟩ := hbefore
    rw [written_concat, layOut_concat]
    by_cases hzero : b = 0
    · rw [if_pos hzero, if_pos hzero]
      exact ⟨hsel, hshows⟩
    · have hsteady' := hsteady.of_selection hsel
      have hsched : (c.written before).scheduledTerm = c.vid.scheduledTerm :=
        congrArg Video.Selection.scheduledTerm hsel
      rw [if_neg hzero, if_neg hzero]
      refine ⟨(Video.putc_selection _ _ _).trans hsel, ?_⟩
      have hrange := hshows.inRange
      rw [Video.putc_process _ hb hsteady'.process, Video.screenOf_sti]
      rw [← hsched] at hshows hrange ⊢
      rw [Video.print_self (v := (c.written before).cli) b hsteady'.kernel hrange]
      exact hshows.putc b

/-- Output without backspaces on a cleared terminal is that of a teletype. -/
theorem printsText_of_cleared {c : Console} (hsteady : c.vid.Steady)
    (hclear : (c.vid.screenOf c.vid.scheduledTerm).Cleared) {buf : List UInt8}
    (hback : backspaceAscii ∉ buf) : c.PrintsText buf := by
  have hsofar : ∀ before, before <+: buf → (c.written before).selection = c.vid.selection ∧
      ((c.written before).screenOf c.vid.scheduledTerm).ShowsText (layOut before) :=
    fun before hpre => written_showsText hsteady hclear fun h => hback (hpre.subset h)
  have hstores : ∀ before b, before ++ [b] <+: buf → b ≠ 0 →
      ∀ a ∈ (c.written before).putcStores b, Video.InTextPage a := by
    intro before b hpre hb
    obtain ⟨hsel, hshows⟩ := hsofar before ((List.prefix_append _ _).trans hpre)
    have hsched : (c.written before).scheduledTerm = c.vid.scheduledTerm :=
      congrArg Video.Selection.scheduledTerm hsel
    have hne : b ≠ backspaceAscii := fun e =>
      hback (e ▸ hpre.subset (List.mem_append_right _ List.mem_cons_self))
    rw [Video.putcStores_process hne (hsteady.of_selection hsel).process, hsched]
    exact Video.ownStores_inTextPage hshows.inRange b
  refine
    { shows := (hsofar buf (List.prefix_refl _)).2
      inRange := fun before hpre => (hsofar before hpre).2.inRange
      stores := hstores
      outside := fun a ha => ?_ }
  apply steps_invariant (I := fun before => before <+: buf → (c.written before).mem a = c.vid.mem a)
    (Q := fun _ _ => True) _ _ (fun _ _ _ => trivial) (List.prefix_refl buf)
  · intro _
    rw [written_nil]
  · intro before b hbefore _ hpre
    obtain ⟨hsel, -⟩ := hsofar before ((List.prefix_append _ _).trans hpre)
    have hpage : (c.written before).pageTable = c.vid.pageTable :=
      congrArg Video.Selection.pageTable hsel
    rw [written_concat, ← hbefore ((List.prefix_append _ _).trans hpre)]
    by_cases hzero : b = 0
    · rw [if_pos hzero]
    · rw [if_neg hzero]
      apply Video.putc_frame
      intro s hs heq
      have htext := hstores before b hpre hzero s hs
      rw [Video.translate_inTextPage _ htext, hpage] at heq
      obtain ⟨hlow, hhigh⟩ := htext
      exact ha (by omega)

/-! ## The cleared page -/

theorem clear_mem (mem : Bytes) {n : Nat} (hn : n ≤ 2000) (a : Int) :
    (List.range n).foldl (fun m (i : Nat) => drawCell videoFrame 0 i space m) mem a =
      if video ≤ a ∧ a < video + 2 * n then
        if (a - video) % 2 = 1 then attrib else space
      else mem a := by
  have hpage : fourKB = 4096 := rfl
  have hbase : videoFrame * fourKB = video := by
    rw [videoFrame_eq]
    rfl
  induction n with
  | zero =>
    rw [if_neg (by omega)]
    rfl
  | succ n ih =>
    have hoffset : Screen.offset 0 n = 2 * n := by
      simp only [Screen.offset]
      omega
    rw [List.range_succ, List.foldl_append, List.foldl_cons, List.foldl_nil,
      drawCell_apply videoFrame (by omega) (by omega), ih (by omega), hoffset, hbase]
    by_cases hchar : a = video + 2 * n
    · rw [if_pos hchar, if_pos (by omega), if_neg (by omega)]
    · by_cases hattr : a = video + 2 * n + 1
      · rw [if_neg hchar, if_pos hattr, if_pos (by omega), if_pos (by omega)]
      · rw [if_neg hchar, if_neg hattr]
        by_cases hdone : video ≤ a ∧ a < video + 2 * n
        · have hnext : video ≤ a ∧ a < video + 2 * (n + 1 : Nat) := by omega
          rw [if_pos hdone, if_pos hnext]
        · rw [if_neg hdone, if_neg (by omega)]

/-- `clear` clears the displayed terminal. -/
theorem clear_cleared (v : Video) : (v.clear.screenOf v.currentTerminal).Cleared := by
  have hbase : videoFrame * fourKB = video := by
    rw [videoFrame_eq]
    rfl
  refine ⟨fun i hi j hj => ?_, ?_, ?_⟩
  · have hcell : 160 * i + 2 * j < 4096 := by omega
    have hframe : v.clear.logicalFrame v.currentTerminal = videoFrame := by
      have hcurrent : v.clear.currentTerminal = v.currentTerminal :=
        congrArg Video.Selection.currentTerminal (Video.clear_selection v)
      simp only [Video.logicalFrame, hcurrent, if_true]
    have hmem : v.clear.mem = (List.range 2000).foldl
        (fun m (i : Nat) => drawCell videoFrame 0 i space m) v.mem := by
      simp only [Video.clear, Video.setCursor]
    simp only [Screen.charAt, dif_pos hcell, Video.screenOf, pageAt, hframe, hbase, hmem]
    rw [clear_mem v.mem (Nat.le_refl _), if_pos (by push_cast; omega),
      if_neg (by push_cast; omega)]
    rfl
  · simp only [Video.screenOf, Video.clear, Video.setCursor, Function.update_self]
  · simp only [Video.screenOf, Video.clear, Video.setCursor, Function.update_self]

/-- A line that the first process of a freshly cleared console prints. -/
theorem printsText_line : (init (Bytes.ofList [])).PrintsText [0x68, 0x69, newline] := by
  have hmapped := init_mapped (Bytes.ofList [])
  have hscheduled : (init (Bytes.ofList [])).vid.scheduledTerm = 0 := Video.init_scheduledTerm _
  have hclear : ((init (Bytes.ofList [])).vid.screenOf 0).Cleared := by
    unfold init Video.init
    exact clear_cleared _
  exact printsText_of_cleared hmapped.steady (by rw [hscheduled]; exact hclear) (by decide)

end Console

end StudentDistrib
