import StudentDistrib.Console.Cursor
import StudentDistrib.Machine.Steps

/-!
# Output of a process whose terminal is not displayed

`putc` takes the cursor of the scheduled terminal for every character of a process but
one: the branch for a backspace takes the cursor of the displayed terminal, while
`VIDEO` maps to the page of the scheduled one.  What a process writes stays on its own
terminal exactly when that branch does nothing.
-/

namespace StudentDistrib

open Machine

namespace Video

/-- The cell at the cursor of terminal `t` does not lie past the page. -/
def OnPage (t : Term) (v : Video) : Prop :=
  Screen.offset (v.termScreeny t) (v.termScreenx t) + 1 < fourKB

/-- The cursor of the displayed terminal is in the first cell. -/
def AtOrigin (v : Video) : Prop :=
  v.termScreenx v.currentTerminal = 0 ∧ v.termScreeny v.currentTerminal = 0

/-- The addresses that the cursor of terminal `t` selects for a character: its cell, and
the text page where the cursor leaves the last row. -/
def ownStores (t : Term) (c : UInt8) (v : Video) : List Int :=
  if c = newline ∨ c = carriageReturn then
    if (v.putNewline t).termScreeny t > numRows - 1 then scrollStores else []
  else
    cellStores (v.termScreeny t) (v.termScreenx t) ++
      if (v.putGlyph t c).termScreeny t > numRows - 1 then scrollStores else []

theorem putcStores_process {c : UInt8} (hc : c ≠ backspaceAscii) {v : Video}
    (hprocess : v.keyboardPutCFlag = false) :
    v.putcStores c = v.ownStores v.scheduledTerm c := by
  simp only [putcStores, ownStores, hc, hprocess, if_false, Bool.false_eq_true]

/-- An address up to the end of the page at `VIDEO` reaches no page but the one mapped. -/
theorem translate_ne_page {f g a : Int} (hne : f ≠ g) (hg : videoFrame ≤ g)
    (ha : a < video + fourKB) (i : Fin 4096) : translate f a ≠ g * fourKB + i := by
  have hi := i.isLt
  rw [videoFrame_eq] at hg
  unfold translate video fourKB at *
  split <;> omega

/-- A byte of the mapped page is reached through its own virtual address. -/
theorem translate_eq_page {f a : Int} (hf : videoFrame ≤ f) (ha : a < video + fourKB)
    {i : Fin 4096} (h : translate f a = f * fourKB + i) : a = video + i := by
  have hi := i.isLt
  rw [videoFrame_eq] at hf
  unfold translate video fourKB at *
  split at h <;> omega

theorem videoFrame_le_logicalFrame (v : Video) (t : Term) : videoFrame ≤ v.logicalFrame t := by
  unfold logicalFrame
  split
  · exact Int.le_refl _
  · rw [saveFrame_eq, videoFrame_eq]
    omega

theorem ownStores_lt {t : Term} {v : Video} (h : v.OnPage t) (c : UInt8) :
    ∀ a ∈ v.ownStores t c, a < video + fourKB := by
  have hsize : fourKB = 4096 := rfl
  intro a ha
  unfold ownStores at ha
  split at ha
  · exact (scrollStores_if_inTextPage a ha).lt_page
  · rcases List.mem_append.mp ha with ha | ha
    · simp only [OnPage] at h
      simp only [cellStores, cellAddr_eq, List.mem_cons, List.not_mem_nil, or_false] at ha
      omega
    · exact (scrollStores_if_inTextPage a ha).lt_page

/-! ## The cursors -/

theorem print_cursor_ne {t u : Term} (hne : u ≠ t) (c : UInt8) (v : Video) :
    (v.print t c).termScreenx u = v.termScreenx u ∧
      (v.print t c).termScreeny u = v.termScreeny u := by
  unfold print putNewline putGlyph scrollIfNeeded setCursor
  dsimp only
  split
  · split <;> simp only [Function.update_of_ne hne, and_self]
  · split <;> split <;> simp only [Function.update_of_ne hne, and_self]

theorem scrollIfNeeded_onPage {t : Term} {v : Video} (hx : v.termScreenx t < numCols) :
    (v.scrollIfNeeded t).OnPage t := by
  have hcols : numCols = 80 := rfl
  have hrows : numRows = 25 := rfl
  have hsize : fourKB = 4096 := rfl
  unfold scrollIfNeeded
  split
  · simp only [OnPage, setCursor, Function.update_self, Screen.offset, hcols, hrows]
    omega
  · simp only [OnPage, Screen.offset, hcols]
    omega

/-- After a character the cursor is on the page, wherever it was before. -/
theorem print_onPage (t : Term) (c : UInt8) (v : Video) : (v.print t c).OnPage t := by
  have hcols : numCols = 80 := rfl
  unfold print
  split
  · apply scrollIfNeeded_onPage
    simp only [putNewline, setCursor, Function.update_self]
    omega
  · apply scrollIfNeeded_onPage
    unfold putGlyph
    dsimp only
    split
    · simp only [setCursor, Function.update_self]
      omega
    · simp only [setCursor, Function.update_self]
      omega

/-- A backspace moves the cursor of the displayed terminal unless it is in the first
cell. -/
theorem putBackspace_cursor (bufIdx : Int) (v : Video) :
    (v.putBackspace bufIdx).termScreenx v.currentTerminal = v.termScreenx v.currentTerminal ↔
      v.AtOrigin := by
  have hcols : numCols = 80 := rfl
  have hdivision := Int.mul_tdiv_add_tmod (v.termScreenx v.currentTerminal - 1) 80
  unfold putBackspace AtOrigin
  dsimp only
  by_cases horigin : v.termScreenx v.currentTerminal = 0 ∧ v.termScreeny v.currentTerminal = 0
  · simp only [horigin, and_self, if_true]
  · rw [if_neg horigin]
    refine iff_of_false ?_ horigin
    split <;> simp only [setCursor, Function.update_self, hcols] <;> omega

/-! ## One character -/

/-- A character drawn by the process of terminal `s` changes its own screen only, and
there only what its cursor selects. -/
structure PrintsOwn (s : Term) (c : UInt8) (v v' : Video) : Prop where
  others : ∀ t, t ≠ s → v'.screenOf t = v.screenOf t
  own : ∀ i : Fin 4096, (v'.screenOf s).cell i ≠ (v.screenOf s).cell i →
    video + (i : Nat) ∈ v.ownStores s c

theorem printsOwn_of_screens {v v' : Video} (h : v'.screenOf = v.screenOf) (s : Term) (c : UInt8) :
    PrintsOwn s c v v' where
  others := fun _ _ => by rw [h]
  own := fun i hi => absurd (by rw [h]) hi

/-- A character other than a backspace. -/
theorem putc_printsOwn {v : Video} (h : v.Steady) (hpage : v.OnPage v.scheduledTerm)
    (bufIdx : Int) {c : UInt8} (hc : c ≠ backspaceAscii) :
    PrintsOwn v.scheduledTerm c v (v.putc bufIdx c) := by
  have hstores := putcStores_process hc h.process
  have hlt := ownStores_lt hpage c
  have hcurrent : (v.putc bufIdx c).currentTerminal = v.currentTerminal :=
    congrArg Selection.currentTerminal (putc_selection bufIdx c v)
  have hframe : ∀ t, (v.putc bufIdx c).logicalFrame t = v.logicalFrame t := by
    intro t
    simp only [logicalFrame, hcurrent]
  refine ⟨fun t ht => ?_, fun i hi => ?_⟩
  · have hcursor : (v.putc bufIdx c).termScreenx t = v.termScreenx t ∧
        (v.putc bufIdx c).termScreeny t = v.termScreeny t := by
      rw [putc_process bufIdx hc h.process]
      exact print_cursor_ne ht c v.cli
    have hcell : pageAt (v.logicalFrame t) (v.putc bufIdx c).mem
        = pageAt (v.logicalFrame t) v.mem := by
      funext i
      apply putc_frame
      intro a ha
      rw [hstores] at ha
      rw [h.kernel]
      exact translate_ne_page (logicalFrame_ne ht.symm) (videoFrame_le_logicalFrame v t)
        (hlt a ha) i
    simp only [screenOf, hframe, hcell, hcursor]
  · by_contra hout
    apply hi
    show pageAt ((v.putc bufIdx c).logicalFrame v.scheduledTerm) (v.putc bufIdx c).mem i
      = pageAt (v.logicalFrame v.scheduledTerm) v.mem i
    rw [hframe]
    apply putc_frame
    intro a ha heq
    rw [hstores] at ha
    rw [h.kernel] at heq
    have haddr := translate_eq_page (videoFrame_le_logicalFrame v v.scheduledTerm) (hlt a ha) heq
    exact hout (haddr ▸ ha)

theorem putc_origin {v : Video} (horigin : v.AtOrigin) (bufIdx : Int) :
    v.putc bufIdx backspaceAscii = v.cli.sti := by
  have hcli : v.cli.termScreenx v.cli.currentTerminal = 0 ∧
      v.cli.termScreeny v.cli.currentTerminal = 0 := horigin
  unfold putc putBackspace
  dsimp only
  rw [if_pos rfl, if_pos hcli]

/-- A backspace on the origin draws nothing. -/
theorem putc_origin_printsOwn {v : Video} (horigin : v.AtOrigin) (bufIdx : Int) :
    PrintsOwn v.scheduledTerm backspaceAscii v (v.putc bufIdx backspaceAscii) := by
  have hsame : v.cli.sti.screenOf = v.screenOf := rfl
  rw [putc_origin horigin]
  exact printsOwn_of_screens hsame _ _

end Video

namespace Console

/-! ## Whole writes -/

/-- The screens after `terminal_write`. -/
def written (buf : List UInt8) (c : Console) : Video := (c.terminalWrite buf).1.vid

theorem written_eq (buf : List UInt8) (c : Console) : c.written buf =
    (buf.filter (· ≠ 0)).foldl (fun v b => v.putc c.kb.bufIdx b) c.vid := by
  unfold written terminalWrite
  split
  · rename_i hnil
    rw [hnil]
    rfl
  · rfl

theorem written_nil (c : Console) : c.written [] = c.vid := written_eq [] c

theorem written_concat (buf : List UInt8) (b : UInt8) (c : Console) : c.written (buf ++ [b]) =
    if b = 0 then c.written buf else (c.written buf).putc c.kb.bufIdx b := by
  rw [written_eq, written_eq, List.filter_append, List.foldl_append]
  by_cases hb : b = 0
  · simp [hb]
  · simp [hb]

/-- The screens of the terminals but the scheduled one stay as they are through the
write, and every byte that changes on its own screen is selected by its own cursor. -/
structure StaysOwn (buf : List UInt8) (c : Console) : Prop where
  others : ∀ before, before <+: buf → ∀ t, t ≠ c.vid.scheduledTerm →
    (c.written before).screenOf t = c.vid.screenOf t
  own : ∀ before b, before ++ [b] <+: buf → ∀ i : Fin 4096,
    ((c.written (before ++ [b])).screenOf c.vid.scheduledTerm).cell i
      ≠ ((c.written before).screenOf c.vid.scheduledTerm).cell i →
    video + (i : Nat) ∈ (c.written before).ownStores c.vid.scheduledTerm b

/-- What a write keeps as long as it stays on its own terminal. -/
structure WriteKeeps (before : List UInt8) (c : Console) : Prop where
  selection : (c.written before).selection = c.vid.selection
  page : (c.written before).OnPage c.vid.scheduledTerm
  others : ∀ t, t ≠ c.vid.scheduledTerm → (c.written before).screenOf t = c.vid.screenOf t

theorem staysOwn_iff_steps {c : Console} {buf : List UInt8} : c.StaysOwn buf ↔
    ∀ before b, before ++ [b] <+: buf →
      (∀ t, t ≠ c.vid.scheduledTerm →
        (c.written (before ++ [b])).screenOf t = c.vid.screenOf t) ∧
      ∀ i : Fin 4096, ((c.written (before ++ [b])).screenOf c.vid.scheduledTerm).cell i
        ≠ ((c.written before).screenOf c.vid.scheduledTerm).cell i →
        video + (i : Nat) ∈ (c.written before).ownStores c.vid.scheduledTerm b := by
  constructor
  · intro h before b hpre
    exact ⟨h.others _ hpre, h.own before b hpre⟩
  · intro h
    refine ⟨fun before hpre t ht => ?_, fun before b hpre => (h before b hpre).2⟩
    rcases List.eq_nil_or_concat' before with rfl | ⟨init, b, rfl⟩
    · rw [written_nil]
    · exact (h init b hpre).1 t ht

variable {c : Console} {before : List UInt8} {b : UInt8}

theorem writeKeeps_nil (hpage : c.vid.OnPage c.vid.scheduledTerm) : c.WriteKeeps [] := by
  refine ⟨?_, ?_, fun t _ => ?_⟩
  · rw [written_nil]
  · rw [written_nil]
    exact hpage
  · rw [written_nil]

/-- The displayed terminal's cursor is still where it was. -/
theorem WriteKeeps.atOrigin_iff (h : c.WriteKeeps before)
    (hne : c.vid.scheduledTerm ≠ c.vid.currentTerminal) :
    (c.written before).AtOrigin ↔ c.vid.AtOrigin := by
  have hcurrent : (c.written before).currentTerminal = c.vid.currentTerminal :=
    congrArg Video.Selection.currentTerminal h.selection
  have hscreen := h.others c.vid.currentTerminal hne.symm
  have hx : (c.written before).termScreenx c.vid.currentTerminal
      = c.vid.termScreenx c.vid.currentTerminal := congrArg Screen.x hscreen
  have hy : (c.written before).termScreeny c.vid.currentTerminal
      = c.vid.termScreeny c.vid.currentTerminal := congrArg Screen.y hscreen
  simp only [Video.AtOrigin, hcurrent, hx, hy]

/-- A byte that is no backspace, or one that finds the displayed cursor in the first
cell, stays on the writer's terminal. -/
theorem WriteKeeps.concat (h : c.WriteKeeps before) (hsteady : c.vid.Steady)
    (hne : c.vid.scheduledTerm ≠ c.vid.currentTerminal)
    (hb : b = backspaceAscii → c.vid.AtOrigin) :
    c.WriteKeeps (before ++ [b]) ∧
      Video.PrintsOwn c.vid.scheduledTerm b (c.written before) (c.written (before ++ [b])) := by
  have hsched : (c.written before).scheduledTerm = c.vid.scheduledTerm :=
    congrArg Video.Selection.scheduledTerm h.selection
  have hsteady' := hsteady.of_selection h.selection
  have hprints : Video.PrintsOwn c.vid.scheduledTerm b (c.written before)
      (c.written (before ++ [b])) ∧
      (c.written (before ++ [b])).selection = c.vid.selection ∧
      (c.written (before ++ [b])).OnPage c.vid.scheduledTerm := by
    rw [written_concat]
    by_cases hzero : b = 0
    · rw [if_pos hzero]
      exact ⟨Video.printsOwn_of_screens rfl _ _, h.selection, h.page⟩
    · rw [if_neg hzero]
      have hsel := (Video.putc_selection c.kb.bufIdx b (c.written before)).trans h.selection
      have hpage := h.page
      rw [← hsched] at hpage ⊢
      by_cases hback : b = backspaceAscii
      · have horigin := (h.atOrigin_iff hne).mpr (hb hback)
        subst hback
        refine ⟨Video.putc_origin_printsOwn horigin _, hsel, ?_⟩
        rw [Video.putc_origin horigin]
        exact hpage
      · refine ⟨Video.putc_printsOwn hsteady' hpage _ hback, hsel, ?_⟩
        rw [Video.putc_process _ hback hsteady'.process]
        exact Video.print_onPage _ b _
  obtain ⟨hprints, hsel, hpage⟩ := hprints
  exact ⟨⟨hsel, hpage, fun t ht => (hprints.others t ht).trans (h.others t ht)⟩, hprints⟩

/-- A backspace that finds the displayed cursor elsewhere moves it. -/
theorem WriteKeeps.backspace (h : c.WriteKeeps before) (horigin : ¬ c.vid.AtOrigin)
    (hne : c.vid.scheduledTerm ≠ c.vid.currentTerminal) :
    (c.written (before ++ [backspaceAscii])).screenOf c.vid.currentTerminal
      ≠ c.vid.screenOf c.vid.currentTerminal := by
  intro hsame
  have hx : (c.written (before ++ [backspaceAscii])).termScreenx c.vid.currentTerminal
      = c.vid.termScreenx c.vid.currentTerminal := congrArg Screen.x hsame
  have hx' : (c.written before).termScreenx c.vid.currentTerminal
      = c.vid.termScreenx c.vid.currentTerminal :=
    congrArg Screen.x (h.others c.vid.currentTerminal hne.symm)
  have hcurrent : (c.written before).currentTerminal = c.vid.currentTerminal :=
    congrArg Video.Selection.currentTerminal h.selection
  rw [written_concat, if_neg (by decide), Video.putc_body, ← hx', ← hcurrent] at hx
  unfold Video.putcBody at hx
  rw [if_pos rfl] at hx
  have hcli : (c.written before).cli.AtOrigin :=
    (Video.putBackspace_cursor c.kb.bufIdx (c.written before).cli).mp hx
  exact horigin ((h.atOrigin_iff hne).mp hcli)

/-- Output of a process whose terminal is not displayed stays on its terminal exactly
when it has no backspace or the displayed cursor is in the first cell. -/
theorem staysOwn_iff {c : Console} (hsteady : c.vid.Steady)
    (hpage : c.vid.OnPage c.vid.scheduledTerm)
    (hne : c.vid.scheduledTerm ≠ c.vid.currentTerminal) (buf : List UInt8) :
    c.StaysOwn buf ↔ (backspaceAscii ∈ buf → c.vid.AtOrigin) := by
  have hsteps : (∀ before b, before ++ [b] <+: buf → b = backspaceAscii → c.vid.AtOrigin) ↔
      (backspaceAscii ∈ buf → c.vid.AtOrigin) := by
    constructor
    · intro h hmem
      obtain ⟨before, rest, heq⟩ := List.append_of_mem hmem
      have hpre : before ++ [backspaceAscii] <+: buf := ⟨rest, by simp [heq]⟩
      exact h before backspaceAscii hpre rfl
    · intro h before b hpre hb
      exact h (hb ▸ hpre.subset (List.mem_append_right _ List.mem_cons_self))
  rw [staysOwn_iff_steps, ← hsteps]
  apply forall_steps_iff (I := fun before => c.WriteKeeps before)
  · exact writeKeeps_nil hpage
  · intro before b h hb
    exact (h.concat hsteady hne hb).1
  · intro before b h
    constructor
    · intro hstays hback
      by_contra horigin
      subst hback
      exact h.backspace horigin hne (hstays.1 c.vid.currentTerminal hne.symm)
    · intro hb
      obtain ⟨hkeeps, hprints⟩ := h.concat hsteady hne hb
      exact ⟨hkeeps.others, hprints.own⟩

/-! ## The cursors of a run

A cursor may leave its screen, by the backspaces and clearings of `Leaves`, but never
past the page while the line stays in its buffer. -/

/-- The last row at most, and past the last column in the first row only. -/
def Low (v : Video) : Prop := ∀ t, v.termScreeny t < numRows ∧
  (v.termScreenx t < numCols ∨ v.termScreeny t ≤ 0 ∧ v.termScreenx t ≤ bufsize)

theorem Low.onPage {v : Video} (h : Low v) (t : Term) : v.OnPage t := by
  have hcols : numCols = 80 := rfl
  have hrows : numRows = 25 := rfl
  have hsize : bufsize = 128 := rfl
  have hpage : fourKB = 4096 := rfl
  obtain ⟨hy, hx⟩ := h t
  simp only [Video.OnPage, Screen.offset, hcols, hpage]
  omega

theorem Low.setCursor {v : Video} (h : Low v) (t : Term) {x y : Int} (hy : y < numRows)
    (hx : x < numCols ∨ y ≤ 0 ∧ x ≤ bufsize) : Low (v.setCursor t x y) := by
  intro u
  simp only [Video.setCursor, Function.update_apply]
  split
  · exact ⟨hy, hx⟩
  · exact h u

theorem Low.scrolled {v : Video} (h : Low v) (t : Term) {x y : Int} (hx : x < numCols) :
    Low ((v.setCursor t x y).scrollIfNeeded t) := by
  have hcols : numCols = 80 := rfl
  have hrows : numRows = 25 := rfl
  have hrow : (v.setCursor t x y).termScreeny t = y := Function.update_self _ _ _
  unfold Video.scrollIfNeeded
  rw [hrow]
  split
  · intro u
    simp only [Video.setCursor, Function.update_idem, Function.update_apply]
    split
    · omega
    · exact h u
  · exact h.setCursor t (by omega) (Or.inl hx)

theorem Low.print {v : Video} (h : Low v) (t : Term) (c : UInt8) : Low (v.print t c) := by
  have hcols : numCols = 80 := rfl
  have hdrawn : ∀ m : Bytes, Low { v with mem := m } := fun _ => h
  unfold Video.print
  split
  · exact h.scrolled t (by omega)
  · unfold Video.putGlyph
    dsimp only
    split
    · exact (hdrawn _).scrolled t (by omega)
    · exact (hdrawn _).scrolled t (by omega)

theorem Low.putBackspace {v : Video} (h : Low v) (bufIdx : Int) : Low (v.putBackspace bufIdx) := by
  have hcols : numCols = 80 := rfl
  have hrows : numRows = 25 := rfl
  have hdrawn : ∀ m : Bytes, Low { v with mem := m } := fun _ => h
  have hcol : ∀ x : Int, x.tmod numCols < numCols := fun x => Int.tmod_lt_of_pos x (by omega)
  have hrow : ∀ y : Int, y.tmod numRows < numRows := fun y => Int.tmod_lt_of_pos y (by omega)
  have hy := (h v.currentTerminal).1
  unfold Video.putBackspace
  dsimp only
  split
  · exact h
  · split
    · exact (hdrawn _).setCursor _ (hrow _) (Or.inl (hcol _))
    · exact (hdrawn _).setCursor _ (by omega) (Or.inl (hcol _))

theorem Low.putc {v : Video} (h : Low v) (bufIdx : Int) (c : UInt8) : Low (v.putc bufIdx c) := by
  have hcli : Low v.cli := h
  rw [Video.putc_body]
  show Low (v.cli.putcBody bufIdx c)
  unfold Video.putcBody
  split
  · exact hcli.putBackspace bufIdx
  · exact hcli.print _ c

theorem Low.clear {v : Video} (h : Low v) : Low v.clear := by
  have hdrawn : ∀ m : Bytes, Low { v with mem := m } := fun _ => h
  unfold Video.clear
  exact (hdrawn _).setCursor _ (by decide) (by decide)

/-- Of the handler's actions only `clear_help` looks at the line. -/
theorem Low.act {a : Action} {c : Console} (h : Low c.vid)
    (ha : a = .clearHelp → c.kb.bufIdx ≤ bufsize) : Low (act a c).vid := by
  cases a with
  | echo b =>
    show Low (c.vid.keyboardputc c.kb.bufIdx b)
    unfold Video.keyboardputc
    split
    · have hentered : Low { c.vid with pageTable := videoFrame, keyboardPutCFlag := true } := h
      exact hentered.putc _ b
    · exact h
  | clear =>
    show Low (Video.clear c.vid)
    exact h.clear
  | clearHelp =>
    refine h.setCursor c.vid.currentTerminal (by decide) (Or.inr ⟨Int.le_refl 0, ha rfl⟩)
  | setPaging t =>
    show Low (c.vid.setPagingScheduling t)
    unfold Video.setPagingScheduling
    split <;> exact h
  | changing t =>
    have hkept : ∀ (m : Bytes) (u : Term), Low { c.vid with mem := m, currentTerminal := u } :=
      fun _ _ => h
    show Low (c.vid.terminalChanging t)
    unfold Video.terminalChanging
    dsimp only
    split
    · exact hkept _ _
    · exact h
  | set k => exact h
  | cli => exact fun t => h t
  | sti => exact fun t => h t

theorem Low.keyboardHandler {c : Console} (h : Low c.vid) (hidx : c.kb.bufIdx ≤ bufsize)
    (scan : UInt8) : Low (c.keyboardHandler scan).vid := by
  rw [keyboardHandler_eq]
  apply perform_invariant (I := fun d : Console => Low d.vid) _ h
  intro p hp hlow
  refine hlow.act fun hhelp => ?_
  by_cases hclear : c.kb.ctrlState = true ∧ scan = lPress
  · obtain ⟨hctrl, rfl⟩ := hclear
    rw [clear_script c.kb hctrl] at hp
    rw [clear_calls_bufIdx c p hp]
    exact hidx
  · have hmem := mem_calls_snd Console.act hp
    rw [hhelp] at hmem
    rcases List.mem_cons.mp hmem with hcli | hscript
    · cases hcli
    · by_cases hback : keyOf scan = .backspace
      · have hscan : c.kb.script scan c.vid.currentTerminal = c.kb.backspaceScript := by
          simp only [Keyboard.script, hback]
        rw [hscan] at hscript
        unfold Keyboard.backspaceScript at hscript
        split at hscript <;> simp at hscript
      · exact (Keyboard.script_harmless hback hclear _ _ hscript).elim

theorem Low.consoleStep {c : Console} (h : Low c.vid) (hidx : c.kb.bufIdx ≤ bufsize)
    (s : ConsoleStep) : Low (consoleStep s c).vid := by
  cases s with
  | key scan => exact h.keyboardHandler hidx scan
  | write b => exact h.putc _ b
  | tick =>
    show Low (Video.setPagingScheduling _ _)
    unfold Video.setPagingScheduling
    split <;> exact h
  | reading on => exact h

theorem low_of_inRange {v : Video} (h : v.InRange) : Low v := fun t =>
  ⟨(h t).2.2, Or.inl (h t).1.2⟩

theorem booted_low (mem : Bytes) : Low (booted mem).vid := low_of_inRange (booted_inRange mem)

/-- In a run that keeps the line in its buffer no cursor is past its page. -/
theorem ran_onPage (mem : Bytes) (steps : List ConsoleStep)
    (hidx : ∀ before s, before ++ [s] <+: steps → (ran mem before).kb.bufIdx ≤ bufsize) (t : Term) :
    (ran mem steps).vid.OnPage t := by
  apply Low.onPage
  apply steps_invariant (I := fun before => Low (ran mem before).vid)
    (Q := fun before _ => (ran mem before).kb.bufIdx ≤ bufsize) _ _ hidx
  · exact booted_low mem
  · intro before s hlow hline
    have hrun : ran mem (before ++ [s]) = Console.consoleStep s (ran mem before) := by
      simp only [ran, perform_append, perform]
    rw [hrun]
    exact hlow.consoleStep hline s

/-- A letter written by the second terminal's process while the first is displayed. -/
theorem staysOwn_letter : (booted (Bytes.ofList [])).nextTerminal.StaysOwn [0x41] := by
  have hmapped := nextTerminal_mapped (booted_mapped (Bytes.ofList []))
  have hne : (booted (Bytes.ofList [])).nextTerminal.vid.scheduledTerm
      ≠ (booted (Bytes.ofList [])).nextTerminal.vid.currentTerminal := by
    rw [nextTerminal_scheduledTerm, nextTerminal_currentTerminal, booted_scheduledTerm,
      booted_currentTerminal]
    decide
  have hletter : backspaceAscii ∉ [(0x41 : UInt8)] := by decide
  have hidx : (booted (Bytes.ofList [])).kb.bufIdx ≤ bufsize := by
    rw [(booted_holds _).active.idx]
    decide
  have hlow : Low (booted (Bytes.ofList [])).nextTerminal.vid :=
    (booted_low _).consoleStep hidx .tick
  exact (staysOwn_iff hmapped.steady (hlow.onPage _) hne [0x41]).mpr fun h => absurd h hletter

/-- The cursors after a switch of the scheduled terminal. -/
theorem nextTerminal_cursor (c : Console) :
    c.nextTerminal.vid.termScreenx = c.vid.termScreenx ∧
      c.nextTerminal.vid.termScreeny = c.vid.termScreeny := by
  unfold nextTerminal Video.setPagingScheduling
  dsimp only
  split <;> exact ⟨rfl, rfl⟩

/-- A backspace written by the second terminal's process after the first terminal's
printed a line break. -/
theorem backspace_moves_displayed : ¬ ∀ (mem : Bytes) (steps : List ConsoleStep)
    (buf : List UInt8), (ran mem steps).vid.scheduledTerm ≠ (ran mem steps).vid.currentTerminal →
      (ran mem steps).StaysOwn buf := by
  intro h
  have hstays := h (Bytes.ofList []) [.write newline, .tick] [backspaceAscii]
  have hsteady := ran_steady (Bytes.ofList []) [.write newline, .tick]
  have hrun : ran (Bytes.ofList []) [.write newline, .tick] = nextTerminal
      (Console.consoleStep (.write newline) (booted (Bytes.ofList []))) := rfl
  rw [hrun] at hstays hsteady
  have hrange : (booted (Bytes.ofList [])).vid.InRange := booted_inRange _
  have hlow := booted_low (Bytes.ofList [])
  have hidx : (booted (Bytes.ofList [])).kb.bufIdx ≤ bufsize := by
    rw [(booted_holds _).active.idx]
    decide
  have hcurrent := booted_currentTerminal (Bytes.ofList [])
  have hscheduled := booted_scheduledTerm (Bytes.ofList [])
  have hprocess : (booted (Bytes.ofList [])).vid.keyboardPutCFlag = false :=
    (booted_mapped _).process
  generalize booted (Bytes.ofList []) = c at *
  have hprinted : Low (Console.consoleStep (.write newline) c).vid := hlow.consoleStep hidx _
  have hcursor := Video.print_newline (v := c.vid.cli) hrange c.vid.scheduledTerm
  have hputc := Video.putc_process c.kb.bufIdx (c := newline) (by decide) hprocess
  have hsel := Video.putc_selection c.kb.bufIdx newline c.vid
  have hrow : 0 < (Console.consoleStep (.write newline) c).vid.termScreeny 0 := by
    show 0 < (c.vid.putc c.kb.bufIdx newline).termScreeny 0
    rw [hputc, ← hscheduled]
    exact hcursor.2
  have hdisplayed : (Console.consoleStep (.write newline) c).vid.currentTerminal = 0 :=
    (congrArg Video.Selection.currentTerminal hsel).trans hcurrent
  have hwriter : (Console.consoleStep (.write newline) c).vid.scheduledTerm = 0 :=
    (congrArg Video.Selection.scheduledTerm hsel).trans hscheduled
  have hline : (Console.consoleStep (.write newline) c).kb.bufIdx ≤ bufsize := hidx
  generalize Console.consoleStep (.write newline) c = d at *
  have hne : d.nextTerminal.vid.scheduledTerm ≠ d.nextTerminal.vid.currentTerminal := by
    rw [nextTerminal_scheduledTerm, nextTerminal_currentTerminal, hwriter, hdisplayed]
    decide
  have horigin : ¬ d.nextTerminal.vid.AtOrigin := by
    intro horigin
    have hzero := horigin.2
    rw [nextTerminal_currentTerminal, hdisplayed, (nextTerminal_cursor d).2] at hzero
    omega
  have hkeeps := writeKeeps_nil ((hprinted.consoleStep hline .tick).onPage _)
  exact hkeeps.backspace horigin hne ((hstays hne).others _ (List.prefix_refl _) _ hne.symm)

end Console

end StudentDistrib
