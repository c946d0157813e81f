import StudentDistrib.Console.Bounds

/-!
# Three line editors behind one buffer

`Desk` is what the keyboard is for: each terminal has a pending line and the line
it committed last, keys edit the line of the displayed terminal, and a function
key with Alt displays another one.  The driver has one buffer, which it exchanges
with saved ones at a switch.  It agrees with the desk as long as
`recentTermChoice` names the displayed terminal whenever it is used: at Enter,
whose `buffer_clear` also clears a saved line, and at a switch, which saves the
active one.  A function key without Alt moves it all the same.
-/

namespace StudentDistrib

open Machine

structure Desk where
  display : Term
  ctrl : Bool
  caps : Bool
  shift : Bool
  alt : Bool
  line : Term → List UInt8
  committed : Term → List UInt8

namespace Desk

def start : Desk :=
  { display := 0
    ctrl := false
    caps := false
    shift := false
    alt := false
    line := fun _ => []
    committed := fun _ => [] }

/-- A byte typed, which a full line ignores. -/
def insert (b : UInt8) (line : List UInt8) : List UInt8 :=
  if (line.length : Int) ≥ bufsize - 1 then line else line ++ [b]

def insertSpaces : Nat → List UInt8 → List UInt8
  | 0, line => line
  | n + 1, line => insertSpaces n (insert space line)

/-- The line of the displayed terminal edited. -/
def edit (f : List UInt8 → List UInt8) (d : Desk) : Desk :=
  { d with line := Function.update d.line d.display (f (d.line d.display)) }

def commit (d : Desk) : Desk :=
  { d with
    committed := Function.update d.committed d.display (d.line d.display ++ [newline])
    line := Function.update d.line d.display [] }

def press (scan : UInt8) (d : Desk) : Desk :=
  match keyOf scan with
  | .enter => d.commit
  | .backspace => d.edit List.dropLast
  | .leftControl press => { d with ctrl := press }
  | .space => d.edit (insert space)
  | .tab => d.edit (insertSpaces 4)
  | .capslock => { d with caps := !d.caps }
  | .shift press => { d with shift := press }
  | .alt press => { d with alt := press }
  | .f t press => if press && d.alt then { d with display := t } else d
  | .other =>
    if d.ctrl = true ∧ scan = lPress then d
    else
      match scancodeHelper d.caps d.shift scan with
      | none => d
      | some b => d.edit (insert b)

def handled (d : Desk) (scans : List UInt8) : Desk := scans.foldl (fun d scan => d.press scan) d

theorem handled_concat (d : Desk) (scans : List UInt8) (scan : UInt8) :
    d.handled (scans ++ [scan]) = (d.handled scans).press scan := by
  unfold handled
  rw [List.foldl_append]
  rfl

theorem handled_append (d : Desk) (scans scans' : List UInt8) :
    d.handled (scans ++ scans') = (d.handled scans).handled scans' := List.foldl_append ..

theorem edit_self (d : Desk) (f : List UInt8 → List UInt8) :
    (d.edit f).line d.display = f (d.line d.display) := Function.update_self ..

theorem edit_of_ne {d : Desk} (f : List UInt8 → List UInt8) {t : Term} (h : t ≠ d.display) :
    (d.edit f).line t = d.line t := Function.update_of_ne h ..

/-- Every pending line fits the buffer with its line break. -/
def Fits (d : Desk) : Prop := ∀ t, ((d.line t).length : Int) < bufsize

theorem insert_fits {line : List UInt8} (b : UInt8) (h : (line.length : Int) < bufsize) :
    ((insert b line).length : Int) < bufsize := by
  unfold insert
  split
  · exact h
  · simp only [List.length_append, List.length_cons, List.length_nil]
    omega

theorem insertSpaces_fits {line : List UInt8} (n : Nat) (h : (line.length : Int) < bufsize) :
    ((insertSpaces n line).length : Int) < bufsize := by
  induction n generalizing line with
  | zero => exact h
  | succ n ih => exact ih (insert_fits space h)

theorem Fits.edit {d : Desk} (h : d.Fits) {f : List UInt8 → List UInt8}
    (hf : ((f (d.line d.display)).length : Int) < bufsize) : (d.edit f).Fits := by
  intro t
  by_cases ht : t = d.display
  · rw [ht, edit_self]
    exact hf
  · rw [edit_of_ne f ht]
    exact h t

theorem Fits.commit {d : Desk} (h : d.Fits) : d.commit.Fits := by
  intro t
  show ((Function.update d.line d.display [] t).length : Int) < bufsize
  by_cases ht : t = d.display
  · rw [ht, Function.update_self]
    decide
  · rw [Function.update_of_ne ht]
    exact h t

theorem Fits.press {d : Desk} (h : d.Fits) (scan : UInt8) : (d.press scan).Fits := by
  unfold Desk.press
  cases keyOf scan with
  | enter => exact h.commit
  | backspace =>
    refine h.edit ?_
    have hlength := h d.display
    rw [List.length_dropLast]
    omega
  | leftControl press => exact h
  | space => exact h.edit (insert_fits space (h d.display))
  | tab => exact h.edit (insertSpaces_fits 4 (h d.display))
  | capslock => exact h
  | shift press => exact h
  | alt press => exact h
  | f u press =>
    dsimp only
    split <;> exact h
  | other =>
    dsimp only
    split
    · exact h
    · cases scancodeHelper d.caps d.shift scan with
      | none => exact h
      | some b => exact h.edit (insert_fits b (h d.display))

/-- What a terminal keeps: its pending line and the line it committed last. -/
def desktop (d : Desk) (t : Term) : List UInt8 × List UInt8 := (d.line t, d.committed t)

theorem edit_desktop {d : Desk} (f : List UInt8 → List UInt8) {t : Term} (h : t ≠ d.display) :
    (d.edit f).desktop t = d.desktop t := by
  unfold desktop
  rw [edit_of_ne f h]
  rfl

theorem commit_self (d : Desk) :
    d.commit.desktop d.display = ([], d.line d.display ++ [newline]) := by
  unfold desktop commit
  dsimp only
  rw [Function.update_self, Function.update_self]

theorem commit_desktop {d : Desk} {t : Term} (h : t ≠ d.display) :
    d.commit.desktop t = d.desktop t := by
  unfold desktop commit
  dsimp only
  rw [Function.update_of_ne h, Function.update_of_ne h]

/-- A key leaves the terminals that are not displayed alone. -/
theorem press_desktop {d : Desk} (scan : UInt8) {t : Term} (h : t ≠ d.display) :
    (d.press scan).desktop t = d.desktop t := by
  unfold press
  cases keyOf scan with
  | enter => exact commit_desktop h
  | backspace => exact edit_desktop _ h
  | leftControl press => rfl
  | space => exact edit_desktop _ h
  | tab => exact edit_desktop _ h
  | capslock => rfl
  | shift press => rfl
  | alt press => rfl
  | f u press =>
    dsimp only
    split <;> rfl
  | other =>
    dsimp only
    split
    · rfl
    · cases scancodeHelper d.caps d.shift scan with
      | none => rfl
      | some b => exact edit_desktop _ h

/-- A key that moves the display leaves every terminal alone. -/
theorem press_switch {d : Desk} {scan : UInt8} (h : (d.press scan).display ≠ d.display) (t : Term) :
    (d.press scan).desktop t = d.desktop t := by
  unfold press at h ⊢
  cases hk : keyOf scan with
  | f u press =>
    dsimp only
    split <;> rfl
  | other =>
    rw [hk] at h
    dsimp only at h
    split at h
    · exact absurd rfl h
    · cases hb : scancodeHelper d.caps d.shift scan with
      | none =>
        rw [hb] at h
        exact absurd rfl h
      | some b =>
        rw [hb] at h
        exact absurd rfl h
  | _ =>
    rw [hk] at h
    exact absurd rfl h

/-- A terminal left by the key `leave` keeps its desktop while it is not
displayed. -/
theorem desktop_away (d : Desk) (leave : UInt8) (away : List UInt8)
    (haway : ∀ mid, mid <+: away → (d.handled (leave :: mid)).display ≠ d.display) :
    (d.handled (leave :: away)).desktop d.display = d.desktop d.display := by
  induction away using List.reverseRecOn with
  | nil => exact press_switch (haway [] (List.prefix_refl _)) d.display
  | append_singleton away scan ih =>
    have hbefore := haway away (List.prefix_append _ _)
    rw [← List.cons_append, handled_concat, press_desktop scan hbefore.symm]
    exact ih fun mid hmid => haway mid (hmid.trans (List.prefix_append _ _))

end Desk

/-! ## The driver holds the desk -/

namespace Keyboard

/-- The saved line of a terminal that is not displayed. -/
structure Saves (k : Keyboard) (t : Term) (line committed : List UInt8) : Prop where
  buffer : Bytes.SameOn bufsize (k.keyboardBufs t) (Bytes.ofList line)
  idx : (k.switchArray t).bufIdx = line.length
  termBuf : Bytes.SameOn bufsize (k.switchArray t).termBuf (Bytes.ofList committed)

/-- The active buffer, index and `term_buf`. -/
structure Shows (k : Keyboard) (line committed : List UInt8) : Prop where
  buffer : Bytes.SameOn bufsize k.keyboardBuf (Bytes.ofList line)
  idx : k.bufIdx = line.length
  termBuf : Bytes.SameOn bufsize k.termBuf (Bytes.ofList committed)

structure Holds (k : Keyboard) (d : Desk) : Prop where
  active : k.Shows (d.line d.display) (d.committed d.display)
  saved : ∀ t, t ≠ d.display → k.Saves t (d.line t) (d.committed t)
  ctrl : k.ctrlState = d.ctrl
  caps : k.capslockFlag = d.caps
  shift : k.capitalFlag = d.shift
  alt : k.altInfo = d.alt

/-- `recentTermChoice` names the displayed terminal `t` where the key uses it. -/
def Settled (scan : UInt8) (t : Term) (k : Keyboard) : Prop :=
  keyOf scan = .enter ∨ (∃ u, keyOf scan = .f u true ∧ k.altInfo = true) → k.currTerm = t

variable {k : Keyboard} {d : Desk}

theorem Holds.append (h : k.Holds d) (b : UInt8) (hroom : k.bufIdx < bufsize - 1) :
    (k.append b).Holds (d.edit (Desk.insert b)) := by
  have hidx := h.active.idx
  have hline : Desk.insert b (d.line d.display) = d.line d.display ++ [b] :=
    if_neg (by omega)
  have hedit : (d.edit (Desk.insert b)).line d.display = d.line d.display ++ [b] := by
    rw [Desk.edit_self, hline]
  refine
    { active := ⟨?_, ?_, h.active.termBuf⟩
      saved := fun t ht => ?_
      ctrl := h.ctrl
      caps := h.caps
      shift := h.shift
      alt := h.alt }
  · show Bytes.SameOn bufsize (Function.update k.keyboardBuf k.bufIdx b)
      (Bytes.ofList ((d.edit (Desk.insert b)).line d.display))
    rw [hedit, Bytes.ofList_concat, hidx]
    exact h.active.buffer.update b
  · show k.bufIdx + 1 = ((d.edit (Desk.insert b)).line d.display).length
    rw [hedit, hidx]
    simp
  · have hne : t ≠ d.display := ht
    rw [Desk.edit_of_ne _ hne]
    exact ⟨(h.saved t ht).buffer, (h.saved t ht).idx, (h.saved t ht).termBuf⟩

/-- An insertion into a full line does nothing. -/
theorem Holds.edit_full (h : k.Holds d) (b : UInt8) (hfull : k.bufIdx ≥ bufsize - 1) :
    d.edit (Desk.insert b) = d := by
  have hline : Desk.insert b (d.line d.display) = d.line d.display := by
    have hidx := h.active.idx
    exact if_pos (by omega)
  unfold Desk.edit
  rw [hline, Function.update_eq_self]

theorem edit_insertSpaces (d : Desk) (n : Nat) :
    d.edit (Desk.insertSpaces (n + 1))
      = (d.edit (Desk.insert space)).edit (Desk.insertSpaces n) := by
  unfold Desk.edit
  dsimp only
  rw [Function.update_self, Function.update_idem]
  rfl

theorem Holds.appendSpaces (h : k.Holds d) (n : Nat) :
    (k.appendSpaces n).Holds (d.edit (Desk.insertSpaces n)) := by
  induction n generalizing k d with
  | zero =>
    have hsame : d.edit (Desk.insertSpaces 0) = d := by
      unfold Desk.edit Desk.insertSpaces
      rw [Function.update_eq_self]
    rw [hsame]
    exact h
  | succ n ih =>
    rw [edit_insertSpaces, Keyboard.appendSpaces]
    split
    · rename_i hfull
      have hrest : ∀ m, d.edit (Desk.insertSpaces m) = d := by
        intro m
        induction m with
        | zero =>
          unfold Desk.edit Desk.insertSpaces
          rw [Function.update_eq_self]
        | succ m ihm => rw [edit_insertSpaces, h.edit_full space hfull, ihm]
      rw [h.edit_full space hfull, hrest n]
      exact h
    · rename_i hroom
      exact ih (h.append space (by omega))

theorem Holds.erase (h : k.Holds d) : k.erase.Holds (d.edit List.dropLast) := by
  have hidx := h.active.idx
  unfold Keyboard.erase
  split
  · rename_i hpos
    have hlength : ((d.line d.display).dropLast.length : Int) = k.bufIdx - 1 := by
      rw [List.length_dropLast]
      omega
    refine
      { active := ⟨?_, ?_, h.active.termBuf⟩
        saved := fun t ht => ?_
        ctrl := h.ctrl
        caps := h.caps
        shift := h.shift
        alt := h.alt }
    · show Bytes.SameOn bufsize (Function.update k.keyboardBuf (k.bufIdx - 1) 0)
        (Bytes.ofList ((d.edit List.dropLast).line d.display))
      rw [Desk.edit_self, Bytes.ofList_dropLast, hidx]
      exact h.active.buffer.update 0
    · show k.bufIdx - 1 = ((d.edit List.dropLast).line d.display).length
      rw [Desk.edit_self, hlength]
    · have hne : t ≠ d.display := ht
      rw [Desk.edit_of_ne _ hne]
      exact ⟨(h.saved t ht).buffer, (h.saved t ht).idx, (h.saved t ht).termBuf⟩
  · have hnil : d.line d.display = [] := List.eq_nil_of_length_eq_zero (by omega)
    have hsame : d.edit List.dropLast = d := by
      unfold Desk.edit
      rw [hnil, List.dropLast_nil, ← hnil, Function.update_eq_self]
    rw [hsame]
    exact h

/-- The line break that `buffer_clear` stores is cleared with the line. -/
theorem enter_eq (k : Keyboard) (t : Term) : ∃ buf log, k.enter t =
    { (k.commit t).clearBuffers with keyboardBuf := Bytes.zero bufsize buf, storeLog := log } := by
  unfold Keyboard.enter Keyboard.markCleared
  split
  · exact ⟨_, _, rfl⟩
  · exact ⟨_, _, rfl⟩

/-- Enter, where the saved line that `buffer_clear` clears is the displayed
terminal's own. -/
theorem Holds.enter (h : k.Holds d) (hcurr : k.currTerm = d.display) :
    (k.enter d.display).Holds d.commit := by
  obtain ⟨buf, log, heq⟩ := enter_eq k d.display
  have hself := Prod.mk.inj (Desk.commit_self d)
  have hline : d.commit.line d.commit.display = [] := hself.1
  have hcommitted : d.commit.committed d.commit.display = d.line d.display ++ [newline] := hself.2
  rw [heq]
  refine
    { active := ?_
      saved := fun t ht => ?_
      ctrl := h.ctrl
      caps := h.caps
      shift := h.shift
      alt := h.alt }
  · rw [hline, hcommitted]
    refine ⟨Bytes.sameOn_zero _ _, rfl, ?_⟩
    rw [Bytes.ofList_concat, ← h.active.idx]
    exact (Bytes.sameOn_copy _ _ _).trans (h.active.buffer.update newline)
  · have hother := Prod.mk.inj (Desk.commit_desktop (d := d) ht)
    have hne : t ≠ k.currTerm := by rw [hcurr]; exact ht
    rw [hother.1, hother.2]
    refine ⟨?_, (h.saved t ht).idx, (h.saved t ht).termBuf⟩
    show Bytes.SameOn bufsize (Function.update k.keyboardBufs k.currTerm _ t) _
    rw [Function.update_of_ne hne]
    exact (h.saved t ht).buffer

theorem Holds.type (h : k.Holds d) (scan : UInt8) :
    (k.type scan).Holds
      (match scancodeHelper d.caps d.shift scan with
      | none => d
      | some b => d.edit (Desk.insert b)) := by
  have hscan : scancodeHelper d.caps d.shift scan
      = scancodeHelper k.capslockFlag k.capitalFlag scan := by rw [h.caps, h.shift]
  rw [hscan]
  unfold Keyboard.type
  split
  · rename_i hfull
    cases scancodeHelper k.capslockFlag k.capitalFlag scan with
    | none => exact h
    | some b =>
      dsimp only
      rw [h.edit_full b hfull]
      exact h
  · rename_i hroom
    cases scancodeHelper k.capslockFlag k.capitalFlag scan with
    | none => exact h
    | some b =>
      have hlog : ({ k with tableLog := scan.toNat :: k.tableLog } : Keyboard).Holds d :=
        { h with
          active := ⟨h.active.buffer, h.active.idx, h.active.termBuf⟩
          saved := fun t ht => ⟨(h.saved t ht).buffer, (h.saved t ht).idx, (h.saved t ht).termBuf⟩ }
      exact hlog.append b (by show k.bufIdx < bufsize - 1; omega)

/-- A switch to `t`, where the terminal that is left is the displayed one. -/
theorem Holds.changeLine (h : k.Holds d) (t : Term) (hcurr : k.currTerm = d.display) :
    (k.pick t).changeLine.Holds { d with display := t } := by
  have hsaved : ∀ u, (k.pick t).changeLine.Saves u (d.line u) (d.committed u) := by
    intro u
    by_cases hu : u = d.display
    · rw [hu, ← hcurr]
      refine ⟨?_, ?_, ?_⟩
      · show Bytes.SameOn bufsize (Function.update k.keyboardBufs k.currTerm _ k.currTerm) _
        rw [Function.update_self, hcurr]
        exact (Bytes.sameOn_copy _ _ _).trans h.active.buffer
      · show (Function.update k.switchArray k.currTerm _ k.currTerm).bufIdx = _
        rw [Function.update_self, hcurr]
        exact h.active.idx
      · show Bytes.SameOn bufsize (Function.update k.switchArray k.currTerm _ k.currTerm).termBuf _
        rw [Function.update_self, hcurr]
        exact (Bytes.sameOn_copy _ _ _).trans h.active.termBuf
    · have hne : u ≠ k.currTerm := by rw [hcurr]; exact hu
      refine ⟨?_, ?_, ?_⟩
      · show Bytes.SameOn bufsize (Function.update k.keyboardBufs k.currTerm _ u) _
        rw [Function.update_of_ne hne]
        exact (h.saved u hu).buffer
      · show (Function.update k.switchArray k.currTerm _ u).bufIdx = _
        rw [Function.update_of_ne hne]
        exact (h.saved u hu).idx
      · show Bytes.SameOn bufsize (Function.update k.switchArray k.currTerm _ u).termBuf _
        rw [Function.update_of_ne hne]
        exact (h.saved u hu).termBuf
  exact
    { active :=
        ⟨(Bytes.sameOn_copy _ _ _).trans (hsaved t).buffer, (hsaved t).idx,
          (Bytes.sameOn_copy _ _ _).trans (hsaved t).termBuf⟩
      saved := fun u _ => hsaved u
      ctrl := h.ctrl
      caps := h.caps
      shift := h.shift
      alt := h.alt }

theorem Holds.choose (h : k.Holds d) (t : Term)
    (hcurr : k.altInfo = true → k.currTerm = d.display) :
    (k.choose t).Holds (if d.alt then { d with display := t } else d) := by
  unfold Keyboard.choose
  by_cases halt : k.altInfo = true
  · rw [if_pos halt, if_pos (h.alt ▸ halt)]
    exact h.changeLine t (hcurr halt)
  · rw [if_neg halt, if_neg (h.alt ▸ halt)]
    exact
      { h with
        active := ⟨h.active.buffer, h.active.idx, h.active.termBuf⟩
        saved := fun t ht => ⟨(h.saved t ht).buffer, (h.saved t ht).idx, (h.saved t ht).termBuf⟩ }

/-- One key, with the lines that it does not edit. -/
theorem Holds.press (h : k.Holds d) (hfits : d.Fits) {scan : UInt8}
    (hroom : ¬ k.Overruns scan) (hsettled : k.Settled scan d.display) :
    (k.press scan d.display).Holds (d.press scan) := by
  have hidx := h.active.idx
  have hsame : ∀ {k' : Keyboard}, k'.keyboardBuf = k.keyboardBuf → k'.bufIdx = k.bufIdx →
      k'.termBuf = k.termBuf → k'.Shows (d.line d.display) (d.committed d.display) := by
    intro k' hbuf hbufIdx hterm
    exact ⟨hbuf ▸ h.active.buffer, hbufIdx ▸ h.active.idx, hterm ▸ h.active.termBuf⟩
  have hother : ∀ {k' : Keyboard}, k'.keyboardBufs = k.keyboardBufs →
      k'.switchArray = k.switchArray →
      ∀ t, t ≠ d.display → k'.Saves t (d.line t) (d.committed t) := by
    intro k' hbufs harray t ht
    exact ⟨hbufs ▸ (h.saved t ht).buffer, harray ▸ (h.saved t ht).idx,
      harray ▸ (h.saved t ht).termBuf⟩
  unfold Keyboard.press Desk.press
  cases hk : keyOf scan with
  | enter => exact h.enter (hsettled (Or.inl hk))
  | backspace => exact h.erase
  | leftControl press =>
    exact { h with active := hsame rfl rfl rfl, saved := hother rfl rfl, ctrl := rfl }
  | space =>
    have hne : k.bufIdx ≠ bufsize - 1 := fun e => hroom ⟨Or.inr hk, e⟩
    have hlength := hfits d.display
    exact h.append space (by omega)
  | tab => exact h.appendSpaces 4
  | capslock =>
    exact
      { h with
        active := hsame rfl rfl rfl
        saved := hother rfl rfl
        caps := congrArg Bool.not h.caps }
  | shift press =>
    exact { h with active := hsame rfl rfl rfl, saved := hother rfl rfl, shift := rfl }
  | alt press => exact { h with active := hsame rfl rfl rfl, saved := hother rfl rfl, alt := rfl }
  | f u press =>
    cases press with
    | false => exact h
    | true =>
      have hchoose := h.choose u fun halt => hsettled (Or.inr ⟨u, hk, halt⟩)
      simpa using hchoose
  | other =>
    dsimp only
    rw [← h.ctrl]
    split
    · exact { h with active := hsame rfl rfl rfl, saved := hother rfl rfl }
    · exact h.type scan

theorem init_holds : init.Holds Desk.start where
  active := ⟨fun _ _ _ => rfl, rfl, fun _ _ _ => rfl⟩
  saved := fun _ _ => ⟨fun _ _ _ => rfl, rfl, fun _ _ _ => rfl⟩
  ctrl := rfl
  caps := rfl
  shift := rfl
  alt := rfl

end Keyboard

/-! ## All scancodes -/

namespace Console

theorem booted_kb (mem : Bytes) : (booted mem).kb =
    ((((Keyboard.init.pick 1).changeLine.pick 2).changeLine).pick 0).changeLine := by
  unfold booted startScreen
  dsimp only [display, terminalChangingHandler, nextTerminal]
  rw [clear_kb, clear_kb]
  rfl

/-- The boot leaves three empty lines. -/
theorem booted_holds (mem : Bytes) : (booted mem).kb.Holds Desk.start := by
  have h₁ := Keyboard.init_holds.changeLine 1 rfl
  have h₂ := h₁.changeLine 2 rfl
  have h₃ := h₂.changeLine 0 rfl
  rw [booted_kb]
  exact h₃

@[simp] theorem display_currentTerminal (prev t : Term) (c : Console) :
    (c.display prev t).vid.currentTerminal = t :=
  Video.terminalChanging_currentTerminal _ _

theorem booted_currentTerminal (mem : Bytes) : (booted mem).vid.currentTerminal = 0 := by
  unfold booted
  rw [display_currentTerminal]

@[simp] theorem nextTerminal_scheduledTerm (c : Console) :
    c.nextTerminal.vid.scheduledTerm = c.vid.scheduledTerm + 1 :=
  Video.setPagingScheduling_scheduledTerm _ _

@[simp] theorem nextTerminal_currentTerminal (c : Console) :
    c.nextTerminal.vid.currentTerminal = c.vid.currentTerminal :=
  Video.setPagingScheduling_currentTerminal _ _

@[simp] theorem display_scheduledTerm (prev t : Term) (c : Console) :
    (c.display prev t).vid.scheduledTerm = c.vid.scheduledTerm :=
  (Video.terminalChanging_scheduledTerm _ _).trans (Video.setPagingScheduling_scheduledTerm _ _)

@[simp] theorem startScreen_scheduledTerm (t : Term) (c : Console) :
    (c.startScreen t).vid.scheduledTerm = c.vid.scheduledTerm := by
  have hclear := congrArg Terms.scheduledTerm (clear_terms (c.display c.kb.currTerm t))
  exact hclear.trans (display_scheduledTerm _ _ _)

@[simp] theorem startScreen_currentTerminal (t : Term) (c : Console) :
    (c.startScreen t).vid.currentTerminal = t := by
  have hclear := congrArg Terms.currentTerminal (clear_terms (c.display c.kb.currTerm t))
  exact hclear.trans (display_currentTerminal _ _ _)

theorem booted_scheduledTerm (mem : Bytes) : (booted mem).vid.scheduledTerm = 0 := by
  have hinit : (init mem).vid.scheduledTerm = 0 := Video.init_scheduledTerm mem
  unfold booted
  rw [display_scheduledTerm, nextTerminal_scheduledTerm, startScreen_scheduledTerm,
    nextTerminal_scheduledTerm, startScreen_scheduledTerm, nextTerminal_scheduledTerm, hinit]
  rfl

/-- The buffer, the index and `term_buf` are those of the desk's displayed terminal. -/
def Shows (c : Console) (d : Desk) : Prop :=
  c.vid.currentTerminal = d.display ∧ c.kb.Shows (d.line d.display) (d.committed d.display)

/-- The same pending line, index and `term_buf`. -/
def SameLine (k k' : Keyboard) : Prop :=
  Bytes.SameOn bufsize k.keyboardBuf k'.keyboardBuf ∧ k.bufIdx = k'.bufIdx ∧
    Bytes.SameOn bufsize k.termBuf k'.termBuf

/-- Every key finds `recentTermChoice` on the displayed terminal where it uses it,
and room for what it stores. -/
def InStep (c : Console) (scans : List UInt8) : Prop :=
  ∀ before scan, before ++ [scan] <+: scans →
    ¬ (c.handled before).kb.Overruns scan ∧
      (c.handled before).kb.Settled scan (c.handled before).vid.currentTerminal

theorem keyboardHandler_display {c : Console} {d : Desk} (scan : UInt8)
    (hdisplay : c.vid.currentTerminal = d.display) (halt : c.kb.altInfo = d.alt) :
    (c.keyboardHandler scan).vid.currentTerminal = (d.press scan).display := by
  have hsame : switches scan c.kb = none → (d.press scan).display = d.display := by
    intro hnone
    unfold switches at hnone
    unfold Desk.press
    cases hk : keyOf scan with
    | f t press =>
      rw [hk, halt] at hnone
      cases press with
      | false => rfl
      | true =>
        dsimp only
        split
        · rename_i hd
          simp_all
        · rfl
    | other =>
      dsimp only
      split
      · rfl
      · cases scancodeHelper d.caps d.shift scan <;> rfl
    | _ => rfl
  cases hs : switches scan c.kb with
  | none =>
    rw [hsame hs, ← hdisplay]
    exact keyboardHandler_currentTerminal hs
  | some t =>
    have hterm := keyboardHandler_switch_currentTerminal hs
    unfold switches at hs
    unfold Desk.press
    cases hk : keyOf scan with
    | f u press =>
      rw [hk, halt] at hs
      cases press with
      | false => cases hs
      | true =>
        by_cases hd : d.alt = true
        · have hu : u = t := by simpa [hd] using hs
          rw [hu]
          simpa [hd] using hterm
        · simp [hd] at hs
    | _ => simp [hk] at hs

/-- The driver and the desk after the same keys. -/
theorem handled_holds {c : Console} (hdisplay : c.vid.currentTerminal = Desk.start.display)
    (hkb : c.kb.Holds Desk.start) (scans : List UInt8) (hkeys : c.InStep scans) :
    (c.handled scans).vid.currentTerminal = (Desk.start.handled scans).display ∧
      (c.handled scans).kb.Holds (Desk.start.handled scans) ∧
      (Desk.start.handled scans).Fits := by
  refine steps_invariant (I := fun before =>
      (c.handled before).vid.currentTerminal = (Desk.start.handled before).display ∧
        (c.handled before).kb.Holds (Desk.start.handled before) ∧
        (Desk.start.handled before).Fits) ?_ ?_ hkeys
  · exact ⟨hdisplay, hkb, fun _ => (by decide : (0 : Int) < bufsize)⟩
  · intro before scan hbefore hkey
    obtain ⟨hterm, hholds, hfits⟩ := hbefore
    obtain ⟨hroom, hsettled⟩ := hkey
    rw [handled_concat, Desk.handled_concat]
    refine ⟨keyboardHandler_display scan hterm hholds.alt, ?_, hfits.press scan⟩
    rw [keyboardHandler_kb, hterm]
    exact hholds.press hfits hroom (hterm ▸ hsettled)

theorem fHelper_unchanged {c : Console} {scan : UInt8} {t : Term} (hk : keyOf scan = .f t true)
    (halt : c.kb.altInfo = false) : c.keyboardHandler scan = (c.chooseTerm t).sti := by
  have halt' : ¬ c.cli.kb.altInfo = true := fun e : c.kb.altInfo = true => by simp [halt] at e
  unfold keyboardHandler
  rw [hk]
  dsimp only
  rw [fHelper_press, if_neg halt']
  rfl

/-- The lines of the three terminals under any sequence of scancodes that finds
`recentTermChoice` in step with the display: the active line is the displayed
terminal's, switching away and back restores it, and a function key without Alt
moves `recentTermChoice` only. -/
theorem lines_survive_switching (mem : Bytes) (scans : List UInt8)
    (hkeys : (booted mem).InStep scans) :
    (∀ before, before <+: scans →
      ((booted mem).handled before).Shows (Desk.start.handled before)) ∧
    (∀ before leave away back, before ++ leave :: away ++ [back] <+: scans →
      (∀ mid, mid <+: away →
        ((booted mem).handled (before ++ leave :: mid)).vid.currentTerminal
          ≠ ((booted mem).handled before).vid.currentTerminal) →
      ((booted mem).handled (before ++ leave :: away ++ [back])).vid.currentTerminal
        = ((booted mem).handled before).vid.currentTerminal →
      SameLine ((booted mem).handled (before ++ leave :: away ++ [back])).kb
        ((booted mem).handled before).kb) ∧
    (∀ before scan t, before ++ [scan] <+: scans → keyOf scan = .f t true →
      ((booted mem).handled before).kb.altInfo = false →
      (booted mem).handled (before ++ [scan])
        = (((booted mem).handled before).chooseTerm t).sti) := by
  have hshows : ∀ before, before <+: scans →
      ((booted mem).handled before).Shows (Desk.start.handled before) := by
    intro before hpre
    obtain ⟨hterm, hholds, -⟩ :=
      handled_holds (booted_currentTerminal mem) (booted_holds mem) before
        fun b scan hb => hkeys b scan (hb.trans hpre)
    exact ⟨hterm, hholds.active⟩
  refine ⟨hshows, ?_, ?_⟩
  · intro before leave away back hpre haway hback
    have hinit : ∀ mid, mid <+: away → before ++ leave :: mid <+: scans := by
      intro mid hmid
      refine List.IsPrefix.trans ?_ hpre
      obtain ⟨rest, rfl⟩ := hmid
      exact ⟨rest ++ [back], by simp⟩
    have hbefore := hshows before ((List.prefix_append _ _).trans (hinit away (List.prefix_refl _)))
    have hafter := hshows _ hpre
    have hleft : ∀ mid, mid <+: away →
        ((Desk.start.handled before).handled (leave :: mid)).display
          ≠ (Desk.start.handled before).display := by
      intro mid hmid
      rw [← Desk.handled_append, ← (hshows _ (hinit mid hmid)).1, ← hbefore.1]
      exact haway mid hmid
    have hkept := Desk.desktop_away (Desk.start.handled before) leave away hleft
    have hlast : (Desk.start.handled (before ++ leave :: away ++ [back])).desktop
        (Desk.start.handled before).display
          = (Desk.start.handled before).desktop (Desk.start.handled before).display := by
      rw [Desk.handled_concat, Desk.handled_append,
        Desk.press_desktop back (hleft away (List.prefix_refl _)).symm, hkept]
    have hsame : (Desk.start.handled (before ++ leave :: away ++ [back])).display
        = (Desk.start.handled before).display := by
      rw [← hafter.1, ← hbefore.1]
      exact hback
    obtain ⟨hline, hcommitted⟩ := Prod.mk.inj hlast
    have hshown := hafter.2
    rw [hsame, hline, hcommitted] at hshown
    exact ⟨hshown.buffer.trans hbefore.2.buffer.symm, hshown.idx.trans hbefore.2.idx.symm,
      hshown.termBuf.trans hbefore.2.termBuf.symm⟩
  · intro before scan t _ hk halt
    rw [handled_concat]
    exact fHelper_unchanged hk halt

/-- A character and a switch while Alt is held keep `recentTermChoice` on the display. -/
theorem handled_held {c : Console} (halt : c.kb.altInfo = true)
    (hcurr : c.kb.currTerm = c.vid.currentTerminal) (scans : List UInt8)
    (h : ∀ scan ∈ scans, (∃ t, keyOf scan = .f t true) ∨ keyOf scan = .other) :
    (c.handled scans).kb.altInfo = true ∧
      (c.handled scans).kb.currTerm = (c.handled scans).vid.currentTerminal := by
  induction scans using List.reverseRecOn with
  | nil => exact ⟨halt, hcurr⟩
  | append_singleton before scan ih =>
    obtain ⟨halt', hcurr'⟩ := ih fun scan' hmem => h scan' (List.mem_append_left _ hmem)
    rw [handled_concat]
    generalize c.handled before = d at halt' hcurr'
    rcases h scan (List.mem_append_right _ List.mem_cons_self) with ⟨t, hk⟩ | hk
    · have hsome : switches scan d.kb = some t := by
        unfold switches
        rw [hk]
        exact if_pos halt'
      rw [keyboardHandler_switch_currentTerminal hsome, keyboardHandler_kb]
      unfold Keyboard.press Keyboard.choose
      rw [hk]
      dsimp only
      rw [if_pos halt', if_pos rfl]
      exact ⟨halt', rfl⟩
    · have hnone : switches scan d.kb = none := by
        unfold switches
        rw [hk]
      rw [keyboardHandler_currentTerminal hnone, keyboardHandler_kb]
      unfold Keyboard.press
      rw [hk]
      dsimp only
      split
      · exact ⟨halt', hcurr'⟩
      · unfold Keyboard.type
        split
        · exact ⟨halt', hcurr'⟩
        · split
          · exact ⟨halt', hcurr'⟩
          · exact ⟨halt', hcurr'⟩

/-- With Alt held, a letter on each terminal, and back to the first. -/
def letterEach : List UInt8 := [0x1E, fPush 1, 0x30, fPush 2, 0x2E, fPush 0]

theorem inStep_letterEach (mem : Bytes) : (booted mem).InStep (altPush :: letterEach) := by
  have hk : keyOf altPush = .alt true := by decide
  have hnone : switches altPush (booted mem).kb = none := by
    unfold switches
    rw [hk]
  have hkb : ((booted mem).keyboardHandler altPush).kb
      = { (booted mem).kb with altInfo := true } := by
    rw [keyboardHandler_kb]
    unfold Keyboard.press
    rw [hk]
  have hcurr : (booted mem).kb.currTerm = (booted mem).vid.currentTerminal := by
    rw [booted_currentTerminal]
    rfl
  have hkeys : ∀ scan ∈ letterEach, ((∃ t, keyOf scan = .f t true) ∨ keyOf scan = .other) ∧
      keyOf scan ≠ .enter ∧ keyOf scan ≠ .space := by
    simp only [letterEach, List.forall_mem_cons, List.not_mem_nil, false_implies, implies_true]
    decide
  intro before scan hpre
  cases before with
  | nil =>
    obtain ⟨rfl, -⟩ := List.cons_prefix_cons.mp hpre
    refine ⟨fun hover => hover.1.elim (by decide) (by decide), fun _ => hcurr⟩
  | cons scan' before =>
    obtain ⟨rfl, hrest⟩ := List.cons_prefix_cons.mp hpre
    have hmem : ∀ s ∈ before ++ [scan], s ∈ letterEach := fun s hs => hrest.subset hs
    have hscan := hkeys scan (hmem scan (List.mem_append_right _ List.mem_cons_self))
    have hheld := handled_held (c := (booted mem).keyboardHandler altPush) (by rw [hkb])
      (by rw [hkb, keyboardHandler_currentTerminal hnone]; exact hcurr) before
      fun s hs => (hkeys s (hmem s (List.mem_append_left _ hs))).1
    have hcons : (booted mem).handled (altPush :: before)
        = ((booted mem).keyboardHandler altPush).handled before := List.foldl_cons ..
    rw [hcons]
    exact ⟨fun hover => hover.1.elim hscan.2.1 hscan.2.2, fun _ => hheld.2⟩

/-- The first terminal is displayed again with its letter in the line. -/
theorem lines_survive_switch :
    ((booted (Bytes.ofList [])).handled (altPush :: letterEach)).Shows
        (Desk.start.handled (altPush :: letterEach)) ∧
      (Desk.start.handled (altPush :: letterEach)).line 0 = [0x61] ∧
      SameLine ((booted (Bytes.ofList [])).handled (altPush :: letterEach)).kb
        ((booted (Bytes.ofList [])).handled [altPush, 0x1E]).kb := by
  have hstep := inStep_letterEach (Bytes.ofList [])
  have hsurvive := lines_survive_switching (Bytes.ofList []) _ hstep
  have hshows := hsurvive.1 _ (List.prefix_refl _)
  have hdisplay : ∀ before, before <+: altPush :: letterEach →
      ((booted (Bytes.ofList [])).handled before).vid.currentTerminal
        = (Desk.start.handled before).display := fun before hpre => (hsurvive.1 before hpre).1
  have hfirst : [altPush, 0x1E] <+: altPush :: letterEach := ⟨_, rfl⟩
  refine ⟨hshows, by decide, hsurvive.2.1 [altPush, 0x1E] (fPush 1) [0x30, fPush 2, 0x2E] (fPush 0)
    (List.prefix_refl _) (fun mid hmid => ?_) ?_⟩
  · have hpre : [altPush, 0x1E] ++ fPush 1 :: mid <+: altPush :: letterEach :=
      (List.prefix_append_right_inj [altPush, 0x1E]).mpr
        ((List.prefix_cons_inj (fPush 1)).mpr (hmid.trans ⟨[fPush 0], rfl⟩))
    have haway : ∀ m ∈ [0x30, fPush 2, 0x2E].inits,
        (Desk.start.handled ([altPush, 0x1E] ++ fPush 1 :: m)).display
          ≠ (Desk.start.handled [altPush, 0x1E]).display := by decide
    rw [hdisplay _ hpre, hdisplay _ hfirst]
    exact haway mid ((List.mem_inits mid _).mpr hmid)
  · rw [hdisplay _ hfirst]
    exact (hdisplay _ (List.prefix_refl _)).trans (by decide)

/-- F2 without Alt, a letter, and a switch to the terminal that is displayed: the
letter is saved as the second terminal's line. -/
theorem line_lost_without_alt :
    ¬ ((booted (Bytes.ofList [])).handled [fPush 1, 0x1E, altPush, fPush 0]).Shows
      (Desk.start.handled [fPush 1, 0x1E, altPush, fPush 0]) := by
  intro h
  have hidx : ((booted (Bytes.ofList [])).handled [fPush 1, 0x1E, altPush, fPush 0]).kb.bufIdx
      = 0 := by
    simp only [handled, List.foldl_cons, List.foldl_nil, keyboardHandler_kb]
    rfl
  have hline : (Desk.start.handled [fPush 1, 0x1E, altPush, fPush 0]).line 0 = [0x61] := by decide
  have hshown : ((booted (Bytes.ofList [])).handled [fPush 1, 0x1E, altPush, fPush 0]).kb.bufIdx
      = ((Desk.start.handled [fPush 1, 0x1E, altPush, fPush 0]).line 0).length := h.2.idx
  rw [hidx, hline] at hshown
  exact absurd hshown (by decide)

end Console

end StudentDistrib
