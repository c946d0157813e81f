import StudentDistrib.Console.RoundTrip

/-!
# Where a committed line is

Enter copies the line of the displayed terminal into the one `term_buf`, a switch
exchanges it with the copies in `terminal_switch_array`, and `terminal_close` wipes it.
A history of these events tells which line `term_buf` holds, and a read of the scheduled
terminal returns that line, whoever entered it.
-/

namespace StudentDistrib

open Machine

/-! ## A line in a buffer -/

/-- The buffer starts with the line and its line break, or is wiped. -/
def Placed (b : Bytes) : Option (List UInt8) → Prop
  | some w => Bytes.SameOn (w.length + 1) b (Bytes.ofList (w ++ [newline])) ∧ newline ∉ w ∧
      w.length ≤ 127
  | none => Bytes.SameOn bufsize b (Bytes.ofList [])

variable {b : Bytes} {o : Option (List UInt8)} {w : List UInt8}

theorem Placed.of_sameOn {b' : Bytes} (h : Placed b o) (hsame : Bytes.SameOn bufsize b' b) :
    Placed b' o := by
  have hsize : bufsize = 128 := rfl
  cases o with
  | none => exact hsame.trans h
  | some w =>
    obtain ⟨hline, hbreak, hlength⟩ := h
    refine ⟨fun i h0 hi => ?_, hbreak, hlength⟩
    rw [hsame i h0 (by omega)]
    exact hline i h0 hi

theorem Placed.copy {b' : Bytes} (h : Placed b o) : Placed (Bytes.copy bufsize b b') o :=
  h.of_sameOn (Bytes.sameOn_copy _ _ _)

theorem placed_zero (b : Bytes) : Placed (Bytes.zero bufsize b) none := Bytes.sameOn_zero _ _

/-- The first bytes of a buffer that starts with a line. -/
theorem Placed.take_eq (h : Placed b (some w)) {n : Nat} (hn : w.length + 1 ≤ n) :
    ∃ rest, Bytes.take n b = w ++ newline :: rest := by
  obtain ⟨hline, -, -⟩ := h
  have hlength : (w ++ [newline]).length = w.length + 1 := by
    rw [List.length_append, List.length_singleton]
  have hfirst : (Bytes.take n b).take (w.length + 1) = w ++ [newline] := by
    unfold Bytes.take
    rw [← List.map_take, List.take_range, Nat.min_eq_left hn]
    have hsame : Bytes.take (w.length + 1) b
        = Bytes.take (w.length + 1) (Bytes.ofList (w ++ [newline])) := Bytes.SameOn.take_eq hline
    rw [← hlength, Bytes.take_ofList, hlength] at hsame
    exact hsame
  refine ⟨(Bytes.take n b).drop (w.length + 1), ?_⟩
  calc Bytes.take n b
      = (Bytes.take n b).take (w.length + 1) ++ (Bytes.take n b).drop (w.length + 1) :=
        (List.take_append_drop _ _).symm
    _ = w ++ newline :: (Bytes.take n b).drop (w.length + 1) := by
        rw [hfirst, List.append_assoc, List.singleton_append]

namespace Console

/-! ## What a read returns -/

/-- A read with room for the line `w` returns it with its line break. -/
def Delivers (c : Console) (w : List UInt8) : Prop :=
  ∀ nbytes : Int, w.length < nbytes → ∃ c' stored v,
    c.terminalReadFinish nbytes = some (c', stored, v) ∧
      v = w.length + 1 ∧ stored.take v = w ++ [newline]

theorem terminalReadFinish_eq {c : Console} (h : c.ReadReady) (nbytes : Int) :
    ∃ c', c.terminalReadFinish nbytes
      = some (c', Bytes.take ((clampRead nbytes).toNat + 1) c.kb.termBuf,
        countLine (Bytes.take ((clampRead nbytes).toNat + 1) c.kb.termBuf)) := by
  have hready : c.kb.enterFlag c.vid.scheduledTerm = true := h
  unfold terminalReadFinish
  rw [if_pos hready]
  exact ⟨_, rfl⟩

theorem clampRead_room {nbytes : Int} (hw : w.length ≤ 127) (hn : w.length < nbytes) :
    w.length + 1 ≤ (clampRead nbytes).toNat + 1 := by
  by_cases hlarge : 128 ≤ nbytes
  · rw [clampRead_of_ge hlarge]
    have h127 : (127 : Int).toNat = 127 := rfl
    omega
  · rw [clampRead_of_lt (by omega)]
    omega

/-- A read that can go on delivers the line that `term_buf` holds and no other. -/
theorem delivers_iff_placed {c : Console} (hready : c.ReadReady) (hplaced : Placed c.kb.termBuf o)
    (hbreak : newline ∉ w) (hw : w.length ≤ 127) : c.Delivers w ↔ o = some w := by
  constructor
  · intro h
    obtain ⟨c', stored, v, hread, hv, hstored⟩ := h 128 (by omega)
    obtain ⟨c'', hfinish⟩ := terminalReadFinish_eq hready 128
    rw [hfinish, Option.some.injEq, Prod.mk.injEq, Prod.mk.injEq] at hread
    obtain ⟨-, hbytes, hcount⟩ := hread
    have hclamp : (clampRead 128).toNat + 1 = 128 := rfl
    rw [hclamp] at hbytes hcount
    rw [← hbytes] at hstored
    cases o with
    | none =>
      -- A wiped buffer has no line break.
      have hzero : Bytes.take 128 c.kb.termBuf = Bytes.take 128 (Bytes.ofList []) :=
        Bytes.SameOn.take_eq hplaced
      have hmem : newline ∈ Bytes.take 128 c.kb.termBuf := by
        refine List.mem_of_mem_take (i := v) ?_
        rw [hstored]
        exact List.mem_append_right _ (List.mem_singleton_self _)
      rw [hzero] at hmem
      exact absurd hmem (by decide)
    | some w' =>
      obtain ⟨rest, hrest⟩ := hplaced.take_eq (n := 128) (by have := hplaced.2.2; omega)
      have hcount' : v = w'.length + 1 := by
        rw [← hcount, hrest]
        exact countLine_line hplaced.2.1 rest
      have hlength : (w' ++ [newline]).length = w'.length + 1 := by
        rw [List.length_append, List.length_singleton]
      have hsplit : w' ++ newline :: rest = (w' ++ [newline]) ++ rest := by
        rw [List.append_assoc, List.singleton_append]
      rw [hrest, hcount', hsplit, ← hlength, List.take_left] at hstored
      exact congrArg some (List.append_cancel_right hstored)
  · rintro rfl nbytes hn
    obtain ⟨c', hfinish⟩ := terminalReadFinish_eq hready nbytes
    obtain ⟨rest, hrest⟩ := hplaced.take_eq (clampRead_room hw hn)
    have hlength : (w ++ [newline]).length = w.length + 1 := by
      rw [List.length_append, List.length_singleton]
    have hsplit : w ++ newline :: rest = (w ++ [newline]) ++ rest := by
      rw [List.append_assoc, List.singleton_append]
    rw [hrest, countLine_line hbreak] at hfinish
    refine ⟨c', _, _, hfinish, rfl, ?_⟩
    rw [hsplit, ← hlength, List.take_left]

end Console

/-! ## Lines without a line break -/

/-- No byte of the buffer is a line break. -/
def NoBreak (b : Bytes) : Prop := ∀ i, 0 ≤ i → i < bufsize → b i ≠ newline

theorem NoBreak.update (h : NoBreak b) {a : Int} {x : UInt8} (hx : x ≠ newline) :
    NoBreak (Function.update b a x) := by
  intro i h0 hi
  by_cases hia : i = a
  · rw [hia, Function.update_self]
    exact hx
  · rw [Function.update_of_ne hia]
    exact h i h0 hi

theorem NoBreak.copy (h : NoBreak b) (b' : Bytes) : NoBreak (Bytes.copy bufsize b b') := by
  intro i h0 hi
  rw [Bytes.copy_of_lt b b' h0 hi]
  exact h i h0 hi

theorem noBreak_zero (b : Bytes) : NoBreak (Bytes.zero bufsize b) := by
  intro i h0 hi
  rw [Bytes.zero_of_lt b h0 hi]
  decide

theorem NoBreak.not_mem_take (h : NoBreak b) {n : Nat} (hn : (n : Int) ≤ bufsize) :
    newline ∉ Bytes.take n b := by
  intro hmem
  obtain ⟨i, hi, hbyte⟩ := List.mem_map.mp hmem
  have hlt := List.mem_range.mp hi
  exact h i (Int.natCast_nonneg i) (by omega) hbyte

namespace Keyboard

/-- The line that Enter commits. -/
def pendingLine (k : Keyboard) : List UInt8 := Bytes.take k.bufIdx.toNat k.keyboardBuf

/-- Between two keys no buffer holds a line break, and no index is negative. -/
structure Unbroken (k : Keyboard) : Prop where
  buffer : NoBreak k.keyboardBuf
  saved : ∀ t, NoBreak (k.keyboardBufs t)
  idx : 0 ≤ k.bufIdx
  savedIdx : ∀ t, 0 ≤ (k.switchArray t).bufIdx

/-- A key that edits the pending line at most. -/
structure EditsLine (k k' : Keyboard) : Prop where
  unbroken : k.Unbroken → k'.Unbroken
  termBuf : k'.termBuf = k.termBuf
  switchArray : k'.switchArray = k.switchArray
  enterFlag : k'.enterFlag = k.enterFlag

variable {k k' k'' : Keyboard}

theorem EditsLine.refl (k : Keyboard) : k.EditsLine k := ⟨id, rfl, rfl, rfl⟩

theorem EditsLine.trans (h : k.EditsLine k') (h' : k'.EditsLine k'') : k.EditsLine k'' :=
  ⟨h'.unbroken ∘ h.unbroken, h'.termBuf.trans h.termBuf, h'.switchArray.trans h.switchArray,
    h'.enterFlag.trans h.enterFlag⟩

theorem editsLine_append {x : UInt8} (hx : x ≠ newline) (k : Keyboard) :
    k.EditsLine (k.append x) where
  unbroken := fun h => ⟨h.buffer.update hx, h.saved, Int.add_nonneg h.idx (by decide), h.savedIdx⟩
  termBuf := rfl
  switchArray := rfl
  enterFlag := rfl

theorem editsLine_appendSpaces (n : Nat) (k : Keyboard) : k.EditsLine (k.appendSpaces n) := by
  induction n generalizing k with
  | zero => exact .refl k
  | succ n ih =>
    rw [appendSpaces]
    split
    · exact .refl k
    · exact (editsLine_append (by decide) k).trans (ih _)

theorem editsLine_erase (k : Keyboard) : k.EditsLine k.erase := by
  unfold erase
  split
  · rename_i hpos
    refine ⟨fun h => ⟨h.buffer.update (by decide), h.saved, ?_, h.savedIdx⟩, rfl, rfl, rfl⟩
    exact Int.sub_nonneg.mpr hpos
  · exact .refl k

theorem editsLine_type {scan : UInt8} (hk : keyOf scan = .other) (k : Keyboard) :
    k.EditsLine (k.type scan) := by
  unfold type
  split
  · exact .refl k
  · unfold scancodeHelper
    split
    · exact .refl k
    · rename_i b hb
      split at hb
      · cases hb
      · cases hb
        exact ⟨fun h => ⟨h.buffer.update (char_ne_newline _ _ hk), h.saved,
          Int.add_nonneg h.idx (by decide), h.savedIdx⟩, rfl, rfl, rfl⟩

/-- A key that is neither Enter nor a function key with Alt. -/
theorem editsLine_press {scan : UInt8} (hk : keyOf scan ≠ .enter)
    (hnone : Console.switches scan k = none) (t : Term) : k.EditsLine (k.press scan t) := by
  unfold Console.switches at hnone
  unfold press
  cases hkey : keyOf scan with
  | enter => exact absurd hkey hk
  | backspace => exact editsLine_erase k
  | leftControl press => exact ⟨fun h => ⟨h.buffer, h.saved, h.idx, h.savedIdx⟩, rfl, rfl, rfl⟩
  | space => exact editsLine_append (by decide) k
  | tab => exact editsLine_appendSpaces 4 k
  | capslock => exact ⟨fun h => ⟨h.buffer, h.saved, h.idx, h.savedIdx⟩, rfl, rfl, rfl⟩
  | shift press => exact ⟨fun h => ⟨h.buffer, h.saved, h.idx, h.savedIdx⟩, rfl, rfl, rfl⟩
  | alt press => exact ⟨fun h => ⟨h.buffer, h.saved, h.idx, h.savedIdx⟩, rfl, rfl, rfl⟩
  | f u press =>
    cases press with
    | false => exact .refl k
    | true =>
      rw [hkey] at hnone
      have halt : ¬ k.altInfo = true := fun e => by simp [e] at hnone
      show k.EditsLine (if true = true then k.choose u else k)
      rw [if_pos rfl]
      unfold choose
      rw [if_neg halt]
      exact ⟨fun h => ⟨h.buffer, h.saved, h.idx, h.savedIdx⟩, rfl, rfl, rfl⟩
  | other =>
    dsimp only
    split
    · exact ⟨fun h => ⟨h.buffer, h.saved, h.idx, h.savedIdx⟩, rfl, rfl, rfl⟩
    · exact editsLine_type hkey k

end Keyboard

/-! ## The history of the lines -/

/-- The line entered on each terminal that no read has returned yet, and the line that
the terminal's `term_buf` was last given, unless it was wiped since. -/
structure LineHistory where
  unread : Term → Option (List UInt8)
  held : Term → Option (List UInt8)

namespace LineHistory

def start : LineHistory := { unread := fun _ => none, held := fun _ => none }

/-- Enter while terminal `t` is displayed. -/
def enter (t : Term) (w : List UInt8) (h : LineHistory) : LineHistory :=
  { unread := Function.update h.unread t (some w), held := Function.update h.held t (some w) }

/-- The line of terminal `t` is read, or dropped by a halt. -/
def drop (t : Term) (h : LineHistory) : LineHistory :=
  { h with unread := Function.update h.unread t none }

/-- `terminal_close` while terminal `t` is displayed. -/
def wipe (t : Term) (h : LineHistory) : LineHistory :=
  { h with held := Function.update h.held t none }

end LineHistory

namespace Keyboard

/-- The keyboard's globals while terminal `t` is displayed, as the history has them. -/
structure Tracks (k : Keyboard) (t : Term) (h : LineHistory) : Prop where
  unbroken : k.Unbroken
  active : Placed k.termBuf (h.held t)
  saved : ∀ u, u ≠ t → Placed (k.switchArray u).termBuf (h.held u)
  flags : ∀ u, k.enterFlag u = (h.unread u).isSome
  lines : ∀ u w, h.unread u = some w → newline ∉ w ∧ w.length ≤ 127

variable {k k' : Keyboard} {t : Term} {h : LineHistory}

theorem Tracks.edits (hk : k.Tracks t h) (hedits : k.EditsLine k') : k'.Tracks t h where
  unbroken := hedits.unbroken hk.unbroken
  active := hedits.termBuf ▸ hk.active
  saved := hedits.switchArray ▸ hk.saved
  flags := hedits.enterFlag ▸ hk.flags
  lines := hk.lines

theorem init_tracks : init.Tracks 0 .start := by
  have hnone : NoBreak (Bytes.ofList []) := by
    intro i h0 _
    rw [Bytes.ofList_of_le h0]
    decide
  exact
    { unbroken := ⟨hnone, fun _ => hnone, Int.le_refl 0, fun _ => Int.le_refl 0⟩
      active := Bytes.SameOn.refl _ _
      saved := fun _ _ => Bytes.SameOn.refl _ _
      flags := fun _ => rfl
      lines := nofun }

/-- The line that Enter commits, with its line break. -/
theorem placed_commit (hunbroken : k.Unbroken) (hroom : k.bufIdx < bufsize) :
    Placed (k.commit t).termBuf (some k.pendingLine) := by
  have hsize : bufsize = 128 := rfl
  have hidx := hunbroken.idx
  have hlength : k.pendingLine.length = k.bufIdx.toNat := Bytes.length_take _ _
  have hend : (k.pendingLine.length : Int) = k.bufIdx := by
    rw [hlength]
    exact Int.toNat_of_nonneg hidx
  refine ⟨fun i h0 hi => ?_, hunbroken.buffer.not_mem_take (by omega), by omega⟩
  show Bytes.copy bufsize (Function.update k.keyboardBuf k.bufIdx newline) k.termBuf i = _
  rw [Bytes.copy_of_lt _ _ h0 (by omega), Bytes.ofList_concat, hend]
  by_cases hlast : i = k.bufIdx
  · rw [hlast, Function.update_self, Function.update_self]
  · rw [Function.update_of_ne hlast, Function.update_of_ne hlast]
    exact Bytes.sameOn_take k.bufIdx.toNat k.keyboardBuf i h0 (by omega)

theorem Unbroken.enter (hk : k.Unbroken) (t : Term) : (k.enter t).Unbroken := by
  obtain ⟨buf, log, heq⟩ := enter_eq k t
  rw [heq]
  refine ⟨noBreak_zero buf, fun u => ?_, Int.le_refl 0, hk.savedIdx⟩
  show NoBreak (Function.update k.keyboardBufs k.currTerm
    (Bytes.zero bufsize (k.keyboardBufs k.currTerm)) u)
  by_cases hu : u = k.currTerm
  · rw [hu, Function.update_self]
    exact noBreak_zero _
  · rw [Function.update_of_ne hu]
    exact hk.saved u

theorem Tracks.enter (hk : k.Tracks t h) (hroom : k.bufIdx < bufsize) :
    (k.enter t).Tracks t (h.enter t k.pendingLine) := by
  have hplaced := placed_commit (t := t) hk.unbroken hroom
  have hunbroken := hk.unbroken.enter t
  obtain ⟨buf, log, heq⟩ := enter_eq k t
  rw [heq] at hunbroken ⊢
  refine ⟨hunbroken, ?_, fun u hu => ?_, fun u => ?_, fun u w hw => ?_⟩
  · show Placed (k.commit t).termBuf (Function.update h.held t (some k.pendingLine) t)
    rw [Function.update_self]
    exact hplaced
  · show Placed (k.switchArray u).termBuf (Function.update h.held t (some k.pendingLine) u)
    rw [Function.update_of_ne hu]
    exact hk.saved u hu
  · show Function.update k.enterFlag t true u
      = (Function.update h.unread t (some k.pendingLine) u).isSome
    by_cases hu : u = t
    · rw [hu, Function.update_self, Function.update_self]
      rfl
    · rw [Function.update_of_ne hu, Function.update_of_ne hu]
      exact hk.flags u
  · have hunread : Function.update h.unread t (some k.pendingLine) u = some w := hw
    by_cases hu : u = t
    · rw [hu, Function.update_self, Option.some.injEq] at hunread
      exact hunread ▸ hplaced.2
    · rw [Function.update_of_ne hu] at hunread
      exact hk.lines u w hunread

/-- A switch from the displayed terminal to terminal `u`. -/
theorem Tracks.changeLine (hk : k.Tracks t h) (u : Term) :
    { k with prevTerm := t, currTerm := u }.changeLine.Tracks u h := by
  have harray : ∀ v,
      Placed ({ k with prevTerm := t, currTerm := u }.changeLine.switchArray v).termBuf (h.held v) ∧
      0 ≤ ({ k with prevTerm := t, currTerm := u }.changeLine.switchArray v).bufIdx := by
    intro v
    show Placed (Function.update k.switchArray t _ v).termBuf (h.held v) ∧
      0 ≤ (Function.update k.switchArray t _ v).bufIdx
    by_cases hv : v = t
    · rw [hv, Function.update_self]
      exact ⟨hk.active.copy, hk.unbroken.idx⟩
    · rw [Function.update_of_ne hv]
      exact ⟨hk.saved v hv, hk.unbroken.savedIdx v⟩
  have hbufs : ∀ v,
      NoBreak ({ k with prevTerm := t, currTerm := u }.changeLine.keyboardBufs v) := by
    intro v
    show NoBreak (Function.update k.keyboardBufs t _ v)
    by_cases hv : v = t
    · rw [hv, Function.update_self]
      exact hk.unbroken.buffer.copy _
    · rw [Function.update_of_ne hv]
      exact hk.unbroken.saved v
  exact
    { unbroken := ⟨(hbufs u).copy _, hbufs, (harray u).2, fun v => (harray v).2⟩
      active := (harray u).1.copy
      saved := fun v _ => (harray v).1
      flags := hk.flags
      lines := hk.lines }

/-- A read or a halt on terminal `u`. -/
theorem Tracks.drop (hk : k.Tracks t h) (u : Term) :
    { k with enterFlag := Function.update k.enterFlag u false }.Tracks t (h.drop u) := by
  refine
    { unbroken := ⟨hk.unbroken.buffer, hk.unbroken.saved, hk.unbroken.idx, hk.unbroken.savedIdx⟩
      active := hk.active
      saved := hk.saved
      flags := fun v => ?_
      lines := fun v w hw => ?_ }
  · show Function.update k.enterFlag u false v = (Function.update h.unread u none v).isSome
    by_cases hv : v = u
    · rw [hv, Function.update_self, Function.update_self]
      rfl
    · rw [Function.update_of_ne hv, Function.update_of_ne hv]
      exact hk.flags v
  · have hunread : Function.update h.unread u none v = some w := hw
    by_cases hv : v = u
    · rw [hv, Function.update_self] at hunread
      cases hunread
    · rw [Function.update_of_ne hv] at hunread
      exact hk.lines v w hunread

theorem Tracks.wipe (hk : k.Tracks t h) :
    { k with termBuf := Bytes.zero bufsize k.termBuf }.Tracks t (h.wipe t) := by
  refine
    { unbroken := ⟨hk.unbroken.buffer, hk.unbroken.saved, hk.unbroken.idx, hk.unbroken.savedIdx⟩
      active := ?_
      saved := fun u hu => ?_
      flags := hk.flags
      lines := hk.lines }
  · show Placed _ (Function.update h.held t none t)
    rw [Function.update_self]
    exact placed_zero _
  · show Placed _ (Function.update h.held t none u)
    rw [Function.update_of_ne hu]
    exact hk.saved u hu

end Keyboard

namespace Console

/-- The console as the history has it. -/
def TracksLines (c : Console) (h : LineHistory) : Prop :=
  c.kb.Tracks c.vid.currentTerminal h

/-- Enter finds room for its line break, and a switch finds `recentTermChoice` on the
displayed terminal. -/
structure Minds (c : Console) (scan : UInt8) : Prop where
  room : keyOf scan = .enter → c.kb.bufIdx < bufsize
  choice : ∀ t, switches scan c.kb = some t → c.kb.currTerm = c.vid.currentTerminal

/-- The history after a key. -/
def noteKey (c : Console) (scan : UInt8) (h : LineHistory) : LineHistory :=
  if keyOf scan = .enter then h.enter c.vid.currentTerminal c.kb.pendingLine else h

theorem TracksLines.key {c : Console} {h : LineHistory} (hc : c.TracksLines h) {scan : UInt8}
    (hminds : c.Minds scan) : (c.keyboardHandler scan).TracksLines (c.noteKey scan h) := by
  unfold TracksLines noteKey
  by_cases hk : keyOf scan = .enter
  · have hnone : switches scan c.kb = none := by
      unfold switches
      rw [hk]
    have hpress : c.kb.press scan c.vid.currentTerminal = c.kb.enter c.vid.currentTerminal := by
      unfold Keyboard.press
      rw [hk]
    rw [if_pos hk, keyboardHandler_currentTerminal hnone, keyboardHandler_kb, hpress]
    exact hc.enter (hminds.room hk)
  · rw [if_neg hk]
    cases hs : switches scan c.kb with
    | none =>
      rw [keyboardHandler_currentTerminal hs, keyboardHandler_kb]
      exact hc.edits (Keyboard.editsLine_press hk hs _)
    | some t =>
      rw [keyboardHandler_switch_currentTerminal hs, (keyboardHandler_switch hs).2]
      unfold Keyboard.pick
      rw [hminds.choice t hs]
      exact hc.changeLine t

/-- A display switched from the terminal that is displayed. -/
theorem TracksLines.display {c : Console} {h : LineHistory} (hc : c.TracksLines h) {prev : Term}
    (hprev : prev = c.vid.currentTerminal) (t : Term) : (c.display prev t).TracksLines h := by
  unfold TracksLines
  rw [display_currentTerminal, hprev]
  exact hc.changeLine t

theorem TracksLines.startScreen {c : Console} {h : LineHistory} (hc : c.TracksLines h)
    (hchoice : c.kb.currTerm = c.vid.currentTerminal) (t : Term) :
    (c.startScreen t).TracksLines h := by
  have hdisplay := hc.display hchoice t
  unfold TracksLines at hdisplay ⊢
  rw [display_currentTerminal] at hdisplay
  rw [startScreen_currentTerminal]
  unfold Console.startScreen
  rw [clear_kb]
  exact hdisplay

theorem init_tracksLines (mem : Bytes) : (init mem).TracksLines .start := by
  have hdisplay : (init mem).vid.currentTerminal = 0 := Video.init_currentTerminal mem
  unfold TracksLines
  rw [hdisplay]
  exact Keyboard.init_tracks

/-- A line entered on the scheduled terminal and not read yet lets a read go on. -/
theorem TracksLines.ready {c : Console} {h : LineHistory} (hc : c.TracksLines h)
    (hunread : h.unread c.vid.scheduledTerm = some w) : c.ReadReady := by
  have hflag := hc.flags c.vid.scheduledTerm
  rw [hunread] at hflag
  exact hflag

end Console

end StudentDistrib
