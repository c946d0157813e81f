import StudentDistrib.Console.Lines

/-!
# Reading the committed line

The copy loop of `terminal_read` has an inclusive bound.  It stores one byte more
than the size that it works with, which is harmless only where that size is the
one that larger ones are reduced to, 127 of the 128 bytes of `term_buf`.
-/

namespace StudentDistrib

open Machine

namespace Console

theorem countLine_line {w : List UInt8} (h : newline ∉ w) (rest : List UInt8) :
    countLine (w ++ newline :: rest) = w.length + 1 := by
  induction w with
  | nil => exact if_pos rfl
  | cons b w ih =>
    have hb : b ≠ newline := fun e => h (e ▸ List.mem_cons_self)
    show countLine (b :: (w ++ newline :: rest)) = _
    rw [countLine, if_neg hb, ih fun hmem => h (List.mem_cons_of_mem _ hmem), List.length_cons]

/-- `term_buf` holds the line `w` with its line break. -/
def Committed (c : Console) (w : List UInt8) : Prop :=
  Bytes.SameOn bufsize c.kb.termBuf (Bytes.ofList (w ++ [newline]))

/-- The read of the process of the scheduled terminal goes on. -/
def ReadReady (c : Console) : Prop := c.kb.enterFlag c.vid.scheduledTerm = true

theorem terminalReadFinish_isSome (nbytes : Int) (c : Console) :
    (c.terminalReadFinish nbytes).isSome ↔ c.ReadReady := by
  unfold terminalReadFinish ReadReady
  split
  · rename_i h
    exact ⟨fun _ => h, fun _ => rfl⟩
  · rename_i h
    exact ⟨fun hsome => absurd hsome (by decide), fun hready => absurd hready h⟩

theorem clampRead_of_ge {nbytes : Int} (h : 128 ≤ nbytes) : clampRead nbytes = 127 := if_pos h

theorem clampRead_of_lt {nbytes : Int} (h : nbytes < 128) : clampRead nbytes = nbytes :=
  if_neg (Int.not_le.mpr h)

/-- A read of the whole buffer returns the line with its line break, and stores
zeros after it. -/
theorem terminalReadFinish_line {c : Console} {w : List UInt8} (hready : c.ReadReady)
    (hline : c.Committed w) (hw : newline ∉ w) (hlen : w.length ≤ 127) {nbytes : Int}
    (hn : 128 ≤ nbytes) : ∃ c', c.terminalReadFinish nbytes
      = some (c', w ++ newline :: List.replicate (127 - w.length) 0, w.length + 1) := by
  have hbytes : Bytes.take 128 c.kb.termBuf
      = w ++ newline :: List.replicate (127 - w.length) 0 := by
    have hsame : Bytes.take 128 c.kb.termBuf = Bytes.take 128 (Bytes.ofList (w ++ [newline])) :=
      Bytes.SameOn.take_eq hline
    have hsize : 128 = (w ++ [newline]).length + (127 - w.length) := by
      rw [List.length_append, List.length_singleton]
      omega
    rw [hsame, hsize, Bytes.take_ofList_append, List.append_assoc, List.singleton_append]
  unfold ReadReady at hready
  unfold terminalReadFinish
  rw [if_pos hready, clampRead_of_ge hn]
  refine ⟨_, congrArg some (Prod.ext rfl (Prod.ext hbytes ?_))⟩
  show countLine (Bytes.take 128 c.kb.termBuf) = _
  rw [hbytes, countLine_line hw]

/-- The read stores nothing past its buffer, and returns the length of what it
delivers of `line`, the line break included. -/
def HonoursSize (c : Console) (nbytes : Int) (line : List UInt8) : Prop :=
  ∃ c' stored v, c.terminalReadFinish nbytes = some (c', stored, v) ∧
    (stored.length : Int) ≤ nbytes ∧ (v : Int) = min nbytes line.length ∧
    stored.take v = line.take v

/-- A read of less than the whole buffer stores a byte past its own. -/
theorem not_honoursSize (c : Console) (line : List UInt8) {nbytes : Int} (h1 : 1 ≤ nbytes)
    (hn : nbytes < 128) : ¬ c.HonoursSize nbytes line := by
  rintro ⟨c', stored, v, hread, hlength, -, -⟩
  unfold terminalReadFinish at hread
  split at hread
  · rw [clampRead_of_lt hn, Option.some.injEq] at hread
    have hstored := congrArg (fun r => (r.2.1.length : Int)) hread
    dsimp only at hstored
    rw [Bytes.length_take] at hstored
    omega
  · cases hread

/-- A read of a committed line honours its size exactly where the size is that of
the whole buffer. -/
theorem honoursSize_iff {c : Console} {w : List UInt8} (hready : c.ReadReady)
    (hline : c.Committed w) (hw : newline ∉ w) (hlen : w.length ≤ 127) {nbytes : Int}
    (h1 : 1 ≤ nbytes) : c.HonoursSize nbytes (w ++ [newline]) ↔ 128 ≤ nbytes := by
  constructor
  · intro h
    by_contra hn
    exact not_honoursSize c _ h1 (Int.not_le.mp hn) h
  · intro hn
    obtain ⟨c', hread⟩ := terminalReadFinish_line hready hline hw hlen hn
    have hlength : (w ++ [newline]).length = w.length + 1 := by
      rw [List.length_append, List.length_singleton]
    refine ⟨c', _, _, hread, ?_, ?_, ?_⟩
    · rw [List.length_append, List.length_cons, List.length_replicate]
      omega
    · rw [hlength]
      omega
    · have hsplit : w ++ newline :: List.replicate (127 - w.length) 0
          = (w ++ [newline]) ++ List.replicate (127 - w.length) 0 := by
        rw [List.append_assoc, List.singleton_append]
      rw [hsplit, ← hlength, List.take_left, List.take_length]

/-- The first terminal after the line `a` and Enter. -/
def typed : Console := (booted (Bytes.ofList [])).handled [0x1E, 0x1C]

theorem typed_terms : typed.terms = (booted (Bytes.ofList [])).terms := by
  have hletter : switches 0x1E (booted (Bytes.ofList [])).kb = none := rfl
  have henter : switches 0x1C ((booted (Bytes.ofList [])).keyboardHandler 0x1E).kb = none := rfl
  exact (keyboardHandler_terms henter).trans (keyboardHandler_terms hletter)

theorem typed_kb : typed.kb = ((booted (Bytes.ofList [])).kb.press 0x1E 0).press 0x1C 0 := by
  have hletter : switches 0x1E (booted (Bytes.ofList [])).kb = none := rfl
  have hterm : ((booted (Bytes.ofList [])).keyboardHandler 0x1E).vid.currentTerminal = 0 :=
    (keyboardHandler_currentTerminal hletter).trans (booted_currentTerminal (Bytes.ofList []))
  show (((booted (Bytes.ofList [])).keyboardHandler 0x1E).keyboardHandler 0x1C).kb = _
  rw [keyboardHandler_kb, keyboardHandler_kb, hterm, booted_currentTerminal]

theorem typed_ready : typed.ReadReady := by
  have hterm : typed.vid.scheduledTerm = 0 :=
    (congrArg Terms.scheduledTerm typed_terms).trans (booted_scheduledTerm (Bytes.ofList []))
  unfold ReadReady
  rw [hterm, typed_kb]
  rfl

theorem typed_committed : typed.Committed [0x61] := by
  have hkb := booted_holds (Bytes.ofList [])
  have hfits : Desk.start.Fits := fun _ => (by decide : (0 : Int) < bufsize)
  have hroom : ¬ (booted (Bytes.ofList [])).kb.Overruns 0x1E := fun h => absurd h.1 (by decide)
  have hletter := hkb.press hfits hroom fun _ => rfl
  have hroom' : ¬ ((booted (Bytes.ofList [])).kb.press 0x1E 0).Overruns 0x1C :=
    fun h => absurd h.2 (by decide : (1 : Int) ≠ bufsize - 1)
  have henter := hletter.press (hfits.press 0x1E) hroom' fun _ => rfl
  have hdesk : ((Desk.start.press 0x1E).press 0x1C).committed 0 = [0x61] ++ [newline] := by decide
  unfold Committed
  rw [typed_kb, ← hdesk]
  exact henter.active.termBuf

/-- A read of 128 bytes. -/
theorem honoursSize_typed : typed.HonoursSize 128 [0x61, newline] :=
  (honoursSize_iff typed_ready typed_committed (by decide) (by decide) (by decide)).mpr (by decide)

/-- A read of one byte stores two. -/
theorem one_byte_stores_two :
    typed.ReadReady ∧ typed.Committed [0x61] ∧ ¬ typed.HonoursSize 1 [0x61, newline] :=
  ⟨typed_ready, typed_committed, not_honoursSize typed _ (by decide) (by decide)⟩

end Console

end StudentDistrib
