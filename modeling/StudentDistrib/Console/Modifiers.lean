import StudentDistrib.Console.Lines
import StudentDistrib.Machine.Steps

/-!
# Modifier keys

A physical key sends a make code, with bit 7 clear, each time it is pressed and while
it repeats, and the same code with bit 7 set when it is released.  The extended keys
send 0xE0 first.  The handler keeps one flag for each kind of modifier and the last
code received decides it, so that the flag follows the keys exactly as long as no key
changes it for another key that is held.
-/

namespace StudentDistrib

open Machine

/-! ## The physical keyboard -/

structure PhysicalKey where
  extended : Bool
  code : Fin 128
  deriving DecidableEq

def leftControl : PhysicalKey := ⟨false, 0x1D⟩
def leftShift : PhysicalKey := ⟨false, 0x2A⟩
def rightShift : PhysicalKey := ⟨false, 0x36⟩
def leftAlt : PhysicalKey := ⟨false, 0x38⟩
def rightAlt : PhysicalKey := ⟨true, 0x38⟩
def capsLock : PhysicalKey := ⟨false, 0x3A⟩

structure KeyEvent where
  key : PhysicalKey
  press : Bool
  deriving DecidableEq

/-- A make or break code. -/
def scanByte (code : Fin 128) (press : Bool) : UInt8 :=
  if press then code.val.toUInt8 else code.val.toUInt8 + 0x80

def KeyEvent.scancodes (e : KeyEvent) : List UInt8 :=
  if e.key.extended then [0xE0, scanByte e.key.code e.press] else [scanByte e.key.code e.press]

/-- What the modifier flags are about. -/
inductive Modifier
  | control
  | shift
  | alt
  | capslock
  deriving DecidableEq

/-- The keys that hold a modifier. -/
def Modifier.keys : Modifier → List PhysicalKey
  | .control => [leftControl]
  | .shift => [leftShift, rightShift]
  | .alt => [leftAlt, rightAlt]
  | .capslock => [capsLock]

/-- Which keys are down, and how often caps lock was pressed. -/
structure Board where
  held : PhysicalKey → Bool
  capsPresses : Nat

namespace Board

def released : Board := { held := fun _ => false, capsPresses := 0 }

/-- Caps lock counts each of its make codes. -/
def event (e : KeyEvent) (b : Board) : Board :=
  { held := Function.update b.held e.key e.press
    capsPresses := if e.key = capsLock ∧ e.press = true then b.capsPresses + 1
      else b.capsPresses }

def after (b : Board) (events : List KeyEvent) : Board := events.foldl (fun b e => b.event e) b

/-- Only keys that are down are released. -/
def Consistent (b : Board) (events : List KeyEvent) : Prop :=
  ∀ before e, before ++ [e] <+: events → e.press = false → (b.after before).held e.key = true

/-- The modifier is on. -/
def On (b : Board) : Modifier → Prop
  | .capslock => b.capsPresses % 2 = 1
  | m => ∃ q ∈ m.keys, b.held q = true

theorem after_concat (b : Board) (events : List KeyEvent) (e : KeyEvent) :
    b.after (events ++ [e]) = (b.after events).event e := by
  simp only [after, List.foldl_append, List.foldl_cons, List.foldl_nil]

end Board

/-! ## The flags of the driver -/

namespace Keyboard

def flag (k : Keyboard) : Modifier → Bool
  | .control => k.ctrlState
  | .shift => k.capitalFlag
  | .alt => k.altInfo
  | .capslock => k.capslockFlag

/-- `ctrl_info[0]`, `capital_flag`, `alt_info` and `capslock_flag` are set as the keys are. -/
def Follows (k : Keyboard) (b : Board) : Prop := ∀ m, k.flag m = true ↔ b.On m

theorem follows_iff {k : Keyboard} {b : Board} : k.Follows b ↔
    (k.capitalFlag = true ↔ b.held leftShift = true ∨ b.held rightShift = true) ∧
      (k.ctrlState = true ↔ b.held leftControl = true) ∧
      (k.altInfo = true ↔ b.held leftAlt = true ∨ b.held rightAlt = true) ∧
      (k.capslockFlag = true ↔ b.capsPresses % 2 = 1) := by
  have hshift : b.On .shift ↔ b.held leftShift = true ∨ b.held rightShift = true := by
    simp [Board.On, Modifier.keys]
  have hcontrol : b.On .control ↔ b.held leftControl = true := by
    simp [Board.On, Modifier.keys]
  have halt : b.On .alt ↔ b.held leftAlt = true ∨ b.held rightAlt = true := by
    simp [Board.On, Modifier.keys]
  rw [← hshift, ← hcontrol, ← halt]
  constructor
  · intro h
    exact ⟨h .shift, h .control, h .alt, h .capslock⟩
  · intro h m
    obtain ⟨hs, hc, ha, hl⟩ := h
    cases m with
    | control => exact hc
    | shift => exact hs
    | alt => exact ha
    | capslock => exact hl

end Keyboard

/-- The flag that a key writes, and the value but for caps lock. -/
def Key.modifier : Key → Option (Modifier × Bool)
  | .leftControl press => some (.control, press)
  | .shift press => some (.shift, press)
  | .alt press => some (.alt, press)
  | .capslock => some (.capslock, true)
  | _ => none

/-- The flags after a key. -/
def setFlag : Option (Modifier × Bool) → (Modifier → Bool) → Modifier → Bool
  | none, flags => flags
  | some (.capslock, _), flags => Function.update flags .capslock (!flags .capslock)
  | some (m, press), flags => Function.update flags m press

theorem flag_of_unwritten {k k' : Keyboard}
    (h : k'.ctrlState = k.ctrlState ∧ k'.capitalFlag = k.capitalFlag ∧ k'.altInfo = k.altInfo ∧
      k'.capslockFlag = k.capslockFlag) : k'.flag = k.flag := by
  obtain ⟨hctrl, hcapital, halt, hcaps⟩ := h
  funext m
  cases m with
  | control => exact hctrl
  | shift => exact hcapital
  | alt => exact halt
  | capslock => exact hcaps

theorem appendSpaces_flag (n : Nat) (k : Keyboard) : (k.appendSpaces n).flag = k.flag := by
  induction n generalizing k with
  | zero => rfl
  | succ n ih =>
    rw [Keyboard.appendSpaces]
    split
    · rfl
    · exact (ih (k.append space)).trans (flag_of_unwritten ⟨rfl, rfl, rfl, rfl⟩)

theorem enter_flag (k : Keyboard) (t : Term) : (k.enter t).flag = k.flag := by
  obtain ⟨buf, log, heq⟩ := Keyboard.enter_eq k t
  rw [heq]
  exact flag_of_unwritten ⟨rfl, rfl, rfl, rfl⟩

theorem type_flag (scan : UInt8) (k : Keyboard) : (k.type scan).flag = k.flag := by
  unfold Keyboard.type
  split
  · rfl
  · cases scancodeHelper k.capslockFlag k.capitalFlag scan with
    | none => rfl
    | some b => exact flag_of_unwritten ⟨rfl, rfl, rfl, rfl⟩

/-- A scancode writes the flag of its own modifier. -/
theorem press_flag (scan : UInt8) (t : Term) (k : Keyboard) :
    (k.press scan t).flag = setFlag (keyOf scan).modifier k.flag := by
  unfold Keyboard.press
  cases keyOf scan with
  | enter => exact enter_flag k t
  | backspace =>
    show k.erase.flag = k.flag
    unfold Keyboard.erase
    split
    · exact flag_of_unwritten ⟨rfl, rfl, rfl, rfl⟩
    · rfl
  | leftControl press => funext m; cases m <;> rfl
  | space => exact flag_of_unwritten ⟨rfl, rfl, rfl, rfl⟩
  | tab => exact appendSpaces_flag 4 k
  | capslock => funext m; cases m <;> rfl
  | shift press => funext m; cases m <;> rfl
  | alt press => funext m; cases m <;> rfl
  | f u press =>
    cases press with
    | false => rfl
    | true =>
      show (k.choose u).flag = k.flag
      unfold Keyboard.choose
      split <;> exact flag_of_unwritten ⟨rfl, rfl, rfl, rfl⟩
  | other =>
    dsimp only
    split
    · exact flag_of_unwritten ⟨rfl, rfl, rfl, rfl⟩
    · exact type_flag scan k

theorem handled_flag (c : Console) (scans : List UInt8) : (c.handled scans).kb.flag =
    scans.foldl (fun flags scan => setFlag (keyOf scan).modifier flags) c.kb.flag := by
  induction scans using List.reverseRecOn with
  | nil => rfl
  | append_singleton scans scan ih =>
    rw [Console.handled_concat, Console.keyboardHandler_kb, press_flag, ih, List.foldl_append]
    rfl

/-! ## One event -/

/-- The modifier that a code stands for, extended or not. -/
def modifierOf (code : Fin 128) : Option Modifier :=
  if code = 0x1D then some .control
  else if code = 0x2A ∨ code = 0x36 then some .shift
  else if code = 0x38 then some .alt
  else if code = 0x3A then some .capslock
  else none

/-- The flag that an event writes. -/
def KeyEvent.writes (e : KeyEvent) : Option (Modifier × Bool) :=
  match modifierOf e.key.code with
  | none => none
  | some .capslock => if e.press then some (.capslock, true) else none
  | some m => some (m, e.press)

theorem keyOf_scanByte : ∀ (code : Fin 128) (press : Bool),
    (keyOf (scanByte code press)).modifier = KeyEvent.writes ⟨⟨false, code⟩, press⟩ := by
  decide

/-- The prefix of the extended keys is a code without a character. -/
theorem handled_event (c : Console) (e : KeyEvent) :
    (c.handled e.scancodes).kb.flag = setFlag e.writes c.kb.flag := by
  have hwrites : (keyOf (scanByte e.key.code e.press)).modifier = e.writes :=
    keyOf_scanByte e.key.code e.press
  rw [handled_flag, ← hwrites]
  unfold KeyEvent.scancodes
  split <;> rfl

theorem modifierOf_of_mem_keys {m : Modifier} {q : PhysicalKey} (h : q ∈ m.keys) :
    modifierOf q.code = some m := by
  cases m <;> simp only [Modifier.keys, List.mem_cons, List.not_mem_nil, or_false] at h
  · rw [h]
    rfl
  · rcases h with rfl | rfl <;> rfl
  · rcases h with rfl | rfl <;> rfl
  · rw [h]
    rfl

/-- The event writes the flag of a modifier against the keys that hold it: a key that
holds none of them sets it, or a release clears it while another of them is held. -/
def Board.Disturbs (e : KeyEvent) (b : Board) : Prop :=
  match e.writes with
  | none => False
  | some (.capslock, _) => e.key ≠ capsLock
  | some (m, true) => e.key ∉ m.keys ∧ ∀ q ∈ m.keys, b.held q = false
  | some (m, false) => ∃ q ∈ m.keys, q ≠ e.key ∧ b.held q = true

namespace Board

/-- The keys of another modifier stay as they are. -/
theorem on_event_of_ne {e : KeyEvent} {m : Modifier} (b : Board)
    (hne : modifierOf e.key.code ≠ some m) : (b.event e).On m ↔ b.On m := by
  have hkey : ∀ q ∈ m.keys, (b.event e).held q = b.held q := by
    intro q hq
    have hqe : q ≠ e.key := by
      rintro rfl
      exact hne (modifierOf_of_mem_keys hq)
    exact Function.update_of_ne hqe _ _
  have hkeys : (∃ q ∈ m.keys, (b.event e).held q = true) ↔ ∃ q ∈ m.keys, b.held q = true := by
    constructor
    · intro h
      obtain ⟨q, hq, hheld⟩ := h
      exact ⟨q, hq, (hkey q hq).symm.trans hheld⟩
    · intro h
      obtain ⟨q, hq, hheld⟩ := h
      exact ⟨q, hq, (hkey q hq).trans hheld⟩
  cases m with
  | control => exact hkeys
  | shift => exact hkeys
  | alt => exact hkeys
  | capslock =>
    have hcaps : e.key ≠ capsLock := fun h => hne (h ▸ rfl)
    show (b.event e).capsPresses % 2 = 1 ↔ b.capsPresses % 2 = 1
    simp only [event, hcaps, false_and, if_false]

theorem exists_held_event {e : KeyEvent} {m : Modifier} (b : Board) :
    (∃ q ∈ m.keys, (b.event e).held q = true) ↔
      (e.press = true ∧ e.key ∈ m.keys) ∨ ∃ q ∈ m.keys, q ≠ e.key ∧ b.held q = true := by
  constructor
  · intro h
    obtain ⟨q, hq, hheld⟩ := h
    by_cases hqe : q = e.key
    · subst hqe
      have hpress : e.press = true := by
        simpa only [event, Function.update_self] using hheld
      exact Or.inl ⟨hpress, hq⟩
    · refine Or.inr ⟨q, hq, hqe, ?_⟩
      simpa only [event, Function.update_of_ne hqe] using hheld
  · intro h
    rcases h with ⟨hpress, hmem⟩ | ⟨q, hq, hqe, hheld⟩
    · refine ⟨e.key, hmem, ?_⟩
      simpa only [event, Function.update_self] using hpress
    · refine ⟨q, hq, ?_⟩
      simpa only [event, Function.update_of_ne hqe] using hheld

/-- A flag written with the direction of an event agrees with the keys of its
modifier unless the event disturbs it. -/
theorem press_iff_held {e : KeyEvent} {m : Modifier} (b : Board) :
    (e.press = true ↔ ∃ q ∈ m.keys, (b.event e).held q = true) ↔
      ¬ (if e.press then e.key ∉ m.keys ∧ ∀ q ∈ m.keys, b.held q = false
        else ∃ q ∈ m.keys, q ≠ e.key ∧ b.held q = true) := by
  rw [exists_held_event]
  cases e.press with
  | false => simp
  | true =>
    simp only [true_and, true_iff, if_true, not_and_or, not_not, not_forall, Bool.not_eq_false,
      exists_prop]
    constructor
    · intro h
      exact h.imp id fun ⟨q, hq, _, hheld⟩ => ⟨q, hq, hheld⟩
    · intro h
      rcases h with hmem | ⟨q, hq, hheld⟩
      · exact Or.inl hmem
      · by_cases hqe : q = e.key
        · exact Or.inl (hqe ▸ hq)
        · exact Or.inr ⟨q, hq, hqe, hheld⟩

end Board

namespace Keyboard

/-- The flags keep following the keys exactly when the event disturbs no modifier. -/
theorem follows_event_iff {k k' : Keyboard} {b : Board} (h : k.Follows b) {e : KeyEvent}
    (hflag : k'.flag = setFlag e.writes k.flag) : k'.Follows (b.event e) ↔ ¬ b.Disturbs e := by
  have hothers : ∀ m, modifierOf e.key.code ≠ some m → (k'.flag m = true ↔ (b.event e).On m) := by
    intro m hm
    rw [Board.on_event_of_ne b hm, ← h m, hflag]
    unfold KeyEvent.writes
    cases hmod : modifierOf e.key.code with
    | none => rfl
    | some m' =>
      have hne : m ≠ m' := fun e => hm (hmod.trans (congrArg some e.symm))
      cases m' <;> cases e.press <;> simp [setFlag, Function.update_of_ne hne]
  have hself : ∀ m, modifierOf e.key.code = some m →
      (k'.Follows (b.event e) ↔ (k'.flag m = true ↔ (b.event e).On m)) := by
    intro m hm
    constructor
    · intro hfollows
      exact hfollows m
    · intro hon m'
      by_cases hmm : m' = m
      · rw [hmm]
        exact hon
      · exact hothers m' fun e => hmm (Option.some.inj (e.symm.trans hm))
  cases hmod : modifierOf e.key.code with
  | none =>
    have hquiet : ¬ b.Disturbs e := by simp [Board.Disturbs, KeyEvent.writes, hmod]
    exact iff_of_true (fun m => hothers m (by simp [hmod])) hquiet
  | some m =>
    rw [hself m hmod]
    have hpress := Board.press_iff_held (e := e) (m := m) b
    cases m with
    | control =>
      have hset : k'.flag .control = e.press := by simp [hflag, KeyEvent.writes, hmod, setFlag]
      rw [hset]
      refine hpress.trans (not_congr ?_)
      cases hp : e.press <;> simp [Board.Disturbs, KeyEvent.writes, hmod, hp]
    | shift =>
      have hset : k'.flag .shift = e.press := by simp [hflag, KeyEvent.writes, hmod, setFlag]
      rw [hset]
      refine hpress.trans (not_congr ?_)
      cases hp : e.press <;> simp [Board.Disturbs, KeyEvent.writes, hmod, hp]
    | alt =>
      have hset : k'.flag .alt = e.press := by simp [hflag, KeyEvent.writes, hmod, setFlag]
      rw [hset]
      refine hpress.trans (not_congr ?_)
      cases hp : e.press <;> simp [Board.Disturbs, KeyEvent.writes, hmod, hp]
    | capslock =>
      have hparity : k.flag .capslock = true ↔ b.capsPresses % 2 = 1 := h .capslock
      show (k'.flag .capslock = true ↔ (b.event e).capsPresses % 2 = 1) ↔ _
      cases hp : e.press with
      | false =>
        have hquiet : ¬ b.Disturbs e := by simp [Board.Disturbs, KeyEvent.writes, hmod, hp]
        have hsame : k'.flag .capslock = k.flag .capslock := by
          simp [hflag, KeyEvent.writes, hmod, hp, setFlag]
        refine iff_of_true ?_ hquiet
        rw [hsame, hparity]
        simp [Board.event, hp]
      | true =>
        have htoggled : k'.flag .capslock = !k.flag .capslock := by
          simp [hflag, KeyEvent.writes, hmod, hp, setFlag]
        have hdisturbs : b.Disturbs e ↔ e.key ≠ capsLock := by
          simp [Board.Disturbs, KeyEvent.writes, hmod, hp]
        rw [hdisturbs, not_not, htoggled, Bool.not_eq_true', ← Bool.not_eq_true, hparity]
        by_cases hkey : e.key = capsLock
        · simp only [Board.event, hkey, hp, and_self, if_true, iff_true]
          omega
        · simp only [Board.event, hkey, false_and, if_false, iff_false]
          omega

end Keyboard

/-! ## Runs -/

namespace Console

/-- The console after some events of the keyboard. -/
def struck (c : Console) (events : List KeyEvent) : Console :=
  c.handled (events.flatMap KeyEvent.scancodes)

theorem struck_concat (c : Console) (events : List KeyEvent) (e : KeyEvent) :
    c.struck (events ++ [e]) = (c.struck events).handled e.scancodes := by
  simp only [struck, handled, List.flatMap_append, List.flatMap_singleton, List.foldl_append]

/-- Under any sequence of events the flags follow the keys after each of them exactly
when no event disturbs a modifier. -/
theorem follows_struck_iff {c : Console} {b : Board} (h : c.kb.Follows b) (events : List KeyEvent) :
    (∀ before e, before ++ [e] <+: events →
        (c.struck (before ++ [e])).kb.Follows (b.after (before ++ [e]))) ↔
      ∀ before e, before ++ [e] <+: events → ¬ (b.after before).Disturbs e := by
  have hstep : ∀ before e, (c.struck before).kb.Follows (b.after before) →
      ((c.struck (before ++ [e])).kb.Follows (b.after (before ++ [e])) ↔
        ¬ (b.after before).Disturbs e) := by
    intro before e hfollows
    rw [struck_concat, Board.after_concat]
    exact Keyboard.follows_event_iff hfollows (handled_event _ e)
  apply forall_steps_iff (I := fun before => (c.struck before).kb.Follows (b.after before))
  · exact h
  · intro before e hfollows hquiet
    exact (hstep before e hfollows).mpr hquiet
  · exact hstep

theorem booted_follows (mem : Bytes) : (booted mem).kb.Follows Board.released := by
  have hholds := booted_holds mem
  have hon : ∀ m, ¬ Board.released.On m := by
    intro m
    cases m <;> simp [Board.On, Board.released]
  intro m
  refine iff_of_false ?_ (hon m)
  cases m with
  | control => simp [Keyboard.flag, hholds.ctrl, Desk.start]
  | shift => simp [Keyboard.flag, hholds.shift, Desk.start]
  | alt => simp [Keyboard.flag, hholds.alt, Desk.start]
  | capslock => simp [Keyboard.flag, hholds.caps, Desk.start]

/-- The left shift key pressed and released after the boot. -/
theorem follows_struck_shift : (booted (Bytes.ofList [])).kb.Follows Board.released ∧
    ∀ before e, before ++ [e] <+: [KeyEvent.mk leftShift true, ⟨leftShift, false⟩] →
      ((booted (Bytes.ofList [])).struck (before ++ [e])).kb.Follows
        (Board.released.after (before ++ [e])) := by
  refine ⟨booted_follows _, (follows_struck_iff (booted_follows _) _).mpr ?_⟩
  rw [forall_steps_cons, forall_steps_cons]
  refine ⟨?_, ?_, forall_steps_nil⟩
  · show ¬ (leftShift ∉ Modifier.keys .shift ∧ _)
    decide
  · show ¬ ∃ q ∈ Modifier.keys .shift, q ≠ leftShift ∧ _
    decide

/-- The right shift key released while the left one is held. -/
theorem shift_lost_on_release : ¬ ∀ (mem : Bytes) (events : List KeyEvent),
    Board.released.Consistent events → ∀ before e, before ++ [e] <+: events →
      ((booted mem).struck (before ++ [e])).kb.Follows
        (Board.released.after (before ++ [e])) := by
  intro h
  have hfollows := h (Bytes.ofList [])
    [⟨leftShift, true⟩, ⟨rightShift, true⟩, ⟨rightShift, false⟩] ?_
    [⟨leftShift, true⟩, ⟨rightShift, true⟩] ⟨rightShift, false⟩ (List.prefix_refl _)
  · have hheld := (hfollows .shift).mpr ⟨leftShift, List.mem_cons_self, rfl⟩
    rw [struck_concat, handled_event] at hheld
    exact absurd hheld (by decide)
  · unfold Board.Consistent
    rw [forall_steps_cons, forall_steps_cons, forall_steps_cons]
    refine ⟨?_, ?_, ?_, forall_steps_nil⟩
    · exact fun h => absurd h (by decide)
    · exact fun h => absurd h (by decide)
    · exact fun _ => rfl

end Console

end StudentDistrib
