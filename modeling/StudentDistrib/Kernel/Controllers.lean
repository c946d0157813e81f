import Mathlib.Data.BitVec
import StudentDistrib.Basic

/-!
# The interrupt controllers

Two controllers with eight lines each, the second one behind line 2 of the first.  Each is
programmed through a command and a data port, and what the data port means depends on
what was written before.  However the controllers were programmed when the machine was
started, after `i8259_init` the lines that interrupt are those that are enabled, as long
as every handler ends the interrupt that it serves.
-/

namespace StudentDistrib

/-- What a controller takes the next byte on its data port for. -/
inductive Expected
  | icw2
  | icw3
  | icw4
  | mask
  deriving DecidableEq, Repr

structure Pic where
  expected : Expected
  /-- The vector of line 0. -/
  offset : BitVec 8
  cascade : BitVec 8
  imr : BitVec 8
  /-- The lines that are in service. -/
  isr : BitVec 8

namespace Pic

/-- A byte on the command port: a new initialization, or the end of an interrupt. -/
def command (value : BitVec 8) (c : Pic) : Pic :=
  if value &&& 0x10 ≠ 0 then { c with expected := .icw2, imr := 0 }
  else if value &&& 0xE0 = 0x60 then
    { c with isr := c.isr &&& ~~~(1#8 <<< (value &&& 7).toNat) }
  else c

/-- A byte on the data port. -/
def data (value : BitVec 8) (c : Pic) : Pic :=
  match c.expected with
  | .icw2 => { c with offset := value &&& 0xF8, expected := .icw3 }
  | .icw3 => { c with cascade := value, expected := .icw4 }
  | .icw4 => { c with expected := .mask }
  | .mask => { c with imr := value }

/-- The line is taken into service. -/
def accept (line : Nat) (c : Pic) : Pic := { c with isr := c.isr ||| 1#8 <<< line }

/-- A request on the line is passed on: it is not masked, and no line of the same or a
higher priority is in service. -/
def Passes (line : Nat) (c : Pic) : Prop :=
  c.imr.getLsbD line = false ∧ ∀ j ≤ line, c.isr.getLsbD j = false

theorem data_mask {c : Pic} (h : c.expected = .mask) (value : BitVec 8) :
    c.data value = { c with imr := value } := by
  rw [data, h]

end Pic

structure Pics where
  master : Pic
  slave : Pic

namespace Pics

def masterPort : Nat := 0x20
def slavePort : Nat := 0xA0
def icw1 : BitVec 8 := 0x11
def icw2Master : BitVec 8 := 0x20
def icw2Slave : BitVec 8 := 0x28
def icw3Master : BitVec 8 := 0x04
def icw3Slave : BitVec 8 := 0x02
def icw4 : BitVec 8 := 0x01
def eoi : BitVec 8 := 0x60

def outb (value : BitVec 8) (port : Nat) (s : Pics) : Pics :=
  if port = masterPort then { s with master := s.master.command value }
  else if port = masterPort + 1 then { s with master := s.master.data value }
  else if port = slavePort then { s with slave := s.slave.command value }
  else if port = slavePort + 1 then { s with slave := s.slave.data value }
  else s

/-- A read of a data port gives the mask. -/
def inb (port : Nat) (s : Pics) : BitVec 8 :=
  if port = masterPort + 1 then s.master.imr else s.slave.imr

/-- A mask that is read and written back with the bit of a line changed. -/
def changeMask (change : BitVec 8 → BitVec 8 → BitVec 8) (irq : Nat) (s : Pics) : Pics :=
  let (port, line) := if irq < 8 then (masterPort + 1, irq) else (slavePort + 1, irq - 8)
  s.outb (change (s.inb port) (1#8 <<< line)) port

/-- `enable_irq`. -/
def enableIrq : Nat → Pics → Pics := changeMask fun mask bit => mask &&& ~~~bit

/-- `disable_irq`. -/
def disableIrq : Nat → Pics → Pics := changeMask fun mask bit => mask ||| bit

/-- `send_eoi`. -/
def sendEoi (irq : Nat) (s : Pics) : Pics :=
  if irq > 15 then s
  else if irq ≥ 8 then
    (s.outb (eoi ||| BitVec.ofNat 8 (irq - 8)) slavePort).outb (eoi ||| 2) masterPort
  else s.outb (eoi ||| BitVec.ofNat 8 irq) masterPort

/-- `i8259_init`, where both masks in memory are still `0xff`. -/
def i8259Init (s : Pics) : Pics :=
  let s := (s.outb icw1 masterPort).outb icw1 slavePort
  let s := (s.outb icw2Master (masterPort + 1)).outb icw2Slave (slavePort + 1)
  let s := (s.outb icw3Master (masterPort + 1)).outb icw3Slave (slavePort + 1)
  let s := (s.outb icw4 (masterPort + 1)).outb icw4 (slavePort + 1)
  let s := (s.outb 0xFF (masterPort + 1)).outb 0xFF (slavePort + 1)
  s.enableIrq 2

/-- The interrupt is taken into service, by the second controller also on line 2 of the
first one. -/
def accept (irq : Nat) (s : Pics) : Pics :=
  if irq < 8 then { s with master := s.master.accept irq }
  else { master := s.master.accept 2, slave := s.slave.accept (irq - 8) }

/-- A request reaches the processor. -/
def Interrupts (irq : Nat) (s : Pics) : Prop :=
  if irq < 8 then s.master.Passes irq else s.master.Passes 2 ∧ s.slave.Passes (irq - 8)

/-- The vector with which the processor is interrupted. -/
def vector (irq : Nat) (s : Pics) : BitVec 8 :=
  if irq < 8 then s.master.offset ||| BitVec.ofNat 8 irq
  else s.slave.offset ||| BitVec.ofNat 8 (irq - 8)

end Pics

/-! ## What the lines do -/

/-- A change of a line's mask, or an interrupt that is served to its end. -/
inductive LineEvent
  | enable (irq : Fin 16)
  | disable (irq : Fin 16)
  | served (irq : Fin 16)

namespace Pics

def apply (s : Pics) : LineEvent → Pics
  | .enable irq => s.enableIrq irq
  | .disable irq => s.disableIrq irq
  | .served irq => (s.accept irq).sendEoi irq

end Pics

/-- The lines that are enabled. -/
def LineEvent.apply (enabled : Fin 16 → Bool) : LineEvent → Fin 16 → Bool
  | .enable irq => Function.update enabled irq true
  | .disable irq => Function.update enabled irq false
  | .served _ => enabled

namespace Pics

/-- The controllers are initialized, nothing is in service, and the masks are those of the
lines that are not enabled. -/
structure Idle (s : Pics) (enabled : Fin 16 → Bool) : Prop where
  expected : s.master.expected = .mask ∧ s.slave.expected = .mask
  offset : s.master.offset = 0x20 ∧ s.slave.offset = 0x28
  served : s.master.isr = 0 ∧ s.slave.isr = 0
  masked : ∀ irq : Fin 16, (if (irq : Nat) < 8 then s.master.imr.getLsbD irq
    else s.slave.imr.getLsbD (irq - 8)) = !enabled irq

variable {s : Pics} {enabled : Fin 16 → Bool}

/-- How the controllers were programmed before does not matter any more. -/
theorem idle_i8259Init (hserved : s.master.isr = 0 ∧ s.slave.isr = 0) :
    (i8259Init s).Idle fun irq => decide (irq = 2) := by
  refine ⟨⟨rfl, rfl⟩, ⟨rfl, rfl⟩, hserved, ?_⟩
  show ∀ irq : Fin 16, (if (irq : Nat) < 8 then (0xFF &&& ~~~(1#8 <<< 2)).getLsbD irq
    else (0xFF#8).getLsbD (irq - 8)) = !decide (irq = 2)
  decide

/-! ### The masks -/

theorem getLsbD_one_shiftLeft {line j : Nat} (hj : j < 8) :
    (1#8 <<< line).getLsbD j = decide (j = line) := by
  rw [BitVec.getLsbD_shiftLeft, BitVec.getLsbD_one]
  by_cases hlt : j < line
  · simp [hj, hlt, Nat.ne_of_lt hlt]
  · simp [hj, hlt]
    omega

theorem getLsbD_clear {line j : Nat} (hj : j < 8) (x : BitVec 8) :
    (x &&& ~~~(1#8 <<< line)).getLsbD j = if j = line then false else x.getLsbD j := by
  rw [BitVec.getLsbD_and, BitVec.getLsbD_not, getLsbD_one_shiftLeft hj]
  by_cases h : j = line
  · simp [h]
  · simp [h, hj]

theorem getLsbD_raise {line j : Nat} (hj : j < 8) (x : BitVec 8) :
    (x ||| 1#8 <<< line).getLsbD j = if j = line then true else x.getLsbD j := by
  rw [BitVec.getLsbD_or, getLsbD_one_shiftLeft hj]
  by_cases h : j = line
  · simp [h]
  · simp [h]

/-- The masks are written where the controllers are initialized. -/
theorem Idle.outb_master (h : s.Idle enabled) (value : BitVec 8) :
    s.outb value (masterPort + 1) = { s with master := { s.master with imr := value } } := by
  show { s with master := s.master.data value } = _
  rw [Pic.data_mask h.expected.1]

theorem Idle.outb_slave (h : s.Idle enabled) (value : BitVec 8) :
    s.outb value (slavePort + 1) = { s with slave := { s.slave with imr := value } } := by
  show { s with slave := s.slave.data value } = _
  rw [Pic.data_mask h.expected.2]

/-- A change of one bit of the masks. -/
theorem Idle.setMask (h : s.Idle enabled) {irq : Fin 16} {on : Bool} (master slave : BitVec 8)
    (hmaster : ∀ j < 8, master.getLsbD j
      = if (irq : Nat) = j then !on else s.master.imr.getLsbD j)
    (hslave : ∀ j < 8, slave.getLsbD j
      = if (irq : Nat) = j + 8 then !on else s.slave.imr.getLsbD j) :
    Idle { master := { s.master with imr := master }, slave := { s.slave with imr := slave } }
      (Function.update enabled irq on) := by
  refine ⟨h.expected, h.offset, h.served, fun i => ?_⟩
  have hbefore := h.masked i
  have hi := i.isLt
  have hupdate : Function.update enabled irq on i = if (irq : Nat) = i then on else enabled i := by
    simp only [Function.update_apply, Fin.ext_iff, eq_comm]
  rw [hupdate]
  by_cases hlt : (i : Nat) < 8
  · rw [if_pos hlt] at hbefore
    rw [if_pos hlt]
    show master.getLsbD i = _
    rw [hmaster i hlt, hbefore]
    split <;> rfl
  · rw [if_neg hlt] at hbefore
    rw [if_neg hlt]
    show slave.getLsbD (i - 8) = _
    have hline : (i : Nat) - 8 + 8 = i := by omega
    rw [hslave (i - 8) (by omega), hbefore, hline]
    split <;> rfl

/-- A changed bit is that of one line. -/
theorem Idle.changeMask (h : s.Idle enabled) {change : BitVec 8 → BitVec 8 → BitVec 8} {on : Bool}
    (hchange : ∀ line j x, j < 8 →
      (change x (1#8 <<< line)).getLsbD j = if j = line then !on else x.getLsbD j)
    (irq : Fin 16) : (s.changeMask change irq).Idle (Function.update enabled irq on) := by
  have hirq := irq.isLt
  by_cases hlt : (irq : Nat) < 8
  · simp only [Pics.changeMask, hlt, if_true]
    rw [h.outb_master]
    refine h.setMask _ s.slave.imr (fun j hj => ?_) fun j hj => ?_
    · show (change s.master.imr (1#8 <<< (irq : Nat))).getLsbD j = _
      rw [hchange irq j _ hj]
      simp only [eq_comm]
    · rw [if_neg (by omega)]
  · simp only [Pics.changeMask, hlt, if_false]
    rw [h.outb_slave]
    refine h.setMask s.master.imr _ (fun j hj => ?_) fun j hj => ?_
    · rw [if_neg (by omega)]
    · show (change s.slave.imr (1#8 <<< ((irq : Nat) - 8))).getLsbD j = _
      have hline : (irq : Nat) = j + 8 ↔ j = (irq : Nat) - 8 := by omega
      rw [hchange (irq - 8) j _ hj]
      simp only [hline]

/-! ### Interrupts in service -/

theorem eoi_line : ∀ line : Fin 8, (eoi ||| BitVec.ofNat 8 line) &&& 0x10 = 0 ∧
    (eoi ||| BitVec.ofNat 8 line) &&& 0xE0 = 0x60 ∧
    ((eoi ||| BitVec.ofNat 8 line) &&& 7).toNat = line := by
  decide

/-- The end of the interrupt that is in service gives back the state before it. -/
theorem command_accept {c : Pic} (h : c.isr = 0) (line : Fin 8) :
    (c.accept line).command (eoi ||| BitVec.ofNat 8 line) = c := by
  obtain ⟨hinit, hend, hline⟩ := eoi_line line
  have hcleared : (0 ||| 1#8 <<< (line : Nat)) &&& ~~~(1#8 <<< (line : Nat)) = 0#8 := by
    revert line
    decide
  rw [Pic.command, if_neg (not_not.mpr hinit), if_pos hend, hline]
  show { c with isr := (c.isr ||| 1#8 <<< (line : Nat)) &&& ~~~(1#8 <<< (line : Nat)) } = c
  rw [h, hcleared]
  exact congrArg (fun isr => { c with isr }) h.symm

/-- A line in service does not interrupt again. -/
theorem not_passes_accept {line : Nat} (h : line < 8) (c : Pic) :
    ¬ (c.accept line).Passes line := by
  rintro ⟨-, hserved⟩
  have hbit : (c.isr ||| 1#8 <<< line).getLsbD line = false := hserved line (Nat.le_refl line)
  rw [getLsbD_raise h, if_pos rfl] at hbit
  cases hbit

theorem Idle.served_eq (h : s.Idle enabled) (irq : Fin 16) : (s.accept irq).sendEoi irq = s := by
  have hirq := irq.isLt
  by_cases hlt : (irq : Nat) < 8
  · rw [Pics.accept, if_pos hlt, Pics.sendEoi, if_neg (by omega), if_neg (by omega)]
    show { s with master := (s.master.accept irq).command (eoi ||| BitVec.ofNat 8 irq) } = s
    rw [command_accept h.served.1 ⟨irq, hlt⟩]
  · rw [Pics.accept, if_neg hlt, Pics.sendEoi, if_neg (by omega), if_pos (by omega)]
    show Pics.mk ((s.master.accept 2).command (eoi ||| 2))
      ((s.slave.accept (irq - 8)).command (eoi ||| BitVec.ofNat 8 (irq - 8))) = s
    rw [command_accept h.served.2 ⟨irq - 8, by omega⟩]
    exact congrArg (fun master => Pics.mk master s.slave) (command_accept h.served.1 2)

theorem not_interrupts_accept (s : Pics) (irq : Fin 16) : ¬ (s.accept irq).Interrupts irq := by
  have hirq := irq.isLt
  unfold Pics.Interrupts Pics.accept
  by_cases hlt : (irq : Nat) < 8
  · rw [if_pos hlt, if_pos hlt]
    exact not_passes_accept hlt s.master
  · rw [if_neg hlt, if_neg hlt]
    exact fun h => not_passes_accept (by omega) s.slave h.2

theorem Idle.apply (h : s.Idle enabled) (e : LineEvent) : (s.apply e).Idle (e.apply enabled) := by
  cases e with
  | enable irq =>
    show (s.changeMask (fun mask bit => mask &&& ~~~bit) irq).Idle
      (Function.update enabled irq true)
    exact h.changeMask (fun _ _ x hj => getLsbD_clear hj x) irq
  | disable irq =>
    show (s.changeMask (fun mask bit => mask ||| bit) irq).Idle
      (Function.update enabled irq false)
    exact h.changeMask (fun _ _ x hj => getLsbD_raise hj x) irq
  | served irq =>
    show ((s.accept irq).sendEoi irq).Idle enabled
    rw [h.served_eq irq]
    exact h

theorem Idle.run (h : s.Idle enabled) (events : List LineEvent) :
    (events.foldl Pics.apply s).Idle (events.foldl LineEvent.apply enabled) := by
  induction events generalizing s enabled with
  | nil => exact h
  | cons e events ih => exact ih (h.apply e)

theorem Idle.passes {c : Pic} (h : c.isr = 0) (line : Nat) :
    c.Passes line ↔ c.imr.getLsbD line = false := by
  refine and_iff_left fun j _ => ?_
  rw [h]
  exact BitVec.getLsbD_zero

/-- The requests that reach the processor. -/
theorem Idle.interrupts_iff (h : s.Idle enabled) (irq : Fin 16) :
    s.Interrupts irq ↔ enabled irq = true ∧ (8 ≤ (irq : Nat) → enabled 2 = true) := by
  have hline := h.masked irq
  have hcascade : s.master.imr.getLsbD 2 = !enabled 2 := h.masked 2
  unfold Pics.Interrupts
  rw [Idle.passes h.served.1, Idle.passes h.served.1, Idle.passes h.served.2]
  by_cases hlt : (irq : Nat) < 8
  · rw [if_pos hlt] at hline
    rw [if_pos hlt, hline]
    simp [hlt]
  · rw [if_neg hlt] at hline
    rw [if_neg hlt, hline, hcascade]
    simp [Nat.not_lt.mp hlt, and_comm]

theorem Idle.vector_eq (h : s.Idle enabled) (irq : Fin 16) :
    s.vector irq = 0x20 + BitVec.ofNat 8 irq := by
  rw [Pics.vector, h.offset.1, h.offset.2]
  revert irq
  decide

/-- After `i8259_init`, whatever is enabled and disabled and as long as every handler ends
the interrupt that it serves: the requests that reach the processor are those on the lines
enabled last, the second controller's where line 2 is enabled too, each with its vector.  A
line in service is not interrupted by itself, and the end of its interrupt gives back the
state before it. -/
theorem lines_interrupt (hserved : s.master.isr = 0 ∧ s.slave.isr = 0) (events : List LineEvent)
    (irq : Fin 16) :
    let on := events.foldl LineEvent.apply fun irq => decide (irq = 2)
    let s' := events.foldl Pics.apply (i8259Init s)
    (s'.Interrupts irq ↔ on irq = true ∧ (8 ≤ (irq : Nat) → on 2 = true)) ∧
      s'.vector irq = 0x20 + BitVec.ofNat 8 irq ∧
      ¬ (s'.accept irq).Interrupts irq ∧ (s'.accept irq).sendEoi irq = s' := by
  intro on s'
  have hidle : s'.Idle on := (idle_i8259Init hserved).run events
  exact ⟨hidle.interrupts_iff irq, hidle.vector_eq irq, not_interrupts_accept s' irq,
    hidle.served_eq irq⟩

/-- The keyboard and then the clock are enabled, and a key is served between. -/
theorem lines_interrupt_keyboard :
    let s : Pics := { master := ⟨.mask, 0x08, 4, 0xB8, 0⟩, slave := ⟨.mask, 0x70, 2, 0x8E, 0⟩ }
    ([LineEvent.enable 1, .served 1, .enable 8].foldl Pics.apply (i8259Init s)).Interrupts 8 := by
  intro s
  exact (lines_interrupt (s := s) ⟨rfl, rfl⟩ [.enable 1, .served 1, .enable 8] 8).1.mpr (by decide)

end Pics

end StudentDistrib
