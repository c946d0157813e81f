import Mathlib.Logic.Function.Basic
import StudentDistrib.Machine.BitField
import StudentDistrib.Kernel.Controllers

/-!
# The interrupt descriptor table

`initialize_idt` gives the handlers' addresses to some of the 256 entries and makes gates
of all but a few, some of them present.  What the processor does with an entry depends on
its fields alone, so that the table says which code runs for a vector, and a program
cannot enter the kernel but by its system call.
-/

namespace StudentDistrib

open Machine

/-! ## Entries -/

/-! `idt_desc_t` -/

namespace IdtDesc

def offset1500 : BitField := ⟨0, 16⟩
def segSelector : BitField := ⟨16, 16⟩
def reserved4 : BitField := ⟨32, 8⟩
def reserved3 : BitField := ⟨40, 1⟩
def reserved2 : BitField := ⟨41, 1⟩
def reserved1 : BitField := ⟨42, 1⟩
def size : BitField := ⟨43, 1⟩
def reserved0 : BitField := ⟨44, 1⟩
def dpl : BitField := ⟨45, 2⟩
def present : BitField := ⟨47, 1⟩
def offset3116 : BitField := ⟨48, 16⟩

/-- The fields of an entry. -/
def fields : List BitField :=
  [offset1500, segSelector, reserved4, reserved3, reserved2, reserved1, size, reserved0, dpl,
    present, offset3116]

end IdtDesc

/-- The code whose address the table is given. -/
inductive Handler
  | exception (n : Nat)
  | pit
  | keyboard
  | rtc
  | syscall
  deriving DecidableEq, Repr

namespace Handler

/-- The entry that is given the handler's address. -/
def vector : Handler → Nat
  | exception n => n
  | pit => 32
  | keyboard => 33
  | rtc => 40
  | syscall => 128

/-- Interrupts stay disabled in the handlers behind interrupt gates. -/
def disablesInterrupts : Handler → Bool
  | exception _ => false
  | _ => true

/-- The lowest privilege from which the handler can be called. -/
def dpl : Handler → Nat
  | syscall => 3
  | _ => 0

end Handler

/-! ## `initialize_idt` -/

namespace Idt

def kernelCs : Nat := 0x10
def numVec : Nat := 256

/-- `idt` as the assembler leaves it. -/
def zero : Nat → BitVec 64 := fun _ => 0

/-- The handlers in the order in which `initialize_idt` names them. -/
def handlers : List Handler :=
  ((List.range 20).filter (· ≠ 15)).map .exception ++ [.pit, .keyboard, .syscall, .rtc]

/-- `SET_IDT_ENTRY`. -/
def setIdtEntry (handler : BitVec 32) : List (BitField × Nat) := [
  (IdtDesc.offset3116, ((handler &&& 0xFFFF0000) >>> 16).toNat),
  (IdtDesc.offset1500, (handler &&& 0xFFFF).toNat)]

def trapGate : List (BitField × Nat) := [
  (IdtDesc.segSelector, kernelCs), (IdtDesc.reserved4, 0), (IdtDesc.reserved3, 1),
  (IdtDesc.reserved2, 1), (IdtDesc.reserved1, 1), (IdtDesc.reserved0, 0), (IdtDesc.size, 1),
  (IdtDesc.dpl, 0), (IdtDesc.present, 1)]

def interruptGate (i : Nat) : List (BitField × Nat) := [
  (IdtDesc.segSelector, kernelCs), (IdtDesc.reserved4, 0), (IdtDesc.reserved3, 0),
  (IdtDesc.reserved2, 1), (IdtDesc.reserved1, 1), (IdtDesc.reserved0, 0), (IdtDesc.size, 1),
  (IdtDesc.dpl, 0), (IdtDesc.present, 0)]
  ++ (if i = 128 then [(IdtDesc.dpl, 3), (IdtDesc.present, 1)] else [])
  ++ (if i = 32 then [(IdtDesc.dpl, 0), (IdtDesc.present, 1)] else [])
  ++ (if i = 33 then [(IdtDesc.dpl, 0), (IdtDesc.present, 1)] else [])
  ++ (if i = 40 then [(IdtDesc.dpl, 0), (IdtDesc.present, 1)] else [])

/-- Assignments to the entries of a list. -/
def assignAll {β : Type} (key : β → Nat) (values : β → List (BitField × Nat)) (l : List β)
    (idt : Nat → BitVec 64) : Nat → BitVec 64 :=
  l.foldl (fun idt b => Function.update idt (key b) (BitField.assign (values b) (idt (key b)))) idt

/-- The handlers' addresses, where the linker places them. -/
def setHandlers (address : Handler → BitVec 32) (idt : Nat → BitVec 64) : Nat → BitVec 64 :=
  assignAll Handler.vector (fun h => setIdtEntry (address h)) handlers idt

/-- `initialize_idt`. -/
def initializeIdt (address : Handler → BitVec 32) (idt : Nat → BitVec 64) : Nat → BitVec 64 :=
  let idt := setHandlers address idt
  let idt := assignAll id (fun _ => trapGate) ((List.range 20).filter (· ≠ 15)) idt
  assignAll id interruptGate (List.range' 32 (numVec - 32)) idt

/-! ## What the processor does with an entry -/

/-- What calls for a handler: a program's own `int`, at the program's privilege, or the
processor and the controllers. -/
inductive Cause
  | software (cpl : Nat)
  | hardware

/-- Only a program's own calls are held against the entry's privilege. -/
def Cause.allowed (dpl : Nat) : Cause → Bool
  | software cpl => decide (cpl ≤ dpl)
  | hardware => true

/-- Where the processor goes on. -/
structure Entered where
  segSelector : Nat
  eip : BitVec 32
  interruptsOff : Bool
  deriving DecidableEq

/-- The fields that make an entry an interrupt gate or a trap gate of 32 bits. -/
def gateType (e : BitVec 64) : List Nat :=
  [IdtDesc.reserved0.get e, IdtDesc.size.get e, IdtDesc.reserved1.get e, IdtDesc.reserved2.get e]

def offset (e : BitVec 64) : BitVec 32 :=
  BitVec.ofNat 16 (IdtDesc.offset3116.get e) ++ BitVec.ofNat 16 (IdtDesc.offset1500.get e)

/-- The handler that is entered, none where the processor raises a fault instead. -/
def enter (idt : Nat → BitVec 64) (cause : Cause) (v : Nat) : Option Entered :=
  if v < numVec ∧ gateType (idt v) = [0, 1, 1, 1] ∧ IdtDesc.present.get (idt v) = 1 ∧
      cause.allowed (IdtDesc.dpl.get (idt v)) = true then
    some {
      segSelector := IdtDesc.segSelector.get (idt v)
      eip := offset (idt v)
      interruptsOff := IdtDesc.reserved3.get (idt v) == 0 }
  else none

/-! ## The loops -/

section

variable {β : Type} {key : β → Nat} {values : β → List (BitField × Nat)}

theorem assignAll_of_notMem {l : List β} {v : Nat} (h : ∀ b ∈ l, key b ≠ v)
    (idt : Nat → BitVec 64) : assignAll key values l idt v = idt v := by
  induction l generalizing idt with
  | nil => rfl
  | cons b l ih =>
    have hb : v ≠ key b := fun heq => h b List.mem_cons_self heq.symm
    show assignAll key values l (Function.update idt (key b) _) v = idt v
    rw [ih fun c hc => h c (List.mem_cons_of_mem b hc), Function.update_of_ne hb]

theorem assignAll_of_mem {l : List β} (hkeys : (l.map key).Nodup) {b : β} (hb : b ∈ l)
    (idt : Nat → BitVec 64) :
    assignAll key values l idt (key b) = BitField.assign (values b) (idt (key b)) := by
  induction l generalizing idt with
  | nil => exact absurd hb List.not_mem_nil
  | cons c l ih =>
    rw [List.map_cons, List.nodup_cons] at hkeys
    show assignAll key values l (Function.update idt (key c) _) (key b) = _
    rcases List.mem_cons.mp hb with rfl | hb
    · have hrest : ∀ d ∈ l, key d ≠ key b := fun d hd heq =>
        hkeys.1 (heq ▸ List.mem_map_of_mem hd)
      rw [assignAll_of_notMem hrest, Function.update_self]
    · have hne : key b ≠ key c := fun heq => hkeys.1 (heq ▸ List.mem_map_of_mem hb)
      rw [ih hkeys.2 hb, Function.update_of_ne hne]

end

theorem nodup_handlers : (handlers.map Handler.vector).Nodup := by decide

/-! ## The entries -/

/-- The fields of an entry that was zero. -/
theorem get_assign_zero {f : BitField} (hf : f ∈ IdtDesc.fields) {l : List (BitField × Nat)}
    (hl : ∀ p ∈ l, p.1 ∈ IdtDesc.fields) :
    f.get (BitField.assign l (0 : BitVec 64)) = (l.reverse.lookup f).elim 0 (· % 2 ^ f.len) := by
  have hfits : ∀ g ∈ IdtDesc.fields, g.Fits 64 := by decide
  have hapart : ∀ f ∈ IdtDesc.fields, ∀ g ∈ IdtDesc.fields, g = f ∨ f.Apart g := by decide
  have hzero : f.get (0 : BitVec 64) = 0 := by simp [BitField.get]
  rw [BitField.get_assign_lookup (fun p hp => hfits p.1 (hl p hp))
    (fun p hp => hapart f hf p.1 (hl p hp)), hzero]

theorem offset_setIdtEntry (a : BitVec 32) :
    BitVec.ofNat 16 (((a &&& 0xFFFF0000) >>> 16).toNat % 2 ^ 16) ++
      BitVec.ofNat 16 ((a &&& 0xFFFF).toNat % 2 ^ 16) = a := by
  have hhigh : ((a &&& 0xFFFF0000) >>> 16).toNat = a.toNat / 2 ^ 16 := by
    rw [BitVec.ushiftRight_and_distrib, BitVec.toNat_and, BitVec.toNat_ushiftRight,
      Nat.shiftRight_eq_div_pow]
    exact Nat.and_two_pow_sub_one_of_lt_two_pow (n := 16) (by omega)
  have hlow : (a &&& 0xFFFF).toNat = a.toNat % 2 ^ 16 := by
    rw [BitVec.toNat_and]
    exact Nat.and_two_pow_sub_one_eq_mod a.toNat 16
  have ha := a.isLt
  refine BitVec.eq_of_toNat_eq ?_
  rw [BitVec.toNat_append, hhigh, hlow, BitVec.toNat_ofNat, BitVec.toNat_ofNat,
    ← Nat.shiftLeft_add_eq_or_of_lt (Nat.mod_lt _ (Nat.two_pow_pos 16)), Nat.shiftLeft_eq]
  omega

/-- The entry leads to the address. -/
structure LeadsTo (e : BitVec 64) (dpl : Nat) (address : BitVec 32) (off : Bool) : Prop where
  gate : gateType e = [0, 1, 1, 1]
  present : IdtDesc.present.get e = 1
  privilege : IdtDesc.dpl.get e = dpl
  selector : IdtDesc.segSelector.get e = kernelCs
  target : offset e = address
  disables : (IdtDesc.reserved3.get e == 0) = off

theorem LeadsTo.enter {idt : Nat → BitVec 64} {v dpl : Nat} {address : BitVec 32} {off : Bool}
    (h : LeadsTo (idt v) dpl address off) (hv : v < numVec) (cause : Cause) :
    enter idt cause v
      = if cause.allowed dpl = true then some ⟨kernelCs, address, off⟩ else none := by
  rw [Idt.enter, h.gate, h.present, h.privilege, h.selector, h.target, h.disables]
  simp only [hv, true_and]

/-- An entry leads to the address where the assignments leave it a gate. -/
theorem leadsTo_assign {a : BitVec 32} {values : List (BitField × Nat)} {dpl type : Nat}
    (hfields : ∀ p ∈ values, p.1 ∈ IdtDesc.fields)
    (hvalues : IdtDesc.fields.map (fun f =>
        ((setIdtEntry a ++ values).reverse.lookup f).elim 0 (· % 2 ^ f.len)) =
      [(a &&& 0xFFFF).toNat % 2 ^ 16, kernelCs, 0, type, 1, 1, 1, 0, dpl, 1,
        ((a &&& 0xFFFF0000) >>> 16).toNat % 2 ^ 16]) :
    LeadsTo (BitField.assign (setIdtEntry a ++ values) 0) dpl a (type == 0) := by
  have hread : ∀ f ∈ IdtDesc.fields, f.get (BitField.assign (setIdtEntry a ++ values) 0)
      = ((setIdtEntry a ++ values).reverse.lookup f).elim 0 (· % 2 ^ f.len) :=
    fun f hf => get_assign_zero hf (List.forall_mem_append.mpr
      ⟨by simp [setIdtEntry, IdtDesc.fields], hfields⟩)
  rw [← List.map_congr_left hread] at hvalues
  simp only [IdtDesc.fields, List.map_cons, List.cons.injEq] at hvalues
  obtain ⟨hlow, hselector, -, htype, h2, h1, hsize, h0, hdpl, hpresent, hhigh, -⟩ := hvalues
  refine ⟨?_, hpresent, hdpl, hselector, ?_, by rw [htype]⟩
  · rw [gateType, h0, hsize, h1, h2]
  · rw [offset, hhigh, hlow]
    exact offset_setIdtEntry a

theorem leadsTo_trapGate (a : BitVec 32) :
    LeadsTo (BitField.assign (setIdtEntry a ++ trapGate) 0) 0 a false := by
  have hfields : ∀ p ∈ trapGate, p.1 ∈ IdtDesc.fields := by decide
  exact leadsTo_assign hfields rfl

theorem leadsTo_interruptGate (a : BitVec 32) {v dpl : Nat}
    (hv : (v, dpl) ∈ [(32, 0), (33, 0), (40, 0), (128, 3)]) :
    LeadsTo (BitField.assign (setIdtEntry a ++ interruptGate v) 0) dpl a true := by
  have hfields : ∀ p ∈ [(32, 0), (33, 0), (40, 0), (128, 3)], ∀ q ∈ interruptGate p.1,
      q.1 ∈ IdtDesc.fields := by decide
  have hgate := hfields (v, dpl) hv
  simp only [List.mem_cons, Prod.mk.injEq, List.not_mem_nil, or_false] at hv
  rcases hv with ⟨rfl, rfl⟩ | ⟨rfl, rfl⟩ | ⟨rfl, rfl⟩ | ⟨rfl, rfl⟩ <;>
    exact leadsTo_assign hgate rfl

/-- The other interrupt gates are not present. -/
theorem present_interruptGate {v : Nat} (hv : v ∉ [32, 33, 40, 128]) :
    IdtDesc.present.get (BitField.assign (interruptGate v) (0 : BitVec 64)) = 0 := by
  simp only [List.mem_cons, List.not_mem_nil, or_false, not_or] at hv
  obtain ⟨h32, h33, h40, h128⟩ := hv
  simp only [interruptGate, if_neg h32, if_neg h33, if_neg h40, if_neg h128, List.append_nil]
  rw [get_assign_zero (by decide) (by decide)]
  rfl

/-! ## The table -/

theorem mem_handlers {h : Handler} : h ∈ handlers ↔
    (∃ n < 20, n ≠ 15 ∧ .exception n = h) ∨ h = .pit ∨ h = .keyboard ∨ h = .syscall ∨ h = .rtc := by
  simp only [handlers, List.mem_append, List.mem_map, List.mem_filter, List.mem_range,
    decide_eq_true_eq, List.mem_cons, List.not_mem_nil, or_false, and_assoc]

theorem mem_exceptions {n : Nat} : n ∈ (List.range 20).filter (· ≠ 15) ↔ n < 20 ∧ n ≠ 15 := by
  simp only [List.mem_filter, List.mem_range, decide_eq_true_eq]

theorem mem_interrupts {n : Nat} : n ∈ List.range' 32 (numVec - 32) ↔ 32 ≤ n ∧ n < numVec :=
  List.mem_range'_1

section

variable (address : Handler → BitVec 32)

theorem setHandlers_vector {h : Handler} (hh : h ∈ handlers) :
    setHandlers address zero h.vector = BitField.assign (setIdtEntry (address h)) 0 :=
  assignAll_of_mem nodup_handlers hh zero

theorem initializeIdt_exception {n : Nat} (hn : n < 20) (h15 : n ≠ 15) :
    initializeIdt address zero n
      = BitField.assign (setIdtEntry (address (.exception n)) ++ trapGate) 0 := by
  have hset : setHandlers address zero n
      = BitField.assign (setIdtEntry (address (.exception n))) 0 :=
    setHandlers_vector address (mem_handlers.mpr (Or.inl ⟨n, hn, h15, rfl⟩))
  have hloop : ∀ i ∈ List.range' 32 (numVec - 32), id i ≠ n := fun i hi heq => by
    have hle : 32 ≤ n := heq ▸ (mem_interrupts.mp hi).1
    omega
  rw [initializeIdt, assignAll_of_notMem hloop, ← BitField.assign_append, ← hset]
  exact assignAll_of_mem (by decide) (mem_exceptions.mpr ⟨hn, h15⟩) _

/-- From 32 on, an entry has the address that it was given, if any. -/
theorem initializeIdt_interrupt {v : Nat} (hv : 32 ≤ v) (hlt : v < numVec) :
    initializeIdt address zero v
      = BitField.assign (interruptGate v) (setHandlers address zero v) := by
  have hloop : ∀ i ∈ (List.range 20).filter (· ≠ 15), id i ≠ v := fun i hi heq => by
    have hi20 : v < 20 := heq ▸ (mem_exceptions.mp hi).1
    omega
  have htrap : assignAll id (fun _ => trapGate) ((List.range 20).filter (· ≠ 15))
      (setHandlers address zero) v = setHandlers address zero v := assignAll_of_notMem hloop _
  have hnodup : ((List.range' 32 (numVec - 32)).map id).Nodup := by
    rw [List.map_id]
    exact List.nodup_range'
  rw [← htrap]
  exact assignAll_of_mem hnodup (mem_interrupts.mpr ⟨hv, hlt⟩) _

theorem initializeIdt_handler {h : Handler} (hh : h ∈ handlers) :
    LeadsTo (initializeIdt address zero h.vector) h.dpl (address h) h.disablesInterrupts ∧
      h.vector < numVec := by
  have hinterrupt (hv : (h.vector, h.dpl) ∈ [(32, 0), (33, 0), (40, 0), (128, 3)]) :
      LeadsTo (initializeIdt address zero h.vector) h.dpl (address h) true ∧
        h.vector < numVec := by
    have hrange : ∀ p ∈ [(32, 0), (33, 0), (40, 0), (128, 3)], 32 ≤ p.1 ∧ p.1 < numVec := by
      decide
    obtain ⟨hle, hlt⟩ := hrange (h.vector, h.dpl) hv
    rw [initializeIdt_interrupt address hle hlt, setHandlers_vector address hh,
      BitField.assign_append]
    exact ⟨leadsTo_interruptGate (address h) hv, hlt⟩
  rcases mem_handlers.mp hh with ⟨n, hn, h15, rfl⟩ | rfl | rfl | rfl | rfl
  · refine ⟨?_, Nat.lt_of_lt_of_le hn (by decide)⟩
    show LeadsTo (initializeIdt address zero n) 0 (address (.exception n)) false
    rw [initializeIdt_exception address hn h15]
    exact leadsTo_trapGate (address (.exception n))
  all_goals exact hinterrupt (by decide)

/-- A vector without a handler is not present. -/
theorem initializeIdt_other {v : Nat} (hv : v < numVec) (hother : ∀ h ∈ handlers, h.vector ≠ v) :
    IdtDesc.present.get (initializeIdt address zero v) = 0 := by
  have hset : setHandlers address zero v = 0 := assignAll_of_notMem hother zero
  by_cases hle : 32 ≤ v
  · have hgates : ∀ i ∈ [32, 33, 40, 128], ∃ h ∈ handlers, h.vector = i := by decide
    have hgate : v ∉ [32, 33, 40, 128] := fun hmem => by
      obtain ⟨h, hh, hvector⟩ := hgates v hmem
      exact hother h hh hvector
    rw [initializeIdt_interrupt address hle hv, hset]
    exact present_interruptGate hgate
  · have htrap : ∀ i ∈ (List.range 20).filter (· ≠ 15), id i ≠ v := fun i hi heq => by
      obtain ⟨hlt, h15⟩ := mem_exceptions.mp hi
      exact hother (.exception i) (mem_handlers.mpr (Or.inl ⟨i, hlt, h15, rfl⟩)) heq
    have hloop : ∀ i ∈ List.range' 32 (numVec - 32), id i ≠ v := fun i hi heq =>
      hle (heq ▸ (mem_interrupts.mp hi).1)
    rw [initializeIdt, assignAll_of_notMem hloop, assignAll_of_notMem htrap, hset]
    simp [BitField.get]

/-- Which code runs for a vector, for which cause, and from where. -/
theorem enter_iff {cause : Cause} {v : Nat} {entered : Entered} :
    enter (initializeIdt address zero) cause v = some entered ↔
      ∃ h ∈ handlers, h.vector = v ∧ cause.allowed h.dpl = true ∧
        entered = ⟨kernelCs, address h, h.disablesInterrupts⟩ := by
  have hhandler {h : Handler} (hh : h ∈ handlers) :=
    (initializeIdt_handler address hh).1.enter (initializeIdt_handler address hh).2 cause
  constructor
  · intro hsome
    by_cases hv : ∃ h ∈ handlers, h.vector = v
    · obtain ⟨h, hh, rfl⟩ := hv
      rw [hhandler hh] at hsome
      obtain ⟨hallowed, heq⟩ := Option.ite_none_right_eq_some.mp hsome
      exact ⟨h, hh, rfl, hallowed, (Option.some.inj heq).symm⟩
    · obtain ⟨⟨hlt, -, hpresent, -⟩, -⟩ := Option.ite_none_right_eq_some.mp hsome
      rw [initializeIdt_other address hlt fun h hh heq => hv ⟨h, hh, heq⟩] at hpresent
      cases hpresent
  · rintro ⟨h, hh, rfl, hallowed, rfl⟩
    rw [hhandler hh, if_pos hallowed]

/-- A program enters the kernel through the system call and in no other way. -/
theorem enter_software (v : Nat) : enter (initializeIdt address zero) (.software 3) v
    = if v = 0x80 then some ⟨kernelCs, address .syscall, true⟩ else none := by
  refine Option.ext fun entered => (enter_iff address).trans ?_
  rw [Option.ite_none_right_eq_some]
  constructor
  · rintro ⟨h, hh, rfl, hallowed, rfl⟩
    cases h with
    | syscall => exact ⟨rfl, rfl⟩
    | _ => cases hallowed
  · rintro ⟨rfl, heq⟩
    exact ⟨.syscall, by decide, rfl, rfl, (Option.some.inj heq).symm⟩

end

/-! ## Interrupts -/

/-- The lines that `pit_init`, `keyboard_init` and `rtc_init` enable. -/
def lines : List (Fin 16) := [0, 1, 8]

/-- The handler that ends the interrupts of the line. -/
def lineHandler (irq : Fin 16) : Handler :=
  if irq = 0 then .pit else if irq = 1 then .keyboard else .rtc

theorem enabled_of_run {on : Fin 16 → Bool} {events : List LineEvent} {irq : Fin 16}
    (h : events.foldl LineEvent.apply on irq = true) :
    on irq = true ∨ LineEvent.enable irq ∈ events := by
  induction events generalizing on with
  | nil => exact Or.inl h
  | cons e events ih =>
    rcases ih h with hon | hmem
    · cases e with
      | enable i =>
        replace hon : Function.update on i true irq = true := hon
        by_cases hi : irq = i
        · exact Or.inr (hi ▸ List.mem_cons_self)
        · rw [Function.update_of_ne hi] at hon
          exact Or.inl hon
      | disable i =>
        replace hon : Function.update on i false irq = true := hon
        by_cases hi : irq = i
        · rw [hi, Function.update_self] at hon
          cases hon
        · rw [Function.update_of_ne hi] at hon
          exact Or.inl hon
      | served i => exact Or.inl hon
    · exact Or.inr (List.mem_cons_of_mem e hmem)

/-- The kernel's entries once the table and the controllers are initialized.  A request
that reaches the processor, on a line other than that of the second controller, runs the
handler of its line with interrupts disabled, whatever the kernel does with the lines it
enables.  An exception runs its own handler.  A program's `int` runs the system call for
its vector and faults for every other one. -/
theorem entries_served (address : Handler → BitVec 32) {s : Pics}
    (hserved : s.master.isr = 0 ∧ s.slave.isr = 0) {events : List LineEvent}
    (hlines : ∀ irq, LineEvent.enable irq ∈ events → irq ∈ lines) :
    let idt := initializeIdt address zero
    let s' := events.foldl Pics.apply (Pics.i8259Init s)
    (∀ irq : Fin 16, irq ≠ 2 → s'.Interrupts irq → enter idt .hardware (s'.vector irq).toNat
        = some ⟨kernelCs, address (lineHandler irq), true⟩) ∧
      (∀ n < 20, n ≠ 15 → enter idt .hardware n
        = some ⟨kernelCs, address (.exception n), false⟩) ∧
      ∀ v, enter idt (.software 3) v
        = if v = 0x80 then some ⟨kernelCs, address .syscall, true⟩ else none := by
  intro idt s'
  have hidle := (Pics.idle_i8259Init hserved).run events
  have hhandlers : ∀ irq ∈ lines, lineHandler irq ∈ handlers ∧
      (lineHandler irq).vector = (0x20 + BitVec.ofNat 8 irq).toNat ∧
      (lineHandler irq).disablesInterrupts = true := by decide
  refine ⟨fun irq hirq hrequest => ?_, fun n hn h15 => ?_, enter_software address⟩
  · obtain ⟨henabled, -⟩ := (hidle.interrupts_iff irq).mp hrequest
    have hline : irq ∈ lines := (enabled_of_run henabled).elim
      (fun h => absurd (of_decide_eq_true h) hirq) (hlines irq)
    obtain ⟨hmem, hvector, hoff⟩ := hhandlers irq hline
    rw [hidle.vector_eq irq, ← hvector, ← hoff]
    exact (enter_iff address).mpr ⟨lineHandler irq, hmem, rfl, rfl, rfl⟩
  · exact (enter_iff address).mpr
      ⟨.exception n, mem_handlers.mpr (Or.inl ⟨n, hn, h15, rfl⟩), rfl, rfl, rfl⟩

/-- The keyboard's line, with every handler at its vector in the kernel's page. -/
theorem entries_served_keyboard :
    let address : Handler → BitVec 32 := fun h => 0x400000 + BitVec.ofNat 32 (16 * h.vector)
    let s : Pics := { master := ⟨.mask, 0x08, 4, 0xB8, 0⟩, slave := ⟨.mask, 0x70, 2, 0x8E, 0⟩ }
    let s' := [LineEvent.enable 1].foldl Pics.apply (Pics.i8259Init s)
    enter (initializeIdt address zero) .hardware (s'.vector 1).toNat
      = some ⟨kernelCs, 0x400210, true⟩ := by
  intro address s s'
  have hlines : ∀ irq, LineEvent.enable irq ∈ [LineEvent.enable 1] → irq ∈ lines := by
    intro irq hmem
    cases List.mem_singleton.mp hmem
    decide
  have hidle := (Pics.idle_i8259Init (s := s) ⟨rfl, rfl⟩).run [LineEvent.enable 1]
  have hrequest : s'.Interrupts (1 : Fin 16) := (hidle.interrupts_iff 1).mpr (by decide)
  exact (entries_served address (s := s) ⟨rfl, rfl⟩ hlines).1 1 (by decide) hrequest

end Idt

end StudentDistrib
