import StudentDistrib.Kernel.Linkage

/-!
# Interrupts

The wrappers that `TranslateAssembly` makes, and a program that they interrupt between
any two of its instructions.
-/

namespace StudentDistrib

open Machine

namespace Linkage

variable {c d : Cpu} {l : List Word}

/-! ## `TranslateAssembly` -/

/-- `PUSHAL`. -/
def pushal (c : Cpu) : Cpu :=
  (((((((c.push c.eax).push c.ecx).push c.edx).push c.ebx).push c.esp).push c.ebp).push
    c.esi).push c.edi

/-- `POPAL`, which skips the stack pointer. -/
def popal (c : Cpu) : Cpu :=
  let c := { c.drop with edi := c.top }
  let c := { c.drop with esi := c.top }
  let c := { c.drop with ebp := c.top }
  let c := c.drop
  let c := { c.drop with ebx := c.top }
  let c := { c.drop with edx := c.top }
  let c := { c.drop with ecx := c.top }
  { c.drop with eax := c.top }

/-- A wrapper around `handler`, up to its `iret`. -/
def translateAssembly (handler : Cpu → Cpu) (ret : Word) (c : Cpu) : Cpu :=
  let c := pushal c
  let c := c.push c.eflags
  let c := handler (c.push ret)
  popal { c.drop with eflags := c.top }

/-- The registers on the stack, with the flags on top. -/
def savedAll (c : Cpu) : List Word :=
  [c.eflags, c.edi, c.esi, c.ebp, c.esp, c.ebx, c.edx, c.ecx, c.eax]

/-- The state in which a wrapper enters its handler. -/
def translatedEntry (ret : Word) (c : Cpu) : Cpu := ((pushal c).push c.eflags).push ret

theorem pushal_stacked (h : c.Stacked l) (hl : l.length < 50) :
    ((pushal c).push c.eflags).Stacked (savedAll c ++ l) := by
  have h1 := push_short h (by omega) c.eax
  have h2 := push_short h1 (by simp only [List.length_cons]; omega) c.ecx
  have h3 := push_short h2 (by simp only [List.length_cons]; omega) c.edx
  have h4 := push_short h3 (by simp only [List.length_cons]; omega) c.ebx
  have h5 := push_short h4 (by simp only [List.length_cons]; omega) c.esp
  have h6 := push_short h5 (by simp only [List.length_cons]; omega) c.ebp
  have h7 := push_short h6 (by simp only [List.length_cons]; omega) c.esi
  have h8 := push_short h7 (by simp only [List.length_cons]; omega) c.edi
  exact push_short h8 (by simp only [List.length_cons]; omega) c.eflags

theorem translatedEntry_grows {b : Cpu} {n : Nat} (h : Cpu.Grows b c n) (ret : Word) :
    Cpu.Grows b (translatedEntry ret c) (n + 10) :=
  (((((((((h.push _).push _).push _).push _).push _).push _).push _).push _).push _).push _

/-- The pops undo the pushes where the saved words are still there. -/
theorem popal_eq {eax ebx ecx edx edi esi ebp esp eflags : Word}
    (h : d.Stacked (eflags :: edi :: esi :: ebp :: esp :: ebx :: edx :: ecx :: eax :: l)) :
    popal { d.drop with eflags := d.top } = { d with
      eax, ebx, ecx, edx, edi, esi, ebp, eflags,
      esp := d.esp + 4 + 4 + 4 + 4 + 4 + 4 + 4 + 4 + 4 } := by
  simp only [Cpu.Stacked, holdsWords_cons] at h
  obtain ⟨hflags, hdi, hsi, hbp, -, hbx, hdx, hcx, hax, -⟩ := h
  simp only [popal, Cpu.drop, Cpu.top, hflags, hdi, hsi, hbp, hbx, hdx, hcx, hax]

/-- The words above the handler's return address. -/
def interruptedWords (c : Cpu) (l : List Word) : Word → Prop :=
  WordsFrom ((pushal c).push c.eflags).esp (l.length + 9)

theorem pushal_esp (c : Cpu) : ((pushal c).push c.eflags).esp =
    c.esp - 4 - 4 - 4 - 4 - 4 - 4 - 4 - 4 - 4 := rfl

/-- A handler that comes back has left the saved words. -/
theorem savedAll_returned {mem : Word → Word} {ret : Word} (h : c.Stacked l) (hl : l.length < 50)
    (hkept : ∀ a, interruptedWords c l a → mem a = (translatedEntry ret c).mem a) :
    HoldsWords mem ((pushal c).push c.eflags).esp (savedAll c ++ l) := by
  have hstacked := pushal_stacked h hl
  have hlength : (savedAll c ++ l).length ≤ l.length + 9 := by
    simp only [savedAll, List.length_append, List.length_cons, List.length_nil]
    omega
  have hentry := push_short hstacked (by omega) ret
  have hframe := hentry.drop
  rw [Cpu.Stacked] at hframe
  have hbase : (((pushal c).push c.eflags).push ret).drop.esp = ((pushal c).push c.eflags).esp := by
    simp only [Cpu.push, Cpu.drop, BitVec.sub_add_cancel]
  rw [hbase] at hframe
  exact hframe.kept hlength hkept

variable {handler : Cpu → Cpu} {ret : Word}

/-- A wrapper restores the registers that its handler clobbers. -/
theorem translateAssembly_returns (h : c.Stacked l) (hl : l.length < 50)
    (hret : Cpu.Returns handler (translatedEntry ret c) (interruptedWords c l)) :
    translateAssembly handler ret c = { c with
      eip := (handler (translatedEntry ret c)).eip
      mem := (handler (translatedEntry ret c)).mem } ∧
    HoldsWords (handler (translatedEntry ret c)).mem c.esp l := by
  have hsaved := savedAll_returned h hl hret.mem
  have hesp : (handler (translatedEntry ret c)).esp = ((pushal c).push c.eflags).esp := by
    rw [hret.esp]
    simp only [translatedEntry, Cpu.push, BitVec.sub_add_cancel]
  have hback : ((pushal c).push c.eflags).esp + 4 + 4 + 4 + 4 + 4 + 4 + 4 + 4 + 4 = c.esp := by
    rw [pushal_esp]
    simp only [BitVec.sub_add_cancel]
  constructor
  · have hstacked : (handler (translatedEntry ret c)).Stacked (savedAll c ++ l) := by
      rw [Cpu.Stacked, hesp]
      exact hsaved
    simp only [savedAll, List.cons_append, List.nil_append] at hstacked
    have hpopped := popal_eq hstacked
    have hsegments : (translatedEntry ret c).cs = c.cs ∧ (translatedEntry ret c).ss = c.ss := by
      simp only [translatedEntry, pushal, Cpu.push, and_self]
    rw [hesp, hback, hret.cs, hret.ss, hsegments.1, hsegments.2] at hpopped
    have hwrapper : translateAssembly handler ret c =
        popal { (handler (translatedEntry ret c)).drop with
          eflags := (handler (translatedEntry ret c)).top } := by
      simp only [translateAssembly, translatedEntry, pushal, Cpu.push]
    rw [hwrapper, hpopped]
  · simp only [savedAll, List.cons_append, List.nil_append, holdsWords_cons, hback] at hsaved
    exact hsaved.2.2.2.2.2.2.2.2.2

/-! ## A program under interrupts -/

/-- An interrupt: its gate, the handler behind the wrapper there, and the wrapper's return
address. -/
structure Interrupt where
  gate : Cpu.Gate
  handler : Cpu → Cpu
  ret : Word

/-- From the instruction boundary at which the interrupt comes in to the one at which the
program goes on. -/
def Interrupt.service (i : Interrupt) (tss : Cpu.KernelStack) (c : Cpu) : Cpu :=
  (translateAssembly i.handler i.ret (c.interrupt tss i.gate c.eip)).iret

/-- The handler's entry. -/
def Interrupt.entry (i : Interrupt) (tss : Cpu.KernelStack) (c : Cpu) : Cpu :=
  translatedEntry i.ret (c.interrupt tss i.gate c.eip)

/-- An interrupt whose handler comes back changes memory only. -/
theorem Interrupt.service_eq {i : Interrupt} {tss : Cpu.KernelStack} (c : Cpu)
    (hret : Cpu.Returns i.handler (i.entry tss c)
      (interruptedWords (c.interrupt tss i.gate c.eip) (c.frame i.gate c.eip))) :
    i.service tss c = { c with mem := (i.handler (i.entry tss c)).mem } := by
  have hlength := Cpu.length_frame i.gate c.eip c
  obtain ⟨hregs, hframe⟩ := translateAssembly_returns
    (Cpu.interrupt_stacked tss i.gate c.eip c) (by omega) hret
  obtain ⟨heax, hebx, hecx, hedx, hesi, hedi, hebp, hcs⟩ :=
    Cpu.interrupt_regs tss i.gate c.eip c
  have hiret := Cpu.interrupt_iret tss i.gate c.eip c
    (d := { c.interrupt tss i.gate c.eip with
      eip := (i.handler (i.entry tss c)).eip, mem := (i.handler (i.entry tss c)).mem })
    hframe rfl hcs rfl
  rw [Interrupt.service, hregs]
  refine hiret.trans ?_
  simp only [heax, hebx, hecx, hedx, hesi, hedi, hebp]

/-- `d` is `c` but for memory that is not the program's. -/
structure Agree (own : Word → Prop) (c d : Cpu) : Prop where
  regs : d = { c with mem := d.mem }
  mem : ∀ a, own a → d.mem a = c.mem a

theorem Agree.refl (own : Word → Prop) (c : Cpu) : Agree own c c := ⟨rfl, fun _ _ => rfl⟩

theorem Agree.cs {own : Word → Prop} (h : Agree own c d) : d.cs = c.cs := by rw [h.regs]

/-- A program's instructions: they depend on the registers and on its own words, and they
stay at its privilege level. -/
structure Program (own : Word → Prop) where
  step : Cpu → Cpu
  respects : ∀ c d, Agree own c d → Agree own (step c) (step d)
  level : ∀ c, Cpu.level (step c).cs = Cpu.level c.cs

/-- What the processor does next. -/
inductive Tick
  | instruction
  | interrupt (i : Interrupt)

/-- The program's run under interrupts. -/
def Program.run {own : Word → Prop} (p : Program own) (tss : Cpu.KernelStack) : List Tick → Cpu → Cpu
  | [], c => c
  | .instruction :: ticks, c => p.run tss ticks (p.step c)
  | .interrupt i :: ticks, c => p.run tss ticks (i.service tss c)

/-- The instructions among them. -/
def instructions : List Tick → Nat
  | [] => 0
  | .instruction :: ticks => instructions ticks + 1
  | .interrupt _ :: ticks => instructions ticks

/-- A handler at another level than the program's, which comes back and leaves the
program's words. -/
structure Interrupt.Serves (i : Interrupt) (tss : Cpu.KernelStack) (own : Word → Prop)
    (level : Nat) : Prop where
  outside : Cpu.level i.gate.cs ≠ level
  returns : ∀ c, Cpu.level c.cs = level → Cpu.Returns i.handler (i.entry tss c) fun a =>
    interruptedWords (c.interrupt tss i.gate c.eip) (c.frame i.gate c.eip) a ∨ own a

section Transparent

variable {own : Word → Prop} {tss : Cpu.KernelStack} {level : Nat}

/-- The words that an interrupt from another level and its wrapper push. -/
theorem Interrupt.entry_mem (i : Interrupt) (hlevel : Cpu.level i.gate.cs ≠ Cpu.level c.cs)
    {a : Word} (ha : ¬ WordsFrom (tss.esp - 60) 15 a) : (i.entry tss c).mem a = c.mem a := by
  obtain ⟨b, hb, hframed⟩ := Cpu.interrupt_grows tss i.gate c.eip c
  have hgrows := translatedEntry_grows hframed i.ret
  have hlength : (c.frame i.gate c.eip).length = 5 := by
    rw [Cpu.frame, if_neg (Ne.symm hlevel)]
    rfl
  have hframe : (c.interrupt tss i.gate c.eip).esp = tss.esp - 4 - 4 - 4 - 4 - 4 := by
    rw [Cpu.interrupt, if_neg (Ne.symm hlevel)]
    rfl
  have hesp : (translatedEntry i.ret (c.interrupt tss i.gate c.eip)).esp = tss.esp - 60 := by
    show ((pushal (c.interrupt tss i.gate c.eip)).push _).esp - 4 = _
    rw [pushal_esp, hframe]
    simp only [BitVec.sub_eq_add_neg, BitVec.add_assoc]
    rfl
  rw [hlength] at hgrows
  rw [Interrupt.entry, hgrows.mem a (by rw [hesp]; exact ha), hb]

/-- One interrupt. -/
theorem Interrupt.Serves.agree {i : Interrupt} (hi : i.Serves tss own level)
    (hown : ∀ a, own a → ¬ WordsFrom (tss.esp - 60) 15 a) (h : Agree own c d)
    (hc : Cpu.level c.cs = level) : Agree own c (i.service tss d) := by
  have hd : Cpu.level d.cs = level := by rw [h.cs, hc]
  have hret := hi.returns d hd
  rw [Interrupt.service_eq d (hret.mono fun a ha => Or.inl ha)]
  constructor
  · dsimp only
    rw [h.regs]
  · intro a ha
    dsimp only
    rw [hret.mem a (Or.inr ha), i.entry_mem (hd.symm ▸ hi.outside) (hown a ha), h.mem a ha]

/-- The run from any state that the program cannot tell from the one without interrupts. -/
theorem Program.run_agree (p : Program own) (hown : ∀ a, own a → ¬ WordsFrom (tss.esp - 60) 15 a)
    (ticks : List Tick) (hserves : ∀ i, Tick.interrupt i ∈ ticks → i.Serves tss own level)
    (h : Agree own c d) (hc : Cpu.level c.cs = level) :
    Agree own (p.step^[instructions ticks] c) (p.run tss ticks d) := by
  induction ticks generalizing c d with
  | nil => exact h
  | cons tick ticks ih =>
    have hrest : ∀ i, Tick.interrupt i ∈ ticks → i.Serves tss own level :=
      fun i hi => hserves i (List.mem_cons_of_mem _ hi)
    cases tick with
    | instruction =>
      have hlevel : Cpu.level (p.step c).cs = level := by rw [p.level, hc]
      exact ih hrest (p.respects c d h) hlevel
    | interrupt i =>
      have hi : i.Serves tss own level := hserves i List.mem_cons_self
      exact ih hrest (hi.agree hown h hc) hc

/-- Interrupts do not show: whatever interrupts come in and between whichever instructions,
the program goes through the same registers, flags and words of its own as alone. -/
theorem interrupts_transparent (p : Program own)
    (hown : ∀ a, own a → ¬ WordsFrom (tss.esp - 60) 15 a) (ticks : List Tick)
    (hserves : ∀ i, Tick.interrupt i ∈ ticks → i.Serves tss own (Cpu.level c.cs)) :
    Agree own (p.step^[instructions ticks] c) (p.run tss ticks c) :=
  p.run_agree hown ticks hserves (Agree.refl own c) rfl

/-- A program that counts in `%eax`, with one word of its own. -/
def counter : Program (fun a => a = 0x83FFFF0) where
  step := fun c => { c with eax := c.eax + 1, eip := c.eip + 1 }
  respects := fun c d h => ⟨by rw [h.regs], h.mem⟩
  level := fun _ => rfl

/-- A handler that uses `%eax` and `%ecx`. -/
def clobbering : Interrupt :=
  ⟨systemGate, fun c => { c with eax := 0, ecx := 0, esp := c.esp + 4 }, 0x400700⟩

theorem interrupts_transparent_counter :
    Agree (fun a => a = 0x83FFFF0) (counter.step^[2] reader)
      (counter.run firstStack [.instruction, .interrupt clobbering, .instruction] reader) := by
  refine interrupts_transparent counter ?_
    [.instruction, .interrupt clobbering, .instruction] ?_
  · rintro a rfl ⟨i, hi, heq⟩
    have hbase : firstStack.esp - 60 = 0x7FFFC0 := rfl
    rw [hbase] at heq
    have hnat := congrArg BitVec.toNat heq
    simp only [BitVec.toNat_add, BitVec.ofNat_eq_ofNat, BitVec.toNat_ofNat] at hnat
    omega
  · intro i hi
    have heq : i = clobbering := by simpa using hi
    rw [heq]
    exact ⟨by decide, fun _ _ => ⟨rfl, rfl, rfl, rfl, rfl, rfl, rfl, fun _ _ => rfl⟩⟩

end Transparent

end Linkage

end StudentDistrib
