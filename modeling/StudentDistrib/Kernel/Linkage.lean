import StudentDistrib.Machine.Stack

/-!
# System calls and interrupts between assembly and C

`syscall_handler`, the wrappers that `TranslateAssembly` makes and the ones that
`DO_CALL` makes for user programs, instruction by instruction.  The C functions are
arbitrary: a caller relies on the calling convention only, under which a function may
change its arguments on the stack.
-/

namespace StudentDistrib

open Machine

/-- The functions in `jump_table`. -/
inductive Syscall
  | halt
  | execute
  | read
  | write
  | openFile
  | closeFile
  | getargs
  | vidmap
  | setHandler
  | sigreturn
  deriving DecidableEq, Repr

/-- `jump_table`, with `none` for the null pointer. -/
def jumpTable : List (Option Syscall) := [
  none, some .halt, some .execute, some .read, some .write, some .openFile,
  some .closeFile, some .getargs, some .vidmap, some .setHandler, some .sigreturn]

/-- `SYS_HALT` to `SYS_SIGRETURN`. -/
def sysNumber : Syscall → Nat
  | .halt => 1
  | .execute => 2
  | .read => 3
  | .write => 4
  | .openFile => 5
  | .closeFile => 6
  | .getargs => 7
  | .vidmap => 8
  | .setHandler => 9
  | .sigreturn => 10

namespace Linkage

variable {c d : Cpu} {v : Word} {l rest : List Word}

/-! ## `syscall_handler` -/

/-- The pushes on entry. -/
def saveRegs (c : Cpu) : Cpu :=
  let c := c.push c.eflags
  let c := c.push c.ebp
  let c := c.push c.esi
  let c := c.push c.edi
  let c := c.push c.esp
  let c := c.push c.edx
  let c := c.push c.ecx
  c.push c.ebx

/-- The pushes of the three arguments. -/
def pushArgs (c : Cpu) : Cpu :=
  let c := c.push c.edx
  let c := c.push c.ecx
  c.push c.ebx

/-- `addl $12, %esp`. -/
def dropArgs (c : Cpu) : Cpu := { c with esp := c.esp + 12 }

/-- The pops before `iret`. -/
def restoreRegs (c : Cpu) : Cpu :=
  let c := { c.drop with ebx := c.top }
  let c := { c.drop with ecx := c.top }
  let c := { c.drop with edx := c.top }
  let c := { c with esp := c.top }
  let c := { c.drop with edi := c.top }
  let c := { c.drop with esi := c.top }
  let c := { c.drop with ebp := c.top }
  { c.drop with eflags := c.top }

/-- `syscall_handler` up to its `iret`.  `call` runs a function from its first
instruction to its return to `ret`.  The result is undefined where the indirect call
would leave the table. -/
def syscallHandler (call : Syscall → Cpu → Cpu) (ret : Word) (c : Cpu) : Option Cpu :=
  let c := pushArgs (saveRegs c)
  if c.eax.toInt ≤ 0 ∨ c.eax.toInt > 10 then
    some (restoreRegs { dropArgs c with eax := -1 })
  else
    match jumpTable[c.eax.toNat]? with
    | some (some s) => some (restoreRegs (dropArgs (call s (c.push ret))))
    | _ => none

/-- The state in which the handler enters the function that it calls. -/
def entered (ret : Word) (c : Cpu) : Cpu := (pushArgs (saveRegs c)).push ret

theorem push_short (h : c.Stacked l) (hl : l.length < 100) (v : Word) :
    (c.push v).Stacked (v :: l) := h.push (by omega) v

/-- The pushes with the values that they store. -/
theorem saveRegs_eq (c : Cpu) : saveRegs c =
    (((((((c.push c.eflags).push c.ebp).push c.esi).push c.edi).push (c.esp - 4 - 4 - 4 - 4)).push
      c.edx).push c.ecx).push c.ebx := by
  simp only [saveRegs, Cpu.push]

/-- The words that `syscall_handler` has pushed, on top of what the interrupt stored. -/
def savedWords (c : Cpu) : List Word :=
  [c.ebx, c.ecx, c.edx, c.esp - 4 - 4 - 4 - 4, c.edi, c.esi, c.ebp, c.eflags]

theorem length_savedWords (c : Cpu) (l : List Word) :
    (savedWords c ++ l).length = l.length + 8 := by
  simp only [savedWords, List.length_append, List.length_cons, List.length_nil]
  omega

theorem saveRegs_stacked (h : c.Stacked l) (hl : l.length < 50) :
    (saveRegs c).Stacked (savedWords c ++ l) := by
  have h1 := push_short h (by omega) c.eflags
  have h2 := push_short h1 (by simp only [List.length_cons]; omega) c.ebp
  have h3 := push_short h2 (by simp only [List.length_cons]; omega) c.esi
  have h4 := push_short h3 (by simp only [List.length_cons]; omega) c.edi
  have h5 := push_short h4 (by simp only [List.length_cons]; omega) (c.esp - 4 - 4 - 4 - 4)
  have h6 := push_short h5 (by simp only [List.length_cons]; omega) c.edx
  have h7 := push_short h6 (by simp only [List.length_cons]; omega) c.ecx
  rw [saveRegs_eq]
  exact push_short h7 (by simp only [List.length_cons]; omega) c.ebx

theorem saveRegs_grows {b : Cpu} {n : Nat} (h : Cpu.Grows b c n) :
    Cpu.Grows b (saveRegs c) (n + 8) := by
  rw [saveRegs_eq]
  exact (((((((h.push _).push _).push _).push _).push _).push _).push _).push _

theorem pushArgs_eq (c : Cpu) : pushArgs c = ((c.push c.edx).push c.ecx).push c.ebx := by
  simp only [pushArgs, Cpu.push]

theorem pushArgs_stacked (h : c.Stacked l) (hl : l.length < 70) :
    (pushArgs c).Stacked (c.ebx :: c.ecx :: c.edx :: l) := by
  have h1 := push_short h (by omega) c.edx
  have h2 := push_short h1 (by simp only [List.length_cons]; omega) c.ecx
  rw [pushArgs_eq]
  exact push_short h2 (by simp only [List.length_cons]; omega) c.ebx

/-- The pops undo the pushes where the saved words are still there. -/
theorem restoreRegs_eq {ebx ecx edx edi esi ebp eflags : Word}
    (h : d.Stacked (ebx :: ecx :: edx :: (d.esp + 4 + 4 + 4 + 4) :: edi :: esi :: ebp :: eflags :: l)) :
    restoreRegs d =
      { d with ebx, ecx, edx, edi, esi, ebp, eflags, esp := d.esp + 4 + 4 + 4 + 4 + 4 + 4 + 4 + 4 } := by
  simp only [Cpu.Stacked, holdsWords_cons] at h
  obtain ⟨hbx, hcx, hdx, hsp, hdi, hsi, hbp, hflags, -⟩ := h
  simp only [restoreRegs, Cpu.drop, Cpu.top, hbx, hcx, hdx, hsp, hdi, hsi, hbp, hflags]

theorem saveRegs_esp (c : Cpu) : (saveRegs c).esp = c.esp - 4 - 4 - 4 - 4 - 4 - 4 - 4 - 4 := by
  simp only [saveRegs_eq, Cpu.push]

/-- The registers come back from the words that were saved. -/
theorem restoreRegs_saved (hesp : d.esp = (saveRegs c).esp)
    (hmem : HoldsWords d.mem (saveRegs c).esp (savedWords c ++ l)) :
    restoreRegs d = { c with
      eax := d.eax, eip := d.eip, cs := d.cs, ss := d.ss, mem := d.mem } := by
  have hslot : c.esp - 4 - 4 - 4 - 4 = d.esp + 4 + 4 + 4 + 4 := by
    rw [hesp, saveRegs_esp]
    simp only [BitVec.sub_add_cancel]
  have hback : d.esp + 4 + 4 + 4 + 4 + 4 + 4 + 4 + 4 = c.esp := by
    rw [← hslot]
    simp only [BitVec.sub_add_cancel]
  rw [← hesp, savedWords, hslot] at hmem
  rw [restoreRegs_eq hmem, hback]

/-- What the interrupt stored is above the saved registers. -/
theorem holdsWords_above {mem : Word → Word}
    (h : HoldsWords mem (saveRegs c).esp (savedWords c ++ l)) : HoldsWords mem c.esp l := by
  simp only [savedWords, List.cons_append, List.nil_append, holdsWords_cons] at h
  have hesp : (saveRegs c).esp + 4 + 4 + 4 + 4 + 4 + 4 + 4 + 4 = c.esp := by
    rw [saveRegs_esp]
    simp only [BitVec.sub_add_cancel]
  rw [hesp] at h
  exact h.2.2.2.2.2.2.2.2

/-! ### The number in `%eax` -/

theorem sysNumber_selects (s : Syscall) :
    ¬ ((BitVec.ofNat 32 (sysNumber s)).toInt ≤ 0 ∨ (BitVec.ofNat 32 (sysNumber s)).toInt > 10) ∧
      jumpTable[(BitVec.ofNat 32 (sysNumber s)).toNat]? = some (some s) := by
  cases s <;> decide

/-- The comparisons let the ten numbers through and nothing else. -/
theorem selects_iff (n : Word) :
    ¬ (n.toInt ≤ 0 ∨ n.toInt > 10) ↔ ∃ s, n = BitVec.ofNat 32 (sysNumber s) := by
  constructor
  · intro h
    have hlt := n.isLt
    have hrange : 1 ≤ n.toNat ∧ n.toNat ≤ 10 := by
      rw [BitVec.toInt_eq_toNat_cond] at h
      split at h
      · omega
      · omega
    have hnum : ∃ s, sysNumber s = n.toNat := by
      obtain e | e | e | e | e | e | e | e | e | e : n.toNat = 1 ∨ n.toNat = 2 ∨ n.toNat = 3 ∨
        n.toNat = 4 ∨ n.toNat = 5 ∨ n.toNat = 6 ∨ n.toNat = 7 ∨ n.toNat = 8 ∨ n.toNat = 9 ∨
        n.toNat = 10 := by omega
      · exact ⟨.halt, e.symm⟩
      · exact ⟨.execute, e.symm⟩
      · exact ⟨.read, e.symm⟩
      · exact ⟨.write, e.symm⟩
      · exact ⟨.openFile, e.symm⟩
      · exact ⟨.closeFile, e.symm⟩
      · exact ⟨.getargs, e.symm⟩
      · exact ⟨.vidmap, e.symm⟩
      · exact ⟨.setHandler, e.symm⟩
      · exact ⟨.sigreturn, e.symm⟩
    obtain ⟨s, hs⟩ := hnum
    exact ⟨s, by rw [hs, BitVec.ofNat_toNat, BitVec.setWidth_eq]⟩
  · intro ⟨s, hs⟩
    rw [hs]
    exact (sysNumber_selects s).1

/-! ### The handler's two paths -/

variable {call : Syscall → Cpu → Cpu} {ret : Word}

/-- The words above a function's arguments: what the handler and the interrupt stored. -/
def callerWords (c : Cpu) (l : List Word) : Word → Prop :=
  WordsFrom (saveRegs c).esp (l.length + 8)

/-- The arguments on top of the saved registers. -/
theorem pushArgs_saved (h : c.Stacked l) (hl : l.length < 50) :
    (pushArgs (saveRegs c)).Stacked (c.ebx :: c.ecx :: c.edx :: (savedWords c ++ l)) := by
  have hlength := length_savedWords c l
  have hargs := pushArgs_stacked (saveRegs_stacked h hl) (by omega)
  simp only [saveRegs, Cpu.push] at hargs ⊢
  exact hargs

/-- The function finds its return address and the caller's three registers. -/
theorem entered_stacked (h : c.Stacked l) (hl : l.length < 50) (ret : Word) :
    (entered ret c).Stacked (ret :: c.ebx :: c.ecx :: c.edx :: (savedWords c ++ l)) := by
  have hlength := length_savedWords c l
  exact push_short (pushArgs_saved h hl) (by simp only [List.length_cons]; omega) ret

theorem three_words (a : Word) : a - 4 - 4 - 4 + 12 = a := by
  have hsplit : (12 : Word) = 4 + (4 + 4) := by decide
  rw [hsplit, ← BitVec.add_assoc, ← BitVec.add_assoc]
  simp only [BitVec.sub_add_cancel]

/-- A function that comes back has left the saved words. -/
theorem saved_returned {mem : Word → Word} (h : c.Stacked l) (hl : l.length < 50)
    (hkept : ∀ a, callerWords c l a → mem a = (entered ret c).mem a) :
    HoldsWords mem (saveRegs c).esp (savedWords c ++ l) := by
  have hframe := (entered_stacked h hl ret).drop.drop.drop.drop
  have hbase : (entered ret c).drop.drop.drop.drop.esp = (saveRegs c).esp := by
    simp only [entered, pushArgs_eq, Cpu.push, Cpu.drop, BitVec.sub_add_cancel]
  have hmem : (entered ret c).drop.drop.drop.drop.mem = (entered ret c).mem := rfl
  rw [Cpu.Stacked, hbase, hmem] at hframe
  exact hframe.kept (Nat.le_of_eq (length_savedWords c l)) hkept

/-- The arguments pushed are below the saved words. -/
theorem saved_pushArgs (h : c.Stacked l) (hl : l.length < 50) :
    HoldsWords (pushArgs (saveRegs c)).mem (saveRegs c).esp (savedWords c ++ l) := by
  have hframe := (pushArgs_saved h hl).drop.drop.drop
  have hbase : (pushArgs (saveRegs c)).drop.drop.drop.esp = (saveRegs c).esp := by
    simp only [pushArgs_eq, Cpu.push, Cpu.drop, BitVec.sub_add_cancel]
  rw [Cpu.Stacked, hbase] at hframe
  exact hframe

/-- A call that returns. -/
theorem syscallHandler_calls {s : Syscall} (hnum : c.eax = BitVec.ofNat 32 (sysNumber s))
    (h : c.Stacked l) (hl : l.length < 50)
    (hret : Cpu.Returns (call s) (entered ret c) (callerWords c l)) :
    syscallHandler call ret c = some { c with
      eax := (call s (entered ret c)).eax
      eip := (call s (entered ret c)).eip
      mem := (call s (entered ret c)).mem } := by
  obtain ⟨hbound, hentry⟩ := sysNumber_selects s
  have heax : (pushArgs (saveRegs c)).eax = BitVec.ofNat 32 (sysNumber s) := by
    simp only [pushArgs, saveRegs, Cpu.push, hnum]
  have hesp : (dropArgs (call s (entered ret c))).esp = (saveRegs c).esp := by
    show (call s (entered ret c)).esp + 12 = (saveRegs c).esp
    rw [hret.esp]
    simp only [entered, pushArgs_eq, Cpu.push, BitVec.sub_add_cancel, three_words]
  have hsegments : (entered ret c).cs = c.cs ∧ (entered ret c).ss = c.ss := by
    simp only [entered, pushArgs, saveRegs, Cpu.push, and_self]
  have hrestored := restoreRegs_saved (d := dropArgs (call s (entered ret c))) hesp
    (saved_returned h hl hret.mem)
  simp only [syscallHandler, heax]
  rw [if_neg hbound, hentry]
  refine congrArg some (hrestored.trans ?_)
  simp only [dropArgs, hret.cs, hret.ss, hsegments]

/-- A number that is out of bounds. -/
theorem syscallHandler_refuses (hnum : ∀ s, c.eax ≠ BitVec.ofNat 32 (sysNumber s))
    (h : c.Stacked l) (hl : l.length < 50) (call : Syscall → Cpu → Cpu) (ret : Word) :
    syscallHandler call ret c = some { c with eax := -1, mem := (pushArgs (saveRegs c)).mem } := by
  have hbound : c.eax.toInt ≤ 0 ∨ c.eax.toInt > 10 := by
    by_contra hin
    obtain ⟨s, hs⟩ := (selects_iff c.eax).mp hin
    exact hnum s hs
  have hesp : (dropArgs (pushArgs (saveRegs c))).esp = (saveRegs c).esp := by
    simp only [dropArgs, pushArgs_eq, Cpu.push, three_words]
  have hrestored := restoreRegs_saved (d := { dropArgs (pushArgs (saveRegs c)) with eax := -1 })
    hesp (saved_pushArgs h hl)
  have hregs : (pushArgs (saveRegs c)).eax = c.eax ∧ (pushArgs (saveRegs c)).eip = c.eip ∧
      (pushArgs (saveRegs c)).cs = c.cs ∧ (pushArgs (saveRegs c)).ss = c.ss := by
    simp only [pushArgs, saveRegs, Cpu.push, and_self]
  simp only [syscallHandler, hregs.1]
  rw [if_pos hbound]
  refine congrArg some (hrestored.trans ?_)
  simp only [dropArgs, hregs]

/-! ## `int $0x80` -/

/-- The handler through its gate, and its `iret`. -/
def int0x80 (call : Syscall → Cpu → Cpu) (ret : Word) (tss : Cpu.KernelStack) (gate : Cpu.Gate)
    (next : Word) (c : Cpu) : Option Cpu :=
  (syscallHandler call ret (c.interrupt tss gate next)).map Cpu.iret

/-- The interrupt undone where its words are still there. -/
theorem int0x80_eq {call : Syscall → Cpu → Cpu} {tss : Cpu.KernelStack} {gate : Cpu.Gate}
    {next a p : Word} {m : Word → Word}
    (h : syscallHandler call ret (c.interrupt tss gate next) =
      some { c.interrupt tss gate next with eax := a, eip := p, mem := m })
    (hframe : HoldsWords m (c.interrupt tss gate next).esp (c.frame gate next)) :
    int0x80 call ret tss gate next c = some { c with eip := next, eax := a, mem := m } := by
  obtain ⟨-, hebx, hecx, hedx, hesi, hedi, hebp, hcs⟩ := Cpu.interrupt_regs tss gate next c
  have hiret := Cpu.interrupt_iret tss gate next c
    (d := { c.interrupt tss gate next with eax := a, eip := p, mem := m }) hframe rfl hcs rfl
  rw [int0x80, h, Option.map_some, hiret]
  simp only [hebx, hecx, hedx, hesi, hedi, hebp]

section Call

variable {call : Syscall → Cpu → Cpu} {tss : Cpu.KernelStack} {gate : Cpu.Gate} {next : Word}

/-- The function's arguments, and the state in which the caller goes on. -/
theorem int0x80_calls {s : Syscall} (hnum : c.eax = BitVec.ofNat 32 (sysNumber s))
    (hret : Cpu.Returns (call s) (entered ret (c.interrupt tss gate next))
      (callerWords (c.interrupt tss gate next) (c.frame gate next))) :
    (∃ rest, (entered ret (c.interrupt tss gate next)).Stacked
      (ret :: c.ebx :: c.ecx :: c.edx :: rest)) ∧
    int0x80 call ret tss gate next c = some { c with
      eip := next
      eax := (call s (entered ret (c.interrupt tss gate next))).eax
      mem := (call s (entered ret (c.interrupt tss gate next))).mem } := by
  have hstacked := Cpu.interrupt_stacked tss gate next c
  have hlength := Cpu.length_frame gate next c
  have hshort : (c.frame gate next).length < 50 := by omega
  obtain ⟨heax, hebx, hecx, hedx, -⟩ := Cpu.interrupt_regs tss gate next c
  have hentered := entered_stacked hstacked hshort ret
  rw [hebx, hecx, hedx] at hentered
  refine ⟨⟨_, hentered⟩, ?_⟩
  exact int0x80_eq (syscallHandler_calls (heax.trans hnum) hstacked hshort hret)
    (holdsWords_above (saved_returned hstacked hshort hret.mem))

/-- Up to the call only words of the kernel stack are written. -/
theorem entered_mem (ret : Word) (tss : Cpu.KernelStack) (gate : Cpu.Gate) (next : Word) (c : Cpu)
    {a : Word} (ha : ¬ WordsFrom (entered ret (c.interrupt tss gate next)).esp
      ((c.frame gate next).length + 12) a) :
    (entered ret (c.interrupt tss gate next)).mem a = c.mem a := by
  obtain ⟨b, hb, hframed⟩ := Cpu.interrupt_grows tss gate next c
  have hgrows : Cpu.Grows b (entered ret (c.interrupt tss gate next))
      ((c.frame gate next).length + 12) := by
    rw [entered, pushArgs_eq]
    exact ((((saveRegs_grows hframed).push _).push _).push _).push _
  rw [hgrows.mem a ha, hb]

end Call

/-- A system call, for every state of the caller and all functions: with one of the ten
numbers in `%eax` the handler calls that function on `%ebx`, `%ecx` and `%edx`, and the
caller goes on with the function's result in `%eax` and every other register as it was.
With any other number it goes on with -1, no function is called and only words of the
kernel stack have changed. -/
theorem syscall_links (call : Syscall → Cpu → Cpu) (ret : Word) (tss : Cpu.KernelStack)
    (gate : Cpu.Gate) (next : Word) (c : Cpu) :
    (∀ s, c.eax = BitVec.ofNat 32 (sysNumber s) →
      Cpu.Returns (call s) (entered ret (c.interrupt tss gate next))
        (callerWords (c.interrupt tss gate next) (c.frame gate next)) →
      (∃ rest, (entered ret (c.interrupt tss gate next)).Stacked
        (ret :: c.ebx :: c.ecx :: c.edx :: rest)) ∧
      int0x80 call ret tss gate next c = some { c with
        eip := next
        eax := (call s (entered ret (c.interrupt tss gate next))).eax
        mem := (call s (entered ret (c.interrupt tss gate next))).mem }) ∧
    ((∀ s, c.eax ≠ BitVec.ofNat 32 (sysNumber s)) →
      ∃ mem, int0x80 call ret tss gate next c = some { c with eip := next, eax := -1, mem } ∧
        ∀ a, ¬ WordsFrom (pushArgs (saveRegs (c.interrupt tss gate next))).esp
            ((c.frame gate next).length + 11) a → mem a = c.mem a) := by
  refine ⟨fun s hnum hret => int0x80_calls hnum hret, fun hnum => ?_⟩
  have hstacked := Cpu.interrupt_stacked tss gate next c
  have hlength := Cpu.length_frame gate next c
  have hshort : (c.frame gate next).length < 50 := by omega
  obtain ⟨heax, -⟩ := Cpu.interrupt_regs tss gate next c
  obtain ⟨b, hb, hframed⟩ := Cpu.interrupt_grows tss gate next c
  have hgrows : Cpu.Grows b (pushArgs (saveRegs (c.interrupt tss gate next)))
      ((c.frame gate next).length + 11) := by
    rw [pushArgs_eq]
    exact (((saveRegs_grows hframed).push _).push _).push _
  refine ⟨_, int0x80_eq (p := (c.interrupt tss gate next).eip) (syscallHandler_refuses
    (fun s => heax ▸ hnum s) hstacked hshort call ret) ?_,
    fun a ha => (hgrows.mem a ha).trans (congrFun hb a)⟩
  exact holdsWords_above (saved_pushArgs hstacked hshort)

/-- A program at level 3 that is about to read. -/
def reader : Cpu where
  eax := 3
  ebx := 0
  ecx := 0x8050000
  edx := 128
  esi := 0
  edi := 0
  ebp := 0
  esp := 0x83FFFF0
  eflags := 0x202
  eip := 0x8048100
  cs := 0x23
  ss := 0x2B
  mem := fun _ => 0

/-- The gate of `int $0x80`, and the stack of the first process. -/
def systemGate : Cpu.Gate := ⟨0x10, 0x400600, id⟩

def firstStack : Cpu.KernelStack := ⟨0x18, 0x7FFFFC⟩

/-- A function that finds seven bytes. -/
def sevenBytes (_ : Syscall) (c : Cpu) : Cpu := { c with eax := 7, esp := c.esp + 4 }

theorem sevenBytes_returns (s : Syscall) (c : Cpu) (kept : Word → Prop) :
    Cpu.Returns (sevenBytes s) c kept :=
  ⟨rfl, rfl, rfl, rfl, rfl, rfl, rfl, fun _ _ => rfl⟩

theorem syscall_links_read : ∃ mem,
    int0x80 sevenBytes 0x400620 firstStack systemGate 0x8048102 reader =
      some { reader with eip := 0x8048102, eax := 7, mem } := by
  obtain ⟨hcall, -⟩ :=
    syscall_links sevenBytes 0x400620 firstStack systemGate 0x8048102 reader
  obtain ⟨-, hafter⟩ := hcall .read rfl (sevenBytes_returns ..)
  exact ⟨_, hafter⟩

/-! ## The library's wrappers -/

/-- `DO_CALL`, with `kernel` for what `int $0x80` does. -/
def doCall (number : Nat) (kernel : Cpu → Option Cpu) (c : Cpu) : Option Cpu :=
  let c := c.push c.ebx
  let c := { c with eax := BitVec.ofNat 32 number }
  let c := { c with ebx := c.mem (c.esp + 8) }
  let c := { c with ecx := c.mem (c.esp + 12) }
  let c := { c with edx := c.mem (c.esp + 16) }
  (kernel c).map fun c =>
    let c := { c.drop with ebx := c.top }
    { c.drop with eip := c.top }

/-- The state in which a wrapper executes `int $0x80`. -/
def trapping (number : Nat) (a₁ a₂ a₃ : Word) (c : Cpu) : Cpu :=
  { c.push c.ebx with
    eax := BitVec.ofNat 32 number, ebx := a₁, ecx := a₂, edx := a₃ }

/-- The wrapper's moves load the three arguments that its caller pushed. -/
theorem doCall_trapping {number : Nat} {kernel : Cpu → Option Cpu} {back a₁ a₂ a₃ : Word}
    (h : c.Stacked (back :: a₁ :: a₂ :: a₃ :: rest)) (hl : rest.length < 50) :
    doCall number kernel c = (kernel (trapping number a₁ a₂ a₃ c)).map fun c =>
      { c.drop.drop with ebx := c.top, eip := c.drop.top } := by
  have hpushed := push_short h (by simp only [List.length_cons]; omega) c.ebx
  simp only [Cpu.Stacked, holdsWords_cons] at hpushed
  obtain ⟨-, -, h₁, h₂, h₃, -⟩ := hpushed
  have h8 : (c.push c.ebx).esp + 8 = (c.push c.ebx).esp + 4 + 4 := by
    rw [BitVec.add_assoc]
    rfl
  have h12 : (c.push c.ebx).esp + 12 = (c.push c.ebx).esp + 4 + 4 + 4 := by
    rw [BitVec.add_assoc, BitVec.add_assoc]
    rfl
  have h16 : (c.push c.ebx).esp + 16 = (c.push c.ebx).esp + 4 + 4 + 4 + 4 := by
    rw [BitVec.add_assoc, BitVec.add_assoc, BitVec.add_assoc]
    rfl
  simp only [doCall, trapping, h8, h12, h16, h₁, h₂, h₃, Cpu.drop, Cpu.top]

/-- The two words that a wrapper needs again: the register that it pushed and its return
address. -/
def wrapperWords (c : Cpu) : Word → Prop := WordsFrom (c.esp - 4) 2

/-- A library function, from its entry to its return: the kernel's function runs on the
three arguments, its result is the value returned, and the caller's registers, its stack
pointer and its flags are as after any C function.  The kernel's stack may lie anywhere
but on the wrapper's two words. -/
theorem library_call {call : Syscall → Cpu → Cpu} {tss : Cpu.KernelStack} {gate : Cpu.Gate}
    {next back a₁ a₂ a₃ : Word} (s : Syscall) (h : c.Stacked (back :: a₁ :: a₂ :: a₃ :: rest))
    (hl : rest.length < 50)
    (happart : ∀ a, wrapperWords c a →
      ¬ WordsFrom (entered ret ((trapping (sysNumber s) a₁ a₂ a₃ c).interrupt tss gate next)).esp
        (((trapping (sysNumber s) a₁ a₂ a₃ c).frame gate next).length + 12) a)
    (hret : Cpu.Returns (call s)
      (entered ret ((trapping (sysNumber s) a₁ a₂ a₃ c).interrupt tss gate next))
      fun a => callerWords ((trapping (sysNumber s) a₁ a₂ a₃ c).interrupt tss gate next)
        ((trapping (sysNumber s) a₁ a₂ a₃ c).frame gate next) a ∨ wrapperWords c a) :
    (∃ above, (entered ret ((trapping (sysNumber s) a₁ a₂ a₃ c).interrupt tss gate next)).Stacked
      (ret :: a₁ :: a₂ :: a₃ :: above)) ∧
    doCall (sysNumber s) (int0x80 call ret tss gate next) c = some { c with
      eip := back
      esp := c.esp + 4
      eax := (call s (entered ret
        ((trapping (sysNumber s) a₁ a₂ a₃ c).interrupt tss gate next))).eax
      ecx := a₂
      edx := a₃
      mem := (call s (entered ret
        ((trapping (sysNumber s) a₁ a₂ a₃ c).interrupt tss gate next))).mem } := by
  obtain ⟨hargs, hcall⟩ := int0x80_calls (c := trapping (sysNumber s) a₁ a₂ a₃ c) rfl
    (hret.mono fun a ha => Or.inl ha)
  refine ⟨hargs, ?_⟩
  rw [doCall_trapping h hl, hcall, Option.map_some]
  generalize hentered : entered ret ((trapping (sysNumber s) a₁ a₂ a₃ c).interrupt tss gate next)
    = e at happart hret
  -- The two words are those that the wrapper left on the user's stack.
  have hpushed : (c.push c.ebx).Stacked (c.ebx :: back :: a₁ :: a₂ :: a₃ :: rest) :=
    push_short h (by simp only [List.length_cons]; omega) c.ebx
  have hkept : ∀ a, wrapperWords c a → (call s e).mem a = (c.push c.ebx).mem a := by
    intro a ha
    rw [hret.mem a (Or.inr ha), ← hentered, entered_mem ret tss gate next _ (hentered ▸ happart a ha)]
    rfl
  have hbase : WordsFrom (c.esp - 4) 2 (c.esp - 4) := ⟨0, by omega, by simp⟩
  have hnext : WordsFrom (c.esp - 4) 2 (c.esp - 4 + 4) := ⟨1, by omega, rfl⟩
  have hebx : (call s e).mem (c.esp - 4) = c.ebx := (hkept _ hbase).trans hpushed.top
  have hback : (call s e).mem (c.esp - 4 + 4) = back := (hkept _ hnext).trans hpushed.drop.top
  simp only [trapping, Cpu.push, Cpu.drop, Cpu.top, hebx, BitVec.sub_add_cancel] at hback ⊢
  rw [hback]

/-- The program where it has called the library's `read` for descriptor 2. -/
def libraryReader : Cpu :=
  { reader with
    ebx := 0x1111
    esi := 0x2222
    edi := 0x3333
    ebp := 0x83FFFF8
    mem := fun a =>
      if a = 0x83FFFF0 then 0x8048200
      else if a = 0x83FFFF4 then 2
      else if a = 0x83FFFF8 then 0x8050000
      else if a = 0x83FFFFC then 128
      else 0 }

theorem libraryReader_stacked : libraryReader.Stacked [0x8048200, 2, 0x8050000, 128] := by
  simp only [Cpu.Stacked, holdsWords_cons]
  exact ⟨by decide, by decide, by decide, by decide, holdsWords_nil _ _⟩

theorem library_call_read : ∃ mem,
    doCall 3 (int0x80 sevenBytes 0x400620 firstStack systemGate 0x8048102) libraryReader =
      some { libraryReader with
        eip := 0x8048200, esp := 0x83FFFF4, eax := 7, ecx := 0x8050000, edx := 128, mem } := by
  have hapart : ∀ a, wrapperWords libraryReader a → ¬ WordsFrom (entered 0x400620
      ((trapping 3 2 0x8050000 128 libraryReader).interrupt firstStack systemGate
        0x8048102)).esp 17 a := by
    rintro a ⟨i, hi, rfl⟩ ⟨j, hj, heq⟩
    have hesp : (entered 0x400620 ((trapping 3 2 0x8050000 128 libraryReader).interrupt firstStack
        systemGate 0x8048102)).esp = 0x7FFFB8 := rfl
    have hbase : libraryReader.esp - 4 = 0x83FFFEC := rfl
    rw [hesp, hbase] at heq
    have hnat := congrArg BitVec.toNat heq
    simp only [BitVec.toNat_add, BitVec.ofNat_eq_ofNat, BitVec.toNat_ofNat] at hnat
    omega
  obtain ⟨-, hafter⟩ := library_call .read libraryReader_stacked (by decide) hapart
    (sevenBytes_returns .read _ _)
  exact ⟨_, hafter⟩

end Linkage

end StudentDistrib
