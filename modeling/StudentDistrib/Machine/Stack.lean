import Mathlib.Data.BitVec
import Mathlib.Logic.Function.Basic

/-!
# The stack of an IA-32 processor

The integer registers and the words of memory, with the instructions that move values
between them through `%esp`.  The stack is read as a list: a push puts a word in front
of it, a pop takes the first one off.  Addresses wrap around, so that a push is sound
while the stack does not fill memory.  All accesses are a multiple of four bytes from
each other.
-/

namespace Machine

abbrev Word := BitVec 32

/-! ## Words in memory -/

/-- The words from address `a` on are those of the list. -/
def HoldsWords (mem : Word → Word) (a : Word) (l : List Word) : Prop :=
  ∀ (i : Nat) (h : i < l.length), mem (a + BitVec.ofNat 32 (4 * i)) = l[i]

section Words

variable {mem mem' : Word → Word} {a v : Word} {l l' : List Word}

theorem holdsWords_nil (mem : Word → Word) (a : Word) : HoldsWords mem a [] :=
  fun _ h => absurd h (Nat.not_lt_zero _)

theorem next_word (a : Word) (i : Nat) :
    a + 4 + BitVec.ofNat 32 (4 * i) = a + BitVec.ofNat 32 (4 * (i + 1)) := by
  rw [BitVec.add_assoc]
  congr 1
  apply BitVec.eq_of_toNat_eq
  simp
  omega

theorem holdsWords_cons :
    HoldsWords mem a (v :: l) ↔ mem a = v ∧ HoldsWords mem (a + 4) l := by
  constructor
  · intro h
    constructor
    · have hfirst := h 0 (Nat.succ_pos _)
      simpa using hfirst
    · intro i hi
      rw [next_word]
      exact h (i + 1) (Nat.succ_lt_succ hi)
  · intro h i hi
    obtain ⟨hfirst, hrest⟩ := h
    cases i with
    | zero => simpa using hfirst
    | succ i =>
      rw [← next_word]
      exact hrest i (Nat.lt_of_succ_lt_succ hi)

/-- Words that are left alone. -/
theorem HoldsWords.of_eq (h : HoldsWords mem a l)
    (heq : ∀ i < l.length, mem' (a + BitVec.ofNat 32 (4 * i)) = mem (a + BitVec.ofNat 32 (4 * i))) :
    HoldsWords mem' a l := by
  intro i hi
  rw [heq i hi]
  exact h i hi

/-- A word stored in front. -/
theorem HoldsWords.push (h : HoldsWords mem a l) (hl : l.length < 2 ^ 29) (v : Word) :
    HoldsWords (Function.update mem (a - 4) v) (a - 4) (v :: l) := by
  have ha : a - 4 + 4 = a := BitVec.sub_add_cancel a 4
  rw [holdsWords_cons, ha]
  refine ⟨Function.update_self .., h.of_eq fun i hi => Function.update_of_ne ?_ _ _⟩
  -- The list does not reach around memory to the new word.
  intro heq
  have hmod := congrArg BitVec.toNat heq
  rw [BitVec.toNat_add, BitVec.toNat_sub, BitVec.toNat_ofNat] at hmod
  have hfour : (4 : Word).toNat = 4 := rfl
  have hlt := a.isLt
  rw [hfour] at hmod
  omega

/-- The addresses of `n` words from `a` on. -/
def WordsFrom (a : Word) (n : Nat) (b : Word) : Prop := ∃ i < n, b = a + BitVec.ofNat 32 (4 * i)

theorem HoldsWords.kept (h : HoldsWords mem a l) {n : Nat} (hn : l.length ≤ n)
    (hkept : ∀ b, WordsFrom a n b → mem' b = mem b) : HoldsWords mem' a l :=
  h.of_eq fun i hi => hkept _ ⟨i, Nat.lt_of_lt_of_le hi hn, rfl⟩

end Words

/-! ## The processor -/

@[ext]
structure Cpu where
  eax : Word
  ebx : Word
  ecx : Word
  edx : Word
  esi : Word
  edi : Word
  ebp : Word
  esp : Word
  eflags : Word
  eip : Word
  cs : Word
  ss : Word
  mem : Word → Word

namespace Cpu

variable {c : Cpu} {v : Word} {l : List Word}

/-- The word at `%esp`. -/
def top (c : Cpu) : Word := c.mem c.esp

/-- `pushl`. -/
def push (v : Word) (c : Cpu) : Cpu :=
  { c with esp := c.esp - 4, mem := Function.update c.mem (c.esp - 4) v }

/-- `addl $4, %esp`.  A pop assigns `top` to its register as well. -/
def drop (c : Cpu) : Cpu := { c with esp := c.esp + 4 }

/-- The words of the list are on top of the stack. -/
def Stacked (c : Cpu) (l : List Word) : Prop := HoldsWords c.mem c.esp l

theorem Stacked.push (h : c.Stacked l) (hl : l.length < 2 ^ 29) (v : Word) :
    (c.push v).Stacked (v :: l) := HoldsWords.push h hl v

theorem Stacked.top (h : c.Stacked (v :: l)) : c.top = v := (holdsWords_cons.mp h).1

theorem Stacked.drop (h : c.Stacked (v :: l)) : c.drop.Stacked l := (holdsWords_cons.mp h).2

/-- Other registers than `%esp` do not move the stack. -/
theorem Stacked.of_eq {c' : Cpu} (h : c.Stacked l) (hesp : c'.esp = c.esp) (hmem : c'.mem = c.mem) :
    c'.Stacked l := by
  unfold Stacked
  rw [hesp, hmem]
  exact h

/-- `d` is `c` with `n` words pushed: memory elsewhere is unchanged. -/
structure Grows (c d : Cpu) (n : Nat) : Prop where
  esp : d.esp + BitVec.ofNat 32 (4 * n) = c.esp
  mem : ∀ a, ¬ WordsFrom d.esp n a → d.mem a = c.mem a

theorem Grows.refl (c : Cpu) : Grows c c 0 where
  esp := by simp
  mem := fun _ _ => rfl

theorem Grows.push {d : Cpu} {n : Nat} (h : Grows c d n) (v : Word) :
    Grows c (d.push v) (n + 1) where
  esp := by
    show d.esp - 4 + BitVec.ofNat 32 (4 * (n + 1)) = c.esp
    rw [← next_word, BitVec.sub_add_cancel, h.esp]
  mem := by
    intro a ha
    have hne : a ≠ d.esp - 4 := fun e => ha ⟨0, Nat.succ_pos n, by simp [e, Cpu.push]⟩
    have hout : ¬ WordsFrom d.esp n a := by
      intro ⟨i, hi, hai⟩
      refine ha ⟨i + 1, Nat.succ_lt_succ hi, ?_⟩
      show a = d.esp - 4 + BitVec.ofNat 32 (4 * (i + 1))
      rw [← next_word, BitVec.sub_add_cancel, hai]
    show Function.update d.mem (d.esp - 4) v a = c.mem a
    rw [Function.update_of_ne hne, h.mem a hout]

/-- Other registers than `%esp` do not count. -/
theorem Grows.of_eq {d d' : Cpu} {n : Nat} (h : Grows c d n) (hesp : d'.esp = d.esp)
    (hmem : d'.mem = d.mem) : Grows c d' n where
  esp := by rw [hesp, h.esp]
  mem := by
    rw [hesp, hmem]
    exact h.mem

/-! ## Interrupts -/

/-- The privilege level in a code segment selector. -/
def level (cs : Word) : Nat := cs.toNat % 4

/-- Where a gate leads, and what entering through it makes of the flags. -/
structure Gate where
  cs : Word
  eip : Word
  flags : Word → Word

/-- The stack that the task state segment names for the kernel. -/
structure KernelStack where
  ss : Word
  esp : Word

/-- An interrupt through a gate, with `next` the instruction to return to.  Code of
another privilege level is left with its stack. -/
def interrupt (tss : KernelStack) (gate : Gate) (next : Word) (c : Cpu) : Cpu :=
  let framed :=
    if level c.cs = level gate.cs then c
    else ({ c with esp := tss.esp, ss := tss.ss }.push c.ss).push c.esp
  { ((framed.push c.eflags).push c.cs).push next with
    cs := gate.cs, eip := gate.eip, eflags := gate.flags c.eflags }

/-- `iret`. -/
def iret (c : Cpu) : Cpu :=
  let eip := c.top
  let cs := c.drop.top
  let eflags := c.drop.drop.top
  let popped := c.drop.drop.drop
  if level cs = level c.cs then { popped with eip, cs, eflags }
  else { popped with eip, cs, eflags, esp := popped.top, ss := popped.drop.top }

/-- The words that an interrupt stores, from the last one. -/
def frame (gate : Gate) (next : Word) (c : Cpu) : List Word :=
  if level c.cs = level gate.cs then [next, c.cs, c.eflags] else [next, c.cs, c.eflags, c.esp, c.ss]

theorem length_frame (gate : Gate) (next : Word) (c : Cpu) : (c.frame gate next).length ≤ 5 := by
  unfold frame
  split <;> simp

theorem interrupt_stacked (tss : KernelStack) (gate : Gate) (next : Word) (c : Cpu) :
    (c.interrupt tss gate next).Stacked (c.frame gate next) := by
  have hthree : ∀ (d : Cpu) (l : List Word), d.Stacked l → l.length ≤ 2 →
      (((d.push c.eflags).push c.cs).push next).Stacked (next :: c.cs :: c.eflags :: l) := by
    intro d l h hl
    refine ((h.push ?_ _).push ?_ _).push ?_ _
    · omega
    · rw [List.length_cons]
      omega
    · rw [List.length_cons, List.length_cons]
      omega
  unfold interrupt frame
  by_cases hlevel : level c.cs = level gate.cs
  · rw [if_pos hlevel, if_pos hlevel]
    exact hthree c [] (holdsWords_nil _ _) (by simp)
  · rw [if_neg hlevel, if_neg hlevel]
    have hempty : ({ c with esp := tss.esp, ss := tss.ss } : Cpu).Stacked [] := holdsWords_nil _ _
    refine hthree _ [c.esp, c.ss] ((hempty.push ?_ _).push ?_ _) (by simp)
    · simp
    · simp

/-- The registers that an interrupt leaves alone. -/
theorem interrupt_regs (tss : KernelStack) (gate : Gate) (next : Word) (c : Cpu) :
    (c.interrupt tss gate next).eax = c.eax ∧ (c.interrupt tss gate next).ebx = c.ebx ∧
      (c.interrupt tss gate next).ecx = c.ecx ∧ (c.interrupt tss gate next).edx = c.edx ∧
      (c.interrupt tss gate next).esi = c.esi ∧ (c.interrupt tss gate next).edi = c.edi ∧
      (c.interrupt tss gate next).ebp = c.ebp ∧ (c.interrupt tss gate next).cs = gate.cs := by
  unfold interrupt
  split <;> simp only [push, and_self]

/-- An interrupt writes its frame and nothing else. -/
theorem interrupt_grows (tss : KernelStack) (gate : Gate) (next : Word) (c : Cpu) :
    ∃ b : Cpu, b.mem = c.mem ∧ Grows b (c.interrupt tss gate next) (c.frame gate next).length := by
  unfold interrupt frame
  by_cases hlevel : level c.cs = level gate.cs
  · rw [if_pos hlevel, if_pos hlevel]
    have hgrows := (((Grows.refl c).push c.eflags).push c.cs).push next
    exact ⟨c, rfl, hgrows.of_eq rfl rfl⟩
  · rw [if_neg hlevel, if_neg hlevel]
    have hgrows := (((((Grows.refl { c with esp := tss.esp, ss := tss.ss }).push c.ss).push
      c.esp).push c.eflags).push c.cs).push next
    exact ⟨{ c with esp := tss.esp, ss := tss.ss }, rfl, hgrows.of_eq rfl rfl⟩

/-- What `iret` takes off the stack is what the interrupt put there. -/
theorem interrupt_iret (tss : KernelStack) (gate : Gate) (next : Word) (c : Cpu) {d : Cpu}
    (h : d.Stacked (c.frame gate next)) (hesp : d.esp = (c.interrupt tss gate next).esp)
    (hcs : d.cs = gate.cs) (hss : d.ss = (c.interrupt tss gate next).ss) :
    d.iret = { d with eip := next, cs := c.cs, eflags := c.eflags, esp := c.esp, ss := c.ss } := by
  unfold frame at h
  by_cases hlevel : level c.cs = level gate.cs
  · rw [if_pos hlevel] at h
    have hback : level c.cs = level d.cs := hcs ▸ hlevel
    have hpopped : d.esp + 4 + 4 + 4 = c.esp := by
      have hframe : (c.interrupt tss gate next).esp = c.esp - 4 - 4 - 4 := by
        unfold interrupt
        rw [if_pos hlevel]
        rfl
      rw [hesp, hframe]
      simp only [BitVec.sub_add_cancel]
    have hstack : d.ss = c.ss := by
      rw [hss]
      unfold interrupt
      rw [if_pos hlevel]
      rfl
    unfold iret
    rw [h.top, h.drop.top, h.drop.drop.top]
    dsimp only
    rw [if_pos hback, ← hpopped, ← hstack]
    rfl
  · rw [if_neg hlevel] at h
    have hback : ¬ level c.cs = level d.cs := fun e => hlevel (e.trans (congrArg level hcs))
    unfold iret
    dsimp only
    rw [h.top, h.drop.top, h.drop.drop.top, h.drop.drop.drop.top, h.drop.drop.drop.drop.top,
      if_neg hback]
    rfl

/-! ## Calls -/

/-- A function entered at `c` comes back to its caller: it takes its return address off,
keeps the registers that belong to the caller and the words that `kept` names. -/
structure Returns (f : Cpu → Cpu) (c : Cpu) (kept : Word → Prop) : Prop where
  esp : (f c).esp = c.esp + 4
  ebx : (f c).ebx = c.ebx
  esi : (f c).esi = c.esi
  edi : (f c).edi = c.edi
  ebp : (f c).ebp = c.ebp
  cs : (f c).cs = c.cs
  ss : (f c).ss = c.ss
  mem : ∀ a, kept a → (f c).mem a = c.mem a

theorem Returns.mono {f : Cpu → Cpu} {kept kept' : Word → Prop} (h : Returns f c kept)
    (hsub : ∀ a, kept' a → kept a) : Returns f c kept' :=
  { h with mem := fun a ha => h.mem a (hsub a ha) }

end Cpu

end Machine
