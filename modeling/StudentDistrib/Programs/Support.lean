import StudentDistrib.Kernel.Isolation
import StudentDistrib.Files.Names
import StudentDistrib.Lib.Itoa

/-!
# User programs

The programs of `syscalls` as routines of calls.  A buffer is memory from its first byte
on, with whatever the stack held.  A loop is bounded by a number of rounds, and a program
for which that is too few has no result.
-/

namespace StudentDistrib

open Machine

namespace Programs

/-- A program, or a part of one. -/
abbrev Program (α : Type) := OptionT (Routine UserCall Answer) α

def call (c : UserCall) : Program Answer := OptionT.lift (Routine.perform c)

/-- The bytes of a string literal. -/
def text (s : String) : List UInt8 := s.toList.map fun c => c.toNat.toUInt8

def strlen (s : Bytes) : Program Nat :=
  OptionT.mk (pure ((Lib.untilNul Lib.addressSpace s).map List.length))

def write (fd : Int) (buf : List UInt8) : Program Int := do
  let a ← call (.write fd buf)
  return a.value

/-- The part of a program ends with `a` after `n` calls, where `args` are its arguments. -/
abbrev Ends {α : Type} (args : Bytes) (x : Program α) (v : Files) (n : Nat) (v' : Files)
    (a : α) : Prop :=
  Routine.Completes (Files.serve args) x.run v n v' (some a)

section Rules

variable {α β : Type} {args : Bytes} {v v' v'' : Files} {m n : Nat}

theorem Ends.bind {x : Program α} {f : α → Program β} {a : α} {b : β}
    (h : Ends args x v m v' a) (hf : Ends args (f a) v' n v'' b) :
    Ends args (x >>= f) v (m + n) v'' b := h.seq hf

/-- Characters written to the terminal. -/
def printing (v : Files) (w : List UInt8) : Files := { v with out := v.out ++ w }

end Rules

/-! ## In the kernel -/

/-- Reads of `nbytes` bytes deliver the chunks, and the one after them nothing. -/
inductive Delivers (fd nbytes : Int) : Files → List (List UInt8) → Files → Prop
  | last {v v' : Files} : v.read fd nbytes = some (v', ⟨0, []⟩) → Delivers fd nbytes v [] v'
  | next {v v₁ v' : Files} {chunk : List UInt8} {chunks : List (List UInt8)} :
    v.read fd nbytes = some (v₁, ⟨chunk.length, chunk⟩) → chunk ≠ [] →
    Delivers fd nbytes v₁ chunks v' → Delivers fd nbytes v (chunk :: chunks) v'

section Delivers

variable {fd nbytes : Int} {v v' : Files}

theorem read_printing {a : Answer} (h : v.read fd nbytes = some (v', a)) (w : List UInt8) :
    (printing v w).read fd nbytes = some (printing v' w, a) := by
  have htable : (printing v w).table = v.table := rfl
  have himg : (printing v w).img = v.img := rfl
  unfold Files.read at h ⊢
  rw [htable, himg]
  cases hopen : v.table fd with
  | none =>
    rw [hopen] at h
    dsimp only at h ⊢
    split at h
    · cases h
    · rename_i hzero
      obtain ⟨rfl, rfl⟩ := Prod.mk.inj (Option.some.inj h)
      rw [if_neg hzero]
  | some f =>
    rw [hopen] at h
    obtain ⟨⟨f', a'⟩, hread, hresult⟩ := Option.map_eq_some_iff.mp h
    obtain ⟨rfl, rfl⟩ := Prod.mk.inj hresult
    simp only [hread, Option.map_some]
    rfl

theorem Delivers.printing {chunks : List (List UInt8)} (h : Delivers fd nbytes v chunks v')
    (w : List UInt8) :
    Delivers fd nbytes (printing v w) chunks (printing v' w) := by
  induction h with
  | last hread => exact .last (read_printing hread w)
  | next hread hne _ ih => exact .next (read_printing hread w) hne ih

end Delivers

/-! ### Files -/

section Reads

variable {img : Image} {fd nbytes : Int} {v : Files} {f f' : OpenFile}

/-- What is left of a file from position `pos` on. -/
def rest (img : Image) (inode : Int) (pos : Nat) : List UInt8 :=
  img.fileBytes inode pos ((img.inodeLength inode).toNat - pos)

/-- The names of a directory from entry `i` on, up to the first empty one. -/
def names (img : Image) (i : Nat) : List (List UInt8) :=
  ((List.range' i (img.numDirectoryEntries.toNat - i)).map fun j : Nat => img.entryName j).takeWhile
    (· ≠ [])

end Reads

/-! ### Opening -/

section Opens

variable {v : Files} {fname : Bytes} {w : List UInt8}

end Opens

end Programs

end StudentDistrib
