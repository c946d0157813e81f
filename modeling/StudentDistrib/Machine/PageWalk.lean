import StudentDistrib.Machine.BitField
import Mathlib.Logic.Function.Basic

/-!
# The page walk of IA-32

A virtual address is translated through a directory and, unless its entry maps a
page of 4 MB, through a page table.  Physical memory is a sequence of 32-bit words
by word number, in which both kinds of tables lie, so that a store into a table is
a store like any other.  Supervisor code ignores the read/write bits, since `CR0.WP`
is clear.
-/

namespace Machine

/-- Physical memory: the word at address `4 * i`, for each `i`. -/
abbrev Words := Nat → BitVec 32

/-- The control registers that select and enable a translation. -/
structure Control where
  cr0 : BitVec 32
  cr3 : BitVec 32
  cr4 : BitVec 32

/-- Where a virtual address leads, and whether user code and its stores may. -/
structure Mapping where
  phys : Nat
  user : Bool
  writable : Bool
  deriving DecidableEq, Repr

/-! ## What the hardware reads -/

namespace PageEntry

def present : BitField := ⟨0, 1⟩
def writable : BitField := ⟨1, 1⟩
def user : BitField := ⟨2, 1⟩
/-- The entry maps a page of 4 MB. -/
def large : BitField := ⟨7, 1⟩
def frame : BitField := ⟨12, 20⟩
/-- Bits that must be clear where the entry maps a page of 4 MB. -/
def largeReserved : BitField := ⟨13, 9⟩
def largeFrame : BitField := ⟨22, 10⟩

end PageEntry

namespace Control

/-- `CR0.PG`. -/
def paging : BitField := ⟨31, 1⟩
/-- `CR4.PSE`. -/
def pageSizeExtension : BitField := ⟨4, 1⟩
/-- The directory's frame in `CR3`. -/
def directory : BitField := ⟨12, 20⟩

end Control

def flag {w : Nat} (f : BitField) (x : BitVec w) : Bool := f.get x = 1

open PageEntry in
/-- The walk through the directory at `dir`, or `none` for a page fault. -/
def walk (pse : Bool) (dir : Nat) (mem : Words) (va : BitVec 32) : Option Mapping :=
  let pde := mem (dir * 1024 + va.toNat / 2 ^ 22)
  if !flag present pde then none
  else if pse && flag large pde then
    if largeReserved.get pde ≠ 0 then none
    else some
      { phys := largeFrame.get pde * 2 ^ 22 + va.toNat % 2 ^ 22
        user := flag user pde
        writable := flag writable pde }
  else
    let pte := mem (frame.get pde * 1024 + va.toNat / 2 ^ 12 % 1024)
    if !flag present pte then none
    else some
      { phys := frame.get pte * 2 ^ 12 + va.toNat % 2 ^ 12
        user := flag user pde && flag user pte
        writable := flag writable pde && flag writable pte }

/-- The translation that the control registers select.  Without paging a virtual
address is a physical one. -/
def translated (c : Control) (mem : Words) (va : BitVec 32) : Option Mapping :=
  if flag Control.paging c.cr0 then
    walk (flag Control.pageSizeExtension c.cr4) (Control.directory.get c.cr3) mem va
  else some { phys := va.toNat, user := true, writable := true }

/-! ## The three outcomes of a walk -/

section Walk

variable {dir : Nat} {mem : Words} {va : BitVec 32}

/-- A directory entry that maps a page of 4 MB, as the walk reads it. -/
structure Large (pde : BitVec 32) (f : Nat) (user writable : Bool) : Prop where
  present : PageEntry.present.get pde = 1
  large : PageEntry.large.get pde = 1
  reserved : PageEntry.largeReserved.get pde = 0
  frame : PageEntry.largeFrame.get pde = f
  user : flag PageEntry.user pde = user
  writable : flag PageEntry.writable pde = writable

/-- A directory entry that names a page table, or an entry of one. -/
structure Small (entry : BitVec 32) (f : Nat) (user writable : Bool) : Prop where
  present : PageEntry.present.get entry = 1
  frame : PageEntry.frame.get entry = f
  user : flag PageEntry.user entry = user
  writable : flag PageEntry.writable entry = writable

theorem walk_absent {pse : Bool} (h : PageEntry.present.get (mem (dir * 1024 + va.toNat / 2 ^ 22)) = 0) :
    walk pse dir mem va = none := by
  simp only [walk, flag, h, Nat.zero_ne_one, decide_false, Bool.not_false, ↓reduceIte]

theorem walk_large {f : Nat} {user writable : Bool}
    (h : Large (mem (dir * 1024 + va.toNat / 2 ^ 22)) f user writable) :
    walk true dir mem va = some
      { phys := f * 2 ^ 22 + va.toNat % 2 ^ 22, user := user, writable := writable } := by
  have hpresent : flag PageEntry.present (mem (dir * 1024 + va.toNat / 2 ^ 22)) = true :=
    decide_eq_true h.present
  have hlarge : flag PageEntry.large (mem (dir * 1024 + va.toNat / 2 ^ 22)) = true :=
    decide_eq_true h.large
  simp only [walk, hpresent, hlarge, h.reserved, h.frame, h.user, h.writable, Bool.not_true,
    Bool.false_eq_true, ↓reduceIte, Bool.and_self, ne_eq, not_true_eq_false]

variable {pse : Bool} {table : Nat} {dirUser dirWritable : Bool}

theorem walk_table_absent
    (hdir : Small (mem (dir * 1024 + va.toNat / 2 ^ 22)) table dirUser dirWritable)
    (hlarge : PageEntry.large.get (mem (dir * 1024 + va.toNat / 2 ^ 22)) = 0)
    (h : PageEntry.present.get (mem (table * 1024 + va.toNat / 2 ^ 12 % 1024)) = 0) :
    walk pse dir mem va = none := by
  have hpresent : flag PageEntry.present (mem (dir * 1024 + va.toNat / 2 ^ 22)) = true :=
    decide_eq_true hdir.present
  have hsmall : flag PageEntry.large (mem (dir * 1024 + va.toNat / 2 ^ 22)) = false :=
    decide_eq_false (by rw [hlarge]; exact Nat.zero_ne_one)
  have habsent : flag PageEntry.present (mem (table * 1024 + va.toNat / 2 ^ 12 % 1024)) = false :=
    decide_eq_false (by rw [h]; exact Nat.zero_ne_one)
  simp only [walk, hpresent, hsmall, hdir.frame, habsent, Bool.not_true, Bool.false_eq_true,
    ↓reduceIte, Bool.and_false, Bool.not_false]

theorem walk_small {f : Nat} {user writable : Bool}
    (hdir : Small (mem (dir * 1024 + va.toNat / 2 ^ 22)) table dirUser dirWritable)
    (hlarge : PageEntry.large.get (mem (dir * 1024 + va.toNat / 2 ^ 22)) = 0)
    (h : Small (mem (table * 1024 + va.toNat / 2 ^ 12 % 1024)) f user writable) :
    walk pse dir mem va = some
      { phys := f * 2 ^ 12 + va.toNat % 2 ^ 12
        user := dirUser && user
        writable := dirWritable && writable } := by
  have hpresent : flag PageEntry.present (mem (dir * 1024 + va.toNat / 2 ^ 22)) = true :=
    decide_eq_true hdir.present
  have hsmall : flag PageEntry.large (mem (dir * 1024 + va.toNat / 2 ^ 22)) = false :=
    decide_eq_false (by rw [hlarge]; exact Nat.zero_ne_one)
  have hentry : flag PageEntry.present (mem (table * 1024 + va.toNat / 2 ^ 12 % 1024)) = true :=
    decide_eq_true h.present
  simp only [walk, hpresent, hsmall, hdir.frame, hdir.user, hdir.writable, hentry, h.frame, h.user,
    h.writable, Bool.not_true, Bool.false_eq_true, ↓reduceIte, Bool.and_false]

end Walk

/-! ## Tables in memory -/

/-- Fields assigned in the word at `i`. -/
def assignAt (l : List (BitField × Nat)) (i : Nat) (mem : Words) : Words :=
  Function.update mem i (BitField.assign l (mem i))

/-- A loop over the entries of a table, each of which it changes by itself. -/
theorem foldl_entries {step : Words → Nat → Words} {base : Nat} {entry : Nat → BitVec 32 → BitVec 32}
    (hstep : ∀ mem i, step mem i = Function.update mem (base + i) (entry i (mem (base + i))))
    (n : Nat) (mem : Words) (a : Nat) :
    (List.range n).foldl step mem a =
      if base ≤ a ∧ a < base + n then entry (a - base) (mem a) else mem a := by
  induction n with
  | zero =>
    rw [if_neg (by omega)]
    rfl
  | succ n ih =>
    rw [List.range_succ, List.foldl_append, List.foldl_cons, List.foldl_nil, hstep]
    by_cases ha : a = base + n
    · rw [ha, Function.update_self, if_pos (by omega), Nat.add_sub_cancel_left]
      -- The iterations before this one have left its entry alone.
      congr 1
      rw [← ha, ih, if_neg (by omega)]
    · rw [Function.update_of_ne ha, ih]
      by_cases hin : base ≤ a ∧ a < base + n
      · rw [if_pos hin, if_pos (by omega)]
      · rw [if_neg hin, if_neg (by omega)]

end Machine
