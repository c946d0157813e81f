import StudentDistrib.Basic
import StudentDistrib.Machine.PageWalk

/-!
# The page tables

The entries of `paging.h` and the loops of `paging_init` over the three arrays in
physical memory.  The kernel's page maps addresses to themselves, so that the arrays'
addresses in `page_directory[i].KB.pt_address` and in `CR3` are physical ones.  After
`paging_init` the kernel changes the address field of three entries and nothing else.
-/

namespace StudentDistrib

open Machine

/-! ## Entries -/

/-! `pd_entryKB_t` -/

namespace PdEntryKB

def present : BitField := ⟨0, 1⟩
def readWrite : BitField := ⟨1, 1⟩
def userSupervisor : BitField := ⟨2, 1⟩
def writeThrough : BitField := ⟨3, 1⟩
def cacheDisabled : BitField := ⟨4, 1⟩
def accessed : BitField := ⟨5, 1⟩
def reserved1 : BitField := ⟨6, 1⟩
def ps : BitField := ⟨7, 1⟩
def globalPage : BitField := ⟨8, 1⟩
def avl : BitField := ⟨9, 3⟩
def ptAddress : BitField := ⟨12, 20⟩

end PdEntryKB

/-! `pd_entryMB_t` -/

namespace PdEntryMB

def present : BitField := ⟨0, 1⟩
def readWrite : BitField := ⟨1, 1⟩
def userSupervisor : BitField := ⟨2, 1⟩
def writeThrough : BitField := ⟨3, 1⟩
def cacheDisabled : BitField := ⟨4, 1⟩
def accessed : BitField := ⟨5, 1⟩
def dirty : BitField := ⟨6, 1⟩
def ps : BitField := ⟨7, 1⟩
def globalPage : BitField := ⟨8, 1⟩
def avl : BitField := ⟨9, 3⟩
def pageTableAttributeIndex : BitField := ⟨12, 1⟩
def reserved : BitField := ⟨13, 9⟩
def ptAddress : BitField := ⟨22, 10⟩

end PdEntryMB

/-! `pt_entry_t` -/

namespace PtEntry

def present : BitField := ⟨0, 1⟩
def readWrite : BitField := ⟨1, 1⟩
def userSupervisor : BitField := ⟨2, 1⟩
def writeThrough : BitField := ⟨3, 1⟩
def cacheDisabled : BitField := ⟨4, 1⟩
def accessed : BitField := ⟨5, 1⟩
def dirty : BitField := ⟨6, 1⟩
def pageTableAttributeIndex : BitField := ⟨7, 1⟩
def globalPage : BitField := ⟨8, 1⟩
def avl : BitField := ⟨9, 3⟩
def pAddress : BitField := ⟨12, 20⟩

end PtEntry

/-! ## `paging_init` -/

/-- The physical frames of the three arrays, as the linker places them within the
kernel's page. -/
structure Layout where
  pageDirectory : Nat
  pageTable : Nat
  videoPageTable : Nat
  inKernel : ∀ f ∈ [pageDirectory, pageTable, videoPageTable], 1024 ≤ f ∧ f < 2048
  distinct : [pageDirectory, pageTable, videoPageTable].Nodup

namespace Layout

variable (L : Layout)

/-- The word of `page_directory[i]`. -/
def directoryAt (i : Nat) : Nat := L.pageDirectory * 1024 + i

/-- The word of `page_table[i]`. -/
def tableAt (i : Nat) : Nat := L.pageTable * 1024 + i

/-- The word of `video_page_table[i]`. -/
def videoTableAt (i : Nat) : Nat := L.videoPageTable * 1024 + i

/-- `page_directory[0]`. -/
def videoDirectory : List (BitField × Nat) := [
  (PdEntryKB.present, 1), (PdEntryKB.readWrite, 1), (PdEntryKB.userSupervisor, 0),
  (PdEntryKB.writeThrough, 0), (PdEntryKB.cacheDisabled, 0), (PdEntryKB.accessed, 0),
  (PdEntryKB.reserved1, 0), (PdEntryKB.ps, 0), (PdEntryKB.globalPage, 0), (PdEntryKB.avl, 0),
  (PdEntryKB.ptAddress, L.pageTable)]

/-- `page_directory[1]`. -/
def kernelDirectory : List (BitField × Nat) := [
  (PdEntryMB.ps, 1), (PdEntryMB.globalPage, 1), (PdEntryMB.present, 1), (PdEntryMB.readWrite, 1),
  (PdEntryMB.userSupervisor, 0), (PdEntryMB.writeThrough, 0), (PdEntryMB.cacheDisabled, 0),
  (PdEntryMB.accessed, 0), (PdEntryMB.dirty, 0), (PdEntryMB.avl, 0),
  (PdEntryMB.pageTableAttributeIndex, 0), (PdEntryMB.reserved, 0),
  (PdEntryMB.ptAddress, mb4 / 2 ^ 22)]

/-- `page_directory[32]`, whose address is left for `execute` to assign. -/
def programDirectory : List (BitField × Nat) := [
  (PdEntryMB.ps, 1), (PdEntryMB.globalPage, 1), (PdEntryMB.present, 1), (PdEntryMB.readWrite, 1),
  (PdEntryMB.userSupervisor, 1), (PdEntryMB.writeThrough, 0), (PdEntryMB.cacheDisabled, 0),
  (PdEntryMB.accessed, 0), (PdEntryMB.dirty, 0), (PdEntryMB.avl, 0),
  (PdEntryMB.pageTableAttributeIndex, 0), (PdEntryMB.reserved, 0)]

/-- `page_directory[33]`. -/
def vidmapDirectory : List (BitField × Nat) := [
  (PdEntryKB.present, 1), (PdEntryKB.readWrite, 1), (PdEntryKB.userSupervisor, 1),
  (PdEntryKB.writeThrough, 0), (PdEntryKB.cacheDisabled, 0), (PdEntryKB.accessed, 0),
  (PdEntryKB.reserved1, 0), (PdEntryKB.ps, 0), (PdEntryKB.globalPage, 0), (PdEntryKB.avl, 0),
  (PdEntryKB.ptAddress, L.videoPageTable)]

/-- The entry of a page of video memory in `page_table`. -/
def screenEntry (frame : Nat) : List (BitField × Nat) := [
  (PtEntry.present, 1), (PtEntry.readWrite, 1), (PtEntry.cacheDisabled, 1),
  (PtEntry.userSupervisor, 0), (PtEntry.writeThrough, 0), (PtEntry.accessed, 0),
  (PtEntry.dirty, 0), (PtEntry.pageTableAttributeIndex, 0), (PtEntry.globalPage, 0),
  (PtEntry.avl, 0), (PtEntry.pAddress, frame)]

/-- `video_page_table[0]`. -/
def vidmapEntry : List (BitField × Nat) := [
  (PtEntry.present, 1), (PtEntry.readWrite, 1), (PtEntry.cacheDisabled, 1),
  (PtEntry.userSupervisor, 1), (PtEntry.writeThrough, 0), (PtEntry.accessed, 0),
  (PtEntry.dirty, 0), (PtEntry.pageTableAttributeIndex, 0), (PtEntry.globalPage, 0),
  (PtEntry.avl, 0), (PtEntry.pAddress, 0xB8000 / 4096)]

/-- The other entries of `video_page_table`. -/
def unmappedEntry (i : Nat) : List (BitField × Nat) := [
  (PtEntry.present, 0), (PtEntry.readWrite, 1), (PtEntry.userSupervisor, 0),
  (PtEntry.writeThrough, 0), (PtEntry.cacheDisabled, 0), (PtEntry.accessed, 0),
  (PtEntry.dirty, 0), (PtEntry.pageTableAttributeIndex, 0), (PtEntry.globalPage, 0),
  (PtEntry.avl, 0), (PtEntry.pAddress, i)]

/-- One iteration of the loop over `page_directory`. -/
def directoryStep (mem : Words) (i : Nat) : Words :=
  let mem := if i = 0 then assignAt L.videoDirectory (L.directoryAt i) mem else mem
  let mem := if i = 1 then assignAt kernelDirectory (L.directoryAt i) mem else mem
  let mem := if i = 32 then assignAt programDirectory (L.directoryAt i) mem else mem
  if i = 33 then assignAt L.vidmapDirectory (L.directoryAt i) mem else mem

/-- One iteration of the loop over `page_table`. -/
def tableStep (mem : Words) (i : Nat) : Words :=
  if i = 0xB8000 / 4096 then assignAt (screenEntry (0xB8000 / 4096)) (L.tableAt i) mem
  else if i = (0xB8000 + 4096) / 4096 then
    assignAt (screenEntry ((0xB8000 + 4096) / 4096)) (L.tableAt i) mem
  else if i = (0xB8000 + 2 * 4096) / 4096 then
    assignAt (screenEntry ((0xB8000 + 2 * 4096) / 4096)) (L.tableAt i) mem
  else if i = (0xB8000 + 3 * 4096) / 4096 then
    assignAt (screenEntry ((0xB8000 + 3 * 4096) / 4096)) (L.tableAt i) mem
  else mem

/-- One iteration of the loop over `video_page_table`. -/
def videoTableStep (mem : Words) (i : Nat) : Words :=
  if i = 0 then assignAt vidmapEntry (L.videoTableAt i) mem
  else assignAt (unmappedEntry i) (L.videoTableAt i) mem

/-- The loops of `paging_init`. -/
def pagingInit (mem : Words) : Words :=
  let mem := (List.range 1024).foldl L.directoryStep mem
  let mem := (List.range 1024).foldl L.tableStep mem
  (List.range 1024).foldl L.videoTableStep mem

/-- `loadPageDirectory(page_directory)`. -/
def loadPageDirectory (c : Control) : Control where
  cr0 := c.cr0 ||| 0x80000001#32
  cr3 := BitVec.ofNat 32 (L.pageDirectory * 4096)
  cr4 := c.cr4 ||| 0x00000010#32

end Layout

/-! ## What the tables hold -/

/-- The frames that the kernel assigns while it runs. -/
structure Frames where
  /-- `page_directory[USR_MEM_IDX].MB.pt_address`. -/
  program : Nat
  /-- `page_table[VIDEO/FourKB].p_address`. -/
  screen : Nat
  /-- `video_page_table[0].p_address`. -/
  vidmap : Nat

/-- A directory entry that names a page table, and not a page of 4 MB. -/
structure NamesTable (pde : BitVec 32) (table : Nat) (user : Bool) : Prop where
  entry : Small pde table user true
  small : PageEntry.large.get pde = 0

/-- The three arrays hold the tables with the given frames. -/
structure Layout.Holds (L : Layout) (f : Frames) (mem : Words) : Prop where
  video : NamesTable (mem (L.directoryAt 0)) L.pageTable false
  kernel : Large (mem (L.directoryAt 1)) 1 false true
  program : Large (mem (L.directoryAt 32)) f.program true true
  vidmap : NamesTable (mem (L.directoryAt 33)) L.videoPageTable true
  directoryRest : ∀ i < 1024, i ≠ 0 → i ≠ 1 → i ≠ 32 → i ≠ 33 →
    PageEntry.present.get (mem (L.directoryAt i)) = 0
  screen : Small (mem (L.tableAt 184)) f.screen false true
  saves : ∀ i, 185 ≤ i → i ≤ 187 → Small (mem (L.tableAt i)) i false true
  tableRest : ∀ i < 1024, i < 184 ∨ 187 < i → PageEntry.present.get (mem (L.tableAt i)) = 0
  vidmapPage : Small (mem (L.videoTableAt 0)) f.vidmap true true
  videoTableRest : ∀ i < 1024, i ≠ 0 → PageEntry.present.get (mem (L.videoTableAt i)) = 0

/-- The address space that tables with the given frames make. -/
def Frames.space (f : Frames) (va : Nat) : Option Mapping :=
  if mb4 ≤ va ∧ va < mb8 then some { phys := va, user := false, writable := true }
  else if va / 4096 = 0xB8 then
    some { phys := f.screen * 4096 + va % 4096, user := false, writable := true }
  else if 0xB9000 ≤ va ∧ va < 0xBC000 then some { phys := va, user := false, writable := true }
  else if 0x8000000 ≤ va ∧ va < 0x8000000 + mb4 then
    some { phys := f.program * mb4 + (va - 0x8000000), user := true, writable := true }
  else if 0x8000000 + mb4 ≤ va ∧ va < 0x8000000 + mb4 + 4096 then
    some { phys := f.vidmap * 4096 + (va - (0x8000000 + mb4)), user := true, writable := true }
  else none

namespace Layout

variable {L : Layout} {f : Frames} {mem : Words}

/-! ### The walk by directory entry -/

section Walk

variable {va : BitVec 32}

theorem Holds.walk_screens (h : L.Holds f mem) (hdir : va.toNat / 2 ^ 22 = 0) :
    walk true L.pageDirectory mem va =
      if va.toNat / 2 ^ 12 % 1024 = 184 then some
        { phys := f.screen * 2 ^ 12 + va.toNat % 2 ^ 12, user := false, writable := true }
      else if 185 ≤ va.toNat / 2 ^ 12 % 1024 ∧ va.toNat / 2 ^ 12 % 1024 ≤ 187 then some
        { phys := va.toNat / 2 ^ 12 % 1024 * 2 ^ 12 + va.toNat % 2 ^ 12
          user := false
          writable := true }
      else none := by
  have hnames : NamesTable (mem (L.pageDirectory * 1024 + va.toNat / 2 ^ 22)) L.pageTable false :=
    hdir ▸ h.video
  have hlt : va.toNat / 2 ^ 12 % 1024 < 1024 := Nat.mod_lt _ (by decide)
  by_cases hscreen : va.toNat / 2 ^ 12 % 1024 = 184
  · have hentry : Small (mem (L.pageTable * 1024 + va.toNat / 2 ^ 12 % 1024)) f.screen false true :=
      hscreen ▸ h.screen
    rw [if_pos hscreen, walk_small hnames.entry hnames.small hentry]
    rfl
  · rw [if_neg hscreen]
    by_cases hsave : 185 ≤ va.toNat / 2 ^ 12 % 1024 ∧ va.toNat / 2 ^ 12 % 1024 ≤ 187
    · rw [if_pos hsave, walk_small hnames.entry hnames.small (h.saves _ hsave.1 hsave.2)]
      rfl
    · rw [if_neg hsave]
      exact walk_table_absent hnames.entry hnames.small (h.tableRest _ hlt (by omega))

theorem Holds.walk_kernel (h : L.Holds f mem) (hdir : va.toNat / 2 ^ 22 = 1) :
    walk true L.pageDirectory mem va = some
      { phys := 1 * 2 ^ 22 + va.toNat % 2 ^ 22, user := false, writable := true } := by
  have hlarge : Large (mem (L.pageDirectory * 1024 + va.toNat / 2 ^ 22)) 1 false true := by
    rw [hdir]
    exact h.kernel
  exact walk_large hlarge

theorem Holds.walk_program (h : L.Holds f mem) (hdir : va.toNat / 2 ^ 22 = 32) :
    walk true L.pageDirectory mem va = some
      { phys := f.program * 2 ^ 22 + va.toNat % 2 ^ 22, user := true, writable := true } := by
  have hlarge : Large (mem (L.pageDirectory * 1024 + va.toNat / 2 ^ 22)) f.program true true := by
    rw [hdir]
    exact h.program
  exact walk_large hlarge

theorem Holds.walk_vidmap (h : L.Holds f mem) (hdir : va.toNat / 2 ^ 22 = 33) :
    walk true L.pageDirectory mem va =
      if va.toNat / 2 ^ 12 % 1024 = 0 then some
        { phys := f.vidmap * 2 ^ 12 + va.toNat % 2 ^ 12, user := true, writable := true }
      else none := by
  have hnames : NamesTable (mem (L.pageDirectory * 1024 + va.toNat / 2 ^ 22)) L.videoPageTable
      true := hdir ▸ h.vidmap
  have hlt : va.toNat / 2 ^ 12 % 1024 < 1024 := Nat.mod_lt _ (by decide)
  by_cases hfirst : va.toNat / 2 ^ 12 % 1024 = 0
  · have hentry : Small (mem (L.videoPageTable * 1024 + va.toNat / 2 ^ 12 % 1024)) f.vidmap true
        true := by
      rw [hfirst]
      exact h.vidmapPage
    rw [if_pos hfirst, walk_small hnames.entry hnames.small hentry]
    rfl
  · rw [if_neg hfirst]
    exact walk_table_absent hnames.entry hnames.small (h.videoTableRest _ hlt hfirst)

theorem mapping_congr {a b : Nat} (h : a = b) (user writable : Bool) :
    some (Mapping.mk a user writable) = some (Mapping.mk b user writable) := by rw [h]

/-- The walk through the tables gives the address space. -/
theorem Holds.walk (h : L.Holds f mem) (va : BitVec 32) :
    walk true L.pageDirectory mem va = f.space va.toNat := by
  have hmb4 : mb4 = 0x400000 := rfl
  have hmb8 : mb8 = 0x800000 := rfl
  have hlt : va.toNat < 2 ^ 32 := va.isLt
  simp only [Frames.space, hmb4, hmb8]
  by_cases h0 : va.toNat / 2 ^ 22 = 0
  · rw [h.walk_screens h0, if_neg (by omega : ¬ (0x400000 ≤ va.toNat ∧ va.toNat < 0x800000))]
    by_cases hscreen : va.toNat / 4096 = 0xB8
    · rw [if_pos hscreen, if_pos (by omega)]
      exact mapping_congr (by omega) _ _
    · rw [if_neg hscreen, if_neg (by omega)]
      by_cases hsave : 0xB9000 ≤ va.toNat ∧ va.toNat < 0xBC000
      · rw [if_pos hsave, if_pos (by omega)]
        exact mapping_congr (by omega) _ _
      · rw [if_neg hsave, if_neg (by omega), if_neg (by omega), if_neg (by omega)]
  by_cases h1 : va.toNat / 2 ^ 22 = 1
  · rw [h.walk_kernel h1, if_pos (by omega)]
    exact mapping_congr (by omega) _ _
  rw [if_neg (by omega), if_neg (by omega), if_neg (by omega)]
  by_cases h32 : va.toNat / 2 ^ 22 = 32
  · rw [h.walk_program h32, if_pos (by omega)]
    exact mapping_congr (by omega) _ _
  rw [if_neg (by omega)]
  by_cases h33 : va.toNat / 2 ^ 22 = 33
  · rw [h.walk_vidmap h33]
    by_cases hfirst : va.toNat / 2 ^ 12 % 1024 = 0
    · rw [if_pos hfirst, if_pos (by omega)]
      exact mapping_congr (by omega) _ _
    · rw [if_neg hfirst, if_neg (by omega)]
  · rw [if_neg (by omega)]
    exact walk_absent (h.directoryRest _ (by omega) h0 h1 h32 h33)

end Walk

/-! ### The entries that `paging_init` writes -/

theorem lt_frames (L : Layout) :
    L.pageDirectory < 2 ^ 20 ∧ L.pageTable < 2 ^ 20 ∧ L.videoPageTable < 2 ^ 20 := by
  have h := L.inKernel
  simp only [List.mem_cons, List.not_mem_nil, or_false, forall_eq_or_imp, forall_eq] at h
  omega

theorem flag_eq {g : BitField} {x : BitVec 32} {v : Nat} (h : g.get x = v) :
    flag g x = decide (v = 1) := by
  rw [flag, h]

/-- A field of a word that a list of assignments leaves. -/
theorem get_field {l : List (BitField × Nat)} (hl : BitField.Valid 32 (l.map Prod.fst)) {i : Nat}
    {g : BitField} {v : Nat} (hi : l[i]? = some (g, v)) (hv : v < 2 ^ g.len) (x : BitVec 32) :
    g.get (BitField.assign l x) = v := by
  rw [BitField.get_assign hl (List.mem_of_getElem? hi), Nat.mod_eq_of_lt hv]

theorem namesTable_video (L : Layout) (x : BitVec 32) :
    NamesTable (BitField.assign L.videoDirectory x) L.pageTable false := by
  have hvalid : BitField.Valid 32 (L.videoDirectory.map Prod.fst) := of_decide_eq_true rfl
  refine ⟨⟨?_, ?_, ?_, ?_⟩, ?_⟩
  · exact get_field (i := 0) hvalid rfl (by decide) x
  · exact get_field (i := 10) hvalid rfl L.lt_frames.2.1 x
  · exact flag_eq (get_field (i := 2) hvalid rfl (by decide) x)
  · exact flag_eq (get_field (i := 1) hvalid rfl (by decide) x)
  · exact get_field (i := 7) hvalid rfl (by decide) x

theorem namesTable_vidmap (L : Layout) (x : BitVec 32) :
    NamesTable (BitField.assign L.vidmapDirectory x) L.videoPageTable true := by
  have hvalid : BitField.Valid 32 (L.vidmapDirectory.map Prod.fst) := of_decide_eq_true rfl
  refine ⟨⟨?_, ?_, ?_, ?_⟩, ?_⟩
  · exact get_field (i := 0) hvalid rfl (by decide) x
  · exact get_field (i := 10) hvalid rfl L.lt_frames.2.2 x
  · exact flag_eq (get_field (i := 2) hvalid rfl (by decide) x)
  · exact flag_eq (get_field (i := 1) hvalid rfl (by decide) x)
  · exact get_field (i := 7) hvalid rfl (by decide) x

theorem large_kernel (x : BitVec 32) : Large (BitField.assign kernelDirectory x) 1 false true := by
  have hvalid : BitField.Valid 32 (kernelDirectory.map Prod.fst) := of_decide_eq_true rfl
  refine ⟨?_, ?_, ?_, ?_, ?_, ?_⟩
  · exact get_field (i := 2) hvalid rfl (by decide) x
  · exact get_field (i := 0) hvalid rfl (by decide) x
  · exact get_field (i := 11) hvalid rfl (by decide) x
  · exact get_field (i := 12) hvalid rfl (by decide) x
  · exact flag_eq (get_field (i := 4) hvalid rfl (by decide) x)
  · exact flag_eq (get_field (i := 3) hvalid rfl (by decide) x)

/-- The entry of the program's page keeps the address that it had. -/
theorem large_program (x : BitVec 32) : Large (BitField.assign programDirectory x)
    (PageEntry.largeFrame.get x) true true := by
  have hvalid : BitField.Valid 32 (programDirectory.map Prod.fst) := of_decide_eq_true rfl
  have hrest : ∀ p ∈ programDirectory, PageEntry.largeFrame.Apart p.1 := of_decide_eq_true rfl
  refine ⟨?_, ?_, ?_, ?_, ?_, ?_⟩
  · exact get_field (i := 2) hvalid rfl (by decide) x
  · exact get_field (i := 0) hvalid rfl (by decide) x
  · exact get_field (i := 11) hvalid rfl (by decide) x
  · exact BitField.get_assign_of_apart hvalid.fits hrest x
  · exact flag_eq (get_field (i := 4) hvalid rfl (by decide) x)
  · exact flag_eq (get_field (i := 3) hvalid rfl (by decide) x)

theorem small_screen {frame : Nat} (hframe : frame < 2 ^ 20) (x : BitVec 32) :
    Small (BitField.assign (screenEntry frame) x) frame false true := by
  have hvalid : BitField.Valid 32 ((screenEntry frame).map Prod.fst) := of_decide_eq_true rfl
  refine ⟨?_, ?_, ?_, ?_⟩
  · exact get_field (i := 0) hvalid rfl (by decide) x
  · exact get_field (i := 10) hvalid rfl hframe x
  · exact flag_eq (get_field (i := 3) hvalid rfl (by decide) x)
  · exact flag_eq (get_field (i := 1) hvalid rfl (by decide) x)

theorem small_vidmap (x : BitVec 32) : Small (BitField.assign vidmapEntry x) 184 true true := by
  have hvalid : BitField.Valid 32 (vidmapEntry.map Prod.fst) := of_decide_eq_true rfl
  refine ⟨?_, ?_, ?_, ?_⟩
  · exact get_field (i := 0) hvalid rfl (by decide) x
  · exact get_field (i := 10) hvalid rfl (by decide) x
  · exact flag_eq (get_field (i := 3) hvalid rfl (by decide) x)
  · exact flag_eq (get_field (i := 1) hvalid rfl (by decide) x)

theorem absent_unmapped (i : Nat) (x : BitVec 32) :
    PageEntry.present.get (BitField.assign (unmappedEntry i) x) = 0 := by
  have hvalid : BitField.Valid 32 ((unmappedEntry i).map Prod.fst) := of_decide_eq_true rfl
  exact get_field (i := 0) hvalid rfl (by decide) x

/-! ### The loops -/

/-- What the loop over `page_directory` makes of entry `i`. -/
def directoryEntry (L : Layout) (i : Nat) (x : BitVec 32) : BitVec 32 :=
  if i = 0 then BitField.assign L.videoDirectory x
  else if i = 1 then BitField.assign kernelDirectory x
  else if i = 32 then BitField.assign programDirectory x
  else if i = 33 then BitField.assign L.vidmapDirectory x
  else x

/-- What the loop over `page_table` makes of entry `i`. -/
def tableEntry (i : Nat) (x : BitVec 32) : BitVec 32 :=
  if 184 ≤ i ∧ i ≤ 187 then BitField.assign (screenEntry i) x else x

/-- What the loop over `video_page_table` makes of entry `i`. -/
def videoTableEntry (i : Nat) (x : BitVec 32) : BitVec 32 :=
  if i = 0 then BitField.assign vidmapEntry x else BitField.assign (unmappedEntry i) x

theorem directoryStep_eq (L : Layout) (mem : Words) (i : Nat) : L.directoryStep mem i =
    Function.update mem (L.directoryAt i) (L.directoryEntry i (mem (L.directoryAt i))) := by
  unfold directoryStep directoryEntry
  by_cases h0 : i = 0
  · subst h0
    rfl
  by_cases h1 : i = 1
  · subst h1
    rfl
  by_cases h32 : i = 32
  · subst h32
    rfl
  by_cases h33 : i = 33
  · subst h33
    rfl
  simp only [h0, h1, h32, h33, ↓reduceIte, Function.update_eq_self]

theorem tableStep_eq (L : Layout) (mem : Words) (i : Nat) : L.tableStep mem i =
    Function.update mem (L.tableAt i) (tableEntry i (mem (L.tableAt i))) := by
  unfold tableStep tableEntry
  by_cases hin : 184 ≤ i ∧ i ≤ 187
  · obtain rfl | rfl | rfl | rfl : i = 184 ∨ i = 185 ∨ i = 186 ∨ i = 187 := by omega
    all_goals rfl
  · rw [if_neg (by omega), if_neg (by omega), if_neg (by omega), if_neg (by omega), if_neg hin,
      Function.update_eq_self]

theorem videoTableStep_eq (L : Layout) (mem : Words) (i : Nat) : L.videoTableStep mem i =
    Function.update mem (L.videoTableAt i) (videoTableEntry i (mem (L.videoTableAt i))) := by
  unfold videoTableStep videoTableEntry
  split <;> rfl

/-- The arrays share no frame. -/
theorem frames_ne (L : Layout) : L.pageDirectory ≠ L.pageTable ∧
    L.pageDirectory ≠ L.videoPageTable ∧ L.pageTable ≠ L.videoPageTable := by
  have h := L.distinct
  simp only [List.nodup_cons, List.mem_cons, List.not_mem_nil, or_false, not_or] at h
  exact ⟨h.1.1, h.1.2, h.2.1⟩

/-- The word `a` after the three loops. -/
theorem pagingInit_apply (L : Layout) (mem : Words) (a : Nat) : L.pagingInit mem a =
    if a / 1024 = L.pageDirectory then L.directoryEntry (a % 1024) (mem a)
    else if a / 1024 = L.pageTable then tableEntry (a % 1024) (mem a)
    else if a / 1024 = L.videoPageTable then videoTableEntry (a % 1024) (mem a)
    else mem a := by
  obtain ⟨hdt, hdv, htv⟩ := L.frames_ne
  have hin : ∀ f, (f * 1024 ≤ a ∧ a < f * 1024 + 1024) ↔ a / 1024 = f := fun f => by omega
  have hindex : ∀ f, a / 1024 = f → a - f * 1024 = a % 1024 := fun f hf => by omega
  show (List.range 1024).foldl L.videoTableStep ((List.range 1024).foldl L.tableStep
    ((List.range 1024).foldl L.directoryStep mem)) a = _
  rw [foldl_entries L.videoTableStep_eq, foldl_entries L.tableStep_eq,
    foldl_entries L.directoryStep_eq]
  simp only [hin]
  by_cases hd : a / 1024 = L.pageDirectory
  · rw [if_neg fun h => hdv (hd.symm.trans h), if_neg fun h => hdt (hd.symm.trans h), if_pos hd,
      if_pos hd, hindex _ hd]
  · rw [if_neg hd, if_neg hd]
    by_cases ht : a / 1024 = L.pageTable
    · rw [if_neg fun h => htv (ht.symm.trans h), if_pos ht, if_pos ht, hindex _ ht]
    · rw [if_neg ht, if_neg ht]
      by_cases hv : a / 1024 = L.videoPageTable
      · rw [if_pos hv, if_pos hv, hindex _ hv]
      · rw [if_neg hv, if_neg hv]

theorem pagingInit_directoryAt (L : Layout) (mem : Words) {i : Nat} (hi : i < 1024) :
    L.pagingInit mem (L.directoryAt i) = L.directoryEntry i (mem (L.directoryAt i)) := by
  have hframe : L.directoryAt i / 1024 = L.pageDirectory := by unfold directoryAt; omega
  have hindex : L.directoryAt i % 1024 = i := by unfold directoryAt; omega
  rw [pagingInit_apply, if_pos hframe, hindex]

theorem pagingInit_tableAt (L : Layout) (mem : Words) {i : Nat} (hi : i < 1024) :
    L.pagingInit mem (L.tableAt i) = tableEntry i (mem (L.tableAt i)) := by
  have hframe : L.tableAt i / 1024 = L.pageTable := by unfold tableAt; omega
  have hindex : L.tableAt i % 1024 = i := by unfold tableAt; omega
  rw [pagingInit_apply, hframe, if_neg L.frames_ne.1.symm, if_pos rfl, hindex]

theorem pagingInit_videoTableAt (L : Layout) (mem : Words) {i : Nat} (hi : i < 1024) :
    L.pagingInit mem (L.videoTableAt i) = videoTableEntry i (mem (L.videoTableAt i)) := by
  have hframe : L.videoTableAt i / 1024 = L.videoPageTable := by unfold videoTableAt; omega
  have hindex : L.videoTableAt i % 1024 = i := by unfold videoTableAt; omega
  rw [pagingInit_apply, hframe, if_neg L.frames_ne.2.1.symm, if_neg L.frames_ne.2.2.symm,
    if_pos rfl, hindex]

/-- The arrays as the program's image has them: static storage starts as zero. -/
def Cleared (L : Layout) (mem : Words) : Prop :=
  ∀ i < 1024, mem (L.directoryAt i) = 0 ∧ mem (L.tableAt i) = 0 ∧ mem (L.videoTableAt i) = 0

theorem get_zero (g : BitField) : g.get (0 : BitVec 32) = 0 := by
  simp [BitField.get]

/-- The frames after `paging_init`.  The program's page has no address yet, which
leaves it at the start of physical memory. -/
def initFrames : Frames where
  program := 0
  screen := 184
  vidmap := 184

theorem pagingInit_holds (h : L.Cleared mem) : L.Holds initFrames (L.pagingInit mem) where
  video := by
    rw [pagingInit_directoryAt L mem (by omega), directoryEntry, if_pos rfl]
    exact namesTable_video L _
  kernel := by
    rw [pagingInit_directoryAt L mem (by omega), directoryEntry, if_neg (by omega), if_pos rfl]
    exact large_kernel _
  program := by
    have hframe : PageEntry.largeFrame.get (mem (L.directoryAt 32)) = 0 := by
      rw [(h 32 (by omega)).1, get_zero]
    have hlarge := large_program (mem (L.directoryAt 32))
    rw [hframe] at hlarge
    rw [pagingInit_directoryAt L mem (by omega), directoryEntry, if_neg (by omega),
      if_neg (by omega), if_pos rfl]
    exact hlarge
  vidmap := by
    rw [pagingInit_directoryAt L mem (by omega), directoryEntry, if_neg (by omega),
      if_neg (by omega), if_neg (by omega), if_pos rfl]
    exact namesTable_vidmap L _
  directoryRest := by
    intro i hi h0 h1 h32 h33
    rw [pagingInit_directoryAt L mem hi, (h i hi).1]
    simp only [directoryEntry, h0, h1, h32, h33, ↓reduceIte, get_zero]
  screen := by
    have hin : 184 ≤ 184 ∧ 184 ≤ 187 := by omega
    rw [pagingInit_tableAt L mem (by omega), tableEntry, if_pos hin]
    exact small_screen (by omega) _
  saves := by
    intro i hlo hhi
    have hin : 184 ≤ i ∧ i ≤ 187 := by omega
    rw [pagingInit_tableAt L mem (by omega), tableEntry, if_pos hin]
    exact small_screen (by omega) _
  tableRest := by
    intro i hi hout
    have hnot : ¬ (184 ≤ i ∧ i ≤ 187) := by omega
    rw [pagingInit_tableAt L mem hi, (h i hi).2.1, tableEntry, if_neg hnot, get_zero]
  vidmapPage := by
    rw [pagingInit_videoTableAt L mem (by omega), videoTableEntry, if_pos rfl]
    exact small_vidmap _
  videoTableRest := by
    intro i hi h0
    rw [pagingInit_videoTableAt L mem hi, videoTableEntry, if_neg h0]
    exact absent_unmapped i _

/-! ### The assignments while the kernel runs -/

/-- `page_directory[USR_MEM_IDX].MB.pt_address = v`. -/
def assignProgram (L : Layout) (v : Nat) (mem : Words) : Words :=
  assignAt [(PdEntryMB.ptAddress, v)] (L.directoryAt 32) mem

/-- `page_table[VIDEO/FourKB].p_address = v`. -/
def assignScreen (L : Layout) (v : Nat) (mem : Words) : Words :=
  assignAt [(PtEntry.pAddress, v)] (L.tableAt (0xB8000 / 4096)) mem

/-- `video_page_table[0].p_address = v`. -/
def assignVidmap (L : Layout) (v : Nat) (mem : Words) : Words :=
  assignAt [(PtEntry.pAddress, v)] (L.videoTableAt 0) mem

/-- Tables that agree but for one word. -/
theorem assignAt_of_ne (l : List (BitField × Nat)) {i a : Nat} (h : a ≠ i) (mem : Words) :
    assignAt l i mem a = mem a := Function.update_of_ne h _ _

theorem assignAt_self (l : List (BitField × Nat)) (i : Nat) (mem : Words) :
    assignAt l i mem i = BitField.assign l (mem i) := Function.update_self ..

/-- The address of an entry that maps a page of 4 KB, assigned. -/
theorem small_assign {x : BitVec 32} {old v : Nat} {user writable : Bool} (h : Small x old user writable)
    (hv : v < 2 ^ 20) : Small (BitField.assign [(PtEntry.pAddress, v)] x) v user writable := by
  have hfits : PtEntry.pAddress.Fits 32 := by decide
  have hother : ∀ g : BitField, g.start + g.len ≤ 12 →
      g.get (BitField.assign [(PtEntry.pAddress, v)] x) = g.get x := fun g hg =>
    BitField.get_set_of_apart hfits (Or.inl hg) v x
  refine ⟨?_, ?_, ?_, ?_⟩
  · rw [hother _ (by decide)]
    exact h.present
  · exact (BitField.get_set_self hfits v x).trans (Nat.mod_eq_of_lt hv)
  · rw [flag, hother _ (by decide)]
    exact h.user
  · rw [flag, hother _ (by decide)]
    exact h.writable

/-- The address of an entry that maps a page of 4 MB, assigned. -/
theorem large_assign {x : BitVec 32} {old v : Nat} {user writable : Bool} (h : Large x old user writable)
    (hv : v < 2 ^ 10) : Large (BitField.assign [(PdEntryMB.ptAddress, v)] x) v user writable := by
  have hfits : PdEntryMB.ptAddress.Fits 32 := by decide
  have hother : ∀ g : BitField, g.start + g.len ≤ 22 →
      g.get (BitField.assign [(PdEntryMB.ptAddress, v)] x) = g.get x := fun g hg =>
    BitField.get_set_of_apart hfits (Or.inl hg) v x
  refine ⟨?_, ?_, ?_, ?_, ?_, ?_⟩
  · rw [hother _ (by decide)]
    exact h.present
  · rw [hother _ (by decide)]
    exact h.large
  · rw [hother _ (by decide)]
    exact h.reserved
  · exact (BitField.get_set_self hfits v x).trans (Nat.mod_eq_of_lt hv)
  · rw [flag, hother _ (by decide)]
    exact h.user
  · rw [flag, hother _ (by decide)]
    exact h.writable

/-- Words of different arrays. -/
theorem word_ne {f g i j : Nat} (h : f ≠ g) (hi : i < 1024) (hj : j < 1024) :
    f * 1024 + i ≠ g * 1024 + j := by omega

theorem directoryAt_ne_tableAt (L : Layout) {i j : Nat} (hi : i < 1024) (hj : j < 1024) :
    L.directoryAt i ≠ L.tableAt j := word_ne L.frames_ne.1 hi hj

theorem directoryAt_ne_videoTableAt (L : Layout) {i j : Nat} (hi : i < 1024) (hj : j < 1024) :
    L.directoryAt i ≠ L.videoTableAt j := word_ne L.frames_ne.2.1 hi hj

theorem tableAt_ne_videoTableAt (L : Layout) {i j : Nat} (hi : i < 1024) (hj : j < 1024) :
    L.tableAt i ≠ L.videoTableAt j := word_ne L.frames_ne.2.2 hi hj

theorem index_ne {f i j : Nat} (h : i ≠ j) : f * 1024 + i ≠ f * 1024 + j := by omega

/-- Tables that differ in the three assigned words only. -/
theorem Holds.replace (h : L.Holds f mem) {f' : Frames} {mem' : Words}
    (hother : ∀ a, a ≠ L.directoryAt 32 → a ≠ L.tableAt 184 → a ≠ L.videoTableAt 0 →
      mem' a = mem a)
    (hprogram : Large (mem' (L.directoryAt 32)) f'.program true true)
    (hscreen : Small (mem' (L.tableAt 184)) f'.screen false true)
    (hvidmap : Small (mem' (L.videoTableAt 0)) f'.vidmap true true) : L.Holds f' mem' := by
  have hdir : ∀ i < 1024, i ≠ 32 → mem' (L.directoryAt i) = mem (L.directoryAt i) :=
    fun i hi hne => hother _ (index_ne hne) (L.directoryAt_ne_tableAt hi (by omega))
      (L.directoryAt_ne_videoTableAt hi (by omega))
  have htable : ∀ i < 1024, i ≠ 184 → mem' (L.tableAt i) = mem (L.tableAt i) :=
    fun i hi hne => hother _ (L.directoryAt_ne_tableAt (by omega) hi).symm (index_ne hne)
      (L.tableAt_ne_videoTableAt hi (by omega))
  have hvideo : ∀ i < 1024, i ≠ 0 → mem' (L.videoTableAt i) = mem (L.videoTableAt i) :=
    fun i hi hne => hother _ (L.directoryAt_ne_videoTableAt (by omega) hi).symm
      (L.tableAt_ne_videoTableAt (by omega) hi).symm (index_ne hne)
  exact
    { video := by
        rw [hdir 0 (by omega) (by omega)]
        exact h.video
      kernel := by
        rw [hdir 1 (by omega) (by omega)]
        exact h.kernel
      program := hprogram
      vidmap := by
        rw [hdir 33 (by omega) (by omega)]
        exact h.vidmap
      directoryRest := by
        intro i hi h0 h1 h32 h33
        rw [hdir i hi h32]
        exact h.directoryRest i hi h0 h1 h32 h33
      screen := hscreen
      saves := by
        intro i hlo hhi
        rw [htable i (by omega) (by omega)]
        exact h.saves i hlo hhi
      tableRest := by
        intro i hi hout
        rw [htable i hi (by omega)]
        exact h.tableRest i hi hout
      vidmapPage := hvidmap
      videoTableRest := by
        intro i hi h0
        rw [hvideo i hi h0]
        exact h.videoTableRest i hi h0 }

theorem Holds.assignProgram (h : L.Holds f mem) {v : Nat} (hv : v < 2 ^ 10) :
    L.Holds { f with program := v } (L.assignProgram v mem) := by
  have htable := L.directoryAt_ne_tableAt (i := 32) (j := 184) (by omega) (by omega)
  have hvideo := L.directoryAt_ne_videoTableAt (i := 32) (j := 0) (by omega) (by omega)
  refine h.replace (fun a ha _ _ => assignAt_of_ne _ ha mem) ?_ ?_ ?_
  · rw [Layout.assignProgram, assignAt_self]
    exact large_assign h.program hv
  · rw [Layout.assignProgram, assignAt_of_ne _ htable.symm]
    exact h.screen
  · rw [Layout.assignProgram, assignAt_of_ne _ hvideo.symm]
    exact h.vidmapPage

theorem Holds.assignScreen (h : L.Holds f mem) {v : Nat} (hv : v < 2 ^ 20) :
    L.Holds { f with screen := v } (L.assignScreen v mem) := by
  have hdir := L.directoryAt_ne_tableAt (i := 32) (j := 184) (by omega) (by omega)
  have hvideo := L.tableAt_ne_videoTableAt (i := 184) (j := 0) (by omega) (by omega)
  refine h.replace (fun a _ ha _ => assignAt_of_ne _ ha mem) ?_ ?_ ?_
  · rw [Layout.assignScreen, assignAt_of_ne _ hdir]
    exact h.program
  · rw [Layout.assignScreen, assignAt_self]
    exact small_assign h.screen hv
  · rw [Layout.assignScreen, assignAt_of_ne _ hvideo.symm]
    exact h.vidmapPage

theorem Holds.assignVidmap (h : L.Holds f mem) {v : Nat} (hv : v < 2 ^ 20) :
    L.Holds { f with vidmap := v } (L.assignVidmap v mem) := by
  have hdir := L.directoryAt_ne_videoTableAt (i := 32) (j := 0) (by omega) (by omega)
  have htable := L.tableAt_ne_videoTableAt (i := 184) (j := 0) (by omega) (by omega)
  refine h.replace (fun a _ _ ha => assignAt_of_ne _ ha mem) ?_ ?_ ?_
  · rw [Layout.assignVidmap, assignAt_of_ne _ hdir]
    exact h.program
  · rw [Layout.assignVidmap, assignAt_of_ne _ htable]
    exact h.screen
  · rw [Layout.assignVidmap, assignAt_self]
    exact small_assign h.vidmapPage hv

/-! ### The control registers -/

theorem directory_cr3 (L : Layout) (c : Control) :
    Control.directory.get (L.loadPageDirectory c).cr3 = L.pageDirectory := by
  have hlt := L.lt_frames.1
  have hnat : (BitVec.ofNat 32 (L.pageDirectory * 4096)).toNat = L.pageDirectory * 4096 := by
    rw [BitVec.toNat_ofNat, Nat.mod_eq_of_lt (by omega)]
  show ((BitVec.ofNat 32 (L.pageDirectory * 4096)).toNat >>> 12) % 2 ^ 20 = L.pageDirectory
  rw [hnat, Nat.shiftRight_eq_div_pow]
  omega

/-- A bit set by `orl`. -/
theorem flag_or {g : BitField} (hlen : g.len = 1) {x m : BitVec 32} (hm : m.getLsbD g.start = true) :
    flag g (x ||| m) = true := by
  have hone : g.get (x ||| m) = 1 := by
    refine Nat.eq_of_testBit_eq fun i => ?_
    rw [BitField.testBit_get, hlen, BitVec.getLsbD_or]
    cases i with
    | zero => simp [hm]
    | succ i =>
      have hnot : ¬ i + 1 < 1 := by omega
      simp [hnot, Nat.testBit_succ]
  exact decide_eq_true hone

/-- `loadPageDirectory` turns the walk on. -/
theorem translated_loadPageDirectory (L : Layout) (c : Control) (mem : Words) (va : BitVec 32) :
    translated (L.loadPageDirectory c) mem va = Machine.walk true L.pageDirectory mem va := by
  have hpaging : flag Control.paging (L.loadPageDirectory c).cr0 = true := flag_or rfl rfl
  have hpse : flag Control.pageSizeExtension (L.loadPageDirectory c).cr4 = true := flag_or rfl rfl
  rw [translated, if_pos hpaging, hpse, directory_cr3]

theorem Holds.translated (h : L.Holds f mem) (c : Control) (va : BitVec 32) :
    Machine.translated (L.loadPageDirectory c) mem va = f.space va.toNat := by
  rw [translated_loadPageDirectory, h.walk]

/-- After `paging_init` and `loadPageDirectory` the kernel's page and the four pages of
video memory are mapped to themselves for the supervisor, the two user windows are open,
and every other address faults.  No word outside the arrays is written. -/
theorem paging_initialized (h : L.Cleared mem) (c : Control) :
    (∀ va : BitVec 32, Machine.translated (L.loadPageDirectory c) (L.pagingInit mem) va =
      if mb4 ≤ va.toNat ∧ va.toNat < mb8 ∨ 0xB8000 ≤ va.toNat ∧ va.toNat < 0xBC000 then
        some { phys := va.toNat, user := false, writable := true }
      else if 0x8000000 ≤ va.toNat ∧ va.toNat < 0x8000000 + mb4 then
        some { phys := va.toNat - 0x8000000, user := true, writable := true }
      else if 0x8000000 + mb4 ≤ va.toNat ∧ va.toNat < 0x8000000 + mb4 + 4096 then
        some { phys := 0xB8000 + (va.toNat - (0x8000000 + mb4)), user := true, writable := true }
      else none) ∧
    ∀ a, a / 1024 ∉ [L.pageDirectory, L.pageTable, L.videoPageTable] →
      L.pagingInit mem a = mem a := by
  constructor
  · intro va
    have hmb4 : mb4 = 0x400000 := rfl
    have hmb8 : mb8 = 0x800000 := rfl
    rw [(pagingInit_holds h).translated c va, Frames.space, hmb4, hmb8]
    dsimp only [initFrames]
    by_cases hkernel : 0x400000 ≤ va.toNat ∧ va.toNat < 0x800000
    · rw [if_pos hkernel, if_pos (Or.inl hkernel)]
    rw [if_neg hkernel]
    by_cases hscreen : va.toNat / 4096 = 0xB8
    · rw [if_pos hscreen, if_pos (by omega)]
      exact mapping_congr (by omega) _ _
    rw [if_neg hscreen]
    by_cases hsave : 0xB9000 ≤ va.toNat ∧ va.toNat < 0xBC000
    · rw [if_pos hsave, if_pos (by omega)]
    have hlow : ¬ (0x400000 ≤ va.toNat ∧ va.toNat < 0x800000 ∨
        0xB8000 ≤ va.toNat ∧ va.toNat < 0xBC000) := by omega
    rw [if_neg hsave, if_neg hlow]
    by_cases hprogram : 0x8000000 ≤ va.toNat ∧ va.toNat < 0x8000000 + 0x400000
    · rw [if_pos hprogram, if_pos hprogram]
      exact mapping_congr (by omega) _ _
    · rw [if_neg hprogram, if_neg hprogram]
  · intro a ha
    simp only [List.mem_cons, List.not_mem_nil, or_false, not_or] at ha
    obtain ⟨hd, ht, hv⟩ := ha
    rw [pagingInit_apply, if_neg hd, if_neg ht, if_neg hv]

/-- The arrays one after the other at 4 MB. -/
def firstFrames : Layout where
  pageDirectory := 1024
  pageTable := 1025
  videoPageTable := 1026
  inKernel := by decide
  distinct := by decide

/-- Protected mode without paging. -/
def protectedMode : Control where
  cr0 := 0x00000001#32
  cr3 := 0
  cr4 := 0

theorem cleared_zero (L : Layout) : L.Cleared fun _ => 0 := fun _ _ => ⟨rfl, rfl, rfl⟩

/-- Before the first `execute` the program's page is at the start of physical memory. -/
theorem paging_initialized_program :
    Machine.translated (firstFrames.loadPageDirectory protectedMode)
      (firstFrames.pagingInit fun _ => 0) 0x08048000#32
        = some { phys := 0x48000, user := true, writable := true } :=
  (paging_initialized (cleared_zero firstFrames) protectedMode).1 0x08048000#32

end Layout

end StudentDistrib
