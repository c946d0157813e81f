import StudentDistrib.Kernel.Boot

/-!
# The descriptor table

A control block records which descriptors are taken twice, in `openIndexes` and in
the flags of `fdArray`.  A block is consistent if the two agree on the descriptors
2 to 7, and then the table is a finite map from these descriptors to open files.
`execute` leaves a consistent block over whatever the slot held, the calls on
descriptors keep it consistent, and no other event touches it.
-/

namespace StudentDistrib

open Machine

/-- An open file. -/
structure OpenFile where
  kind : Driver
  inode : Int
  position : Int

namespace PCB

/-- The table as a map from descriptors to open files. -/
def table (pcb : PCB) (fd : Int) : Option OpenFile :=
  if 2 ≤ fd ∧ fd ≤ 7 ∧ (pcb.fdArray fd).flags = full then
    (pcb.fdArray fd).jumpTable.map fun kind =>
      { kind, inode := (pcb.fdArray fd).inodeCheck, position := (pcb.fdArray fd).filePosition }
  else none

structure Consistent (pcb : PCB) : Prop where
  occupied : ∀ i, 0 ≤ i → i < 6 →
    (pcb.openIndexes i = full ∧ (pcb.fdArray (i + 2)).flags = full) ∨
      (pcb.openIndexes i = empty ∧ (pcb.fdArray (i + 2)).flags = empty)
  driver : ∀ fd, 2 ≤ fd → fd ≤ 7 → (pcb.fdArray fd).flags = full →
    ∃ kind, (pcb.fdArray fd).jumpTable = some kind
  standard : ∀ fd, fd = 0 ∨ fd = 1 →
    (pcb.fdArray fd).flags = full ∧ (pcb.fdArray fd).jumpTable = some .terminal

variable {pcb : PCB}

theorem full_ne_empty : full ≠ empty := by decide

theorem table_of_out {fd : Int} (h : fd < 2 ∨ 7 < fd) : pcb.table fd = none :=
  if_neg (by omega)

theorem Consistent.table_eq_none_iff (h : pcb.Consistent) {i : Int} (h0 : 0 ≤ i) (hi : i < 6) :
    pcb.table (i + 2) = none ↔ pcb.openIndexes i = empty := by
  rcases h.occupied i h0 hi with ⟨hindex, hflags⟩ | ⟨hindex, hflags⟩
  · obtain ⟨kind, hkind⟩ := h.driver (i + 2) (by omega) (by omega) hflags
    have hopen : pcb.table (i + 2) ≠ none := by
      unfold table
      rw [if_pos ⟨by omega, by omega, hflags⟩, hkind]
      exact Option.some_ne_none _
    rw [hindex]
    exact ⟨fun hnone => absurd hnone hopen, fun hempty => absurd hempty full_ne_empty⟩
  · have hclosed : pcb.table (i + 2) = none := by
      unfold table
      rw [if_neg]
      rintro ⟨-, -, hfull⟩
      exact full_ne_empty (hfull.symm.trans hflags)
    exact ⟨fun _ => hindex, fun _ => hclosed⟩

/-- `openIndexes` is taken exactly where the flags say so. -/
theorem Consistent.full_iff (h : pcb.Consistent) {i : Int} (h0 : 0 ≤ i) (hi : i < 6) :
    pcb.openIndexes i = full ↔ (pcb.fdArray (i + 2)).flags = full := by
  rcases h.occupied i h0 hi with ⟨hindex, hflags⟩ | ⟨hindex, hflags⟩
  · exact ⟨fun _ => hflags, fun _ => hindex⟩
  · rw [hindex, hflags]

theorem Consistent.flags_eq_empty_iff (h : pcb.Consistent) {fd : Int} (h2 : 2 ≤ fd) (h7 : fd ≤ 7) :
    (pcb.fdArray fd).flags = empty ↔ pcb.table fd = none := by
  have hfd : fd - 2 + 2 = fd := by omega
  have hnone := h.table_eq_none_iff (i := fd - 2) (by omega) (by omega)
  have hoccupied := h.occupied (fd - 2) (by omega) (by omega)
  rw [hfd] at hnone hoccupied
  rw [hnone]
  rcases hoccupied with ⟨hindex, hflags⟩ | ⟨hindex, hflags⟩
  · rw [hindex, hflags]
  · rw [hindex, hflags]

theorem Consistent.flags_ne_full (h : pcb.Consistent) {fd : Int} (h2 : 2 ≤ fd) (h7 : fd ≤ 7)
    (hnone : pcb.table fd = none) : (pcb.fdArray fd).flags ≠ full := by
  rw [(h.flags_eq_empty_iff h2 h7).mpr hnone]
  exact full_ne_empty.symm

/-- The two records of one descriptor replaced. -/
def setEntry (i : Int) (index : Int) (d : FileDescriptor) (pcb : PCB) : PCB :=
  { pcb with
    openIndexes := Function.update pcb.openIndexes i index
    fdArray := Function.update pcb.fdArray (i + 2) d }

theorem Consistent.setEntry (h : pcb.Consistent) {i index : Int} {d : FileDescriptor} (h0 : 0 ≤ i)
    (hi : i < 6) (hsame : index = full ∧ d.flags = full ∧ (∃ kind, d.jumpTable = some kind) ∨
      index = empty ∧ d.flags = empty) : (pcb.setEntry i index d).Consistent := by
  refine ⟨fun j hj0 hj => ?_, fun fd h2 h7 hfull => ?_, fun fd hfd => ?_⟩
  · by_cases hij : j = i
    · subst hij
      have hindex' : (pcb.setEntry j index d).openIndexes j = index := Function.update_self ..
      have hfd : (pcb.setEntry j index d).fdArray (j + 2) = d := Function.update_self ..
      rw [hindex', hfd]
      rcases hsame with ⟨hindex, hflags, -⟩ | ⟨hindex, hflags⟩
      · exact Or.inl ⟨hindex, hflags⟩
      · exact Or.inr ⟨hindex, hflags⟩
    · have hindex' : (pcb.setEntry i index d).openIndexes j = pcb.openIndexes j :=
        Function.update_of_ne hij ..
      have hfd : (pcb.setEntry i index d).fdArray (j + 2) = pcb.fdArray (j + 2) :=
        Function.update_of_ne (by omega) ..
      rw [hindex', hfd]
      exact h.occupied j hj0 hj
  · have hfull' : (Function.update pcb.fdArray (i + 2) d fd).flags = full := hfull
    show ∃ kind, (Function.update pcb.fdArray (i + 2) d fd).jumpTable = some kind
    by_cases hfd : fd = i + 2
    · subst hfd
      rw [Function.update_self] at hfull' ⊢
      rcases hsame with ⟨-, -, hkind⟩ | ⟨-, hflags⟩
      · exact hkind
      · exact absurd (hfull'.symm.trans hflags) full_ne_empty
    · rw [Function.update_of_ne hfd] at hfull' ⊢
      exact h.driver fd h2 h7 hfull'
  · show (Function.update pcb.fdArray (i + 2) d fd).flags = full ∧
      (Function.update pcb.fdArray (i + 2) d fd).jumpTable = some .terminal
    rw [Function.update_of_ne (by omega)]
    exact h.standard fd hfd

theorem table_setEntry_of_ne {i index fd : Int} {d : FileDescriptor} (h : fd ≠ i + 2) :
    (pcb.setEntry i index d).table fd = pcb.table fd := by
  have hfd : (pcb.setEntry i index d).fdArray fd = pcb.fdArray fd := Function.update_of_ne h ..
  unfold table
  rw [hfd]

theorem table_setEntry {i index : Int} {d : FileDescriptor} (h0 : 0 ≤ i) (hi : i < 6) :
    (pcb.setEntry i index d).table (i + 2) =
      if d.flags = full then d.jumpTable.map fun kind =>
        { kind, inode := d.inodeCheck, position := d.filePosition } else none := by
  have hfd : (pcb.setEntry i index d).fdArray (i + 2) = d := Function.update_self ..
  unfold table
  rw [hfd]
  by_cases hflags : d.flags = full
  · rw [if_pos ⟨by omega, by omega, hflags⟩, if_pos hflags]
  · rw [if_neg (fun hin => hflags hin.2.2), if_neg hflags]

/-- Opening a descriptor adds one entry to the map. -/
theorem table_setEntry_full {i index : Int} {d : FileDescriptor} {kind : Driver} (h0 : 0 ≤ i)
    (hi : i < 6) (hflags : d.flags = full) (hkind : d.jumpTable = some kind) :
    (pcb.setEntry i index d).table = Function.update pcb.table (i + 2)
      (some { kind, inode := d.inodeCheck, position := d.filePosition }) := by
  funext fd
  by_cases hfd : fd = i + 2
  · rw [hfd, Function.update_self, table_setEntry h0 hi, if_pos hflags, hkind]
    rfl
  · rw [Function.update_of_ne hfd, table_setEntry_of_ne hfd]

/-- Closing a descriptor removes one. -/
theorem table_setEntry_empty {i index : Int} {d : FileDescriptor} (h0 : 0 ≤ i) (hi : i < 6)
    (hflags : d.flags = empty) :
    (pcb.setEntry i index d).table = Function.update pcb.table (i + 2) none := by
  funext fd
  by_cases hfd : fd = i + 2
  · have hne : d.flags ≠ full := by
      rw [hflags]
      exact full_ne_empty.symm
    rw [hfd, Function.update_self, table_setEntry h0 hi, if_neg hne]
  · rw [Function.update_of_ne hfd, table_setEntry_of_ne hfd]

/-- The position of a descriptor moved. -/
def setPosition (fd position : Int) (pcb : PCB) : PCB :=
  { pcb with
    fdArray := Function.update pcb.fdArray fd { pcb.fdArray fd with filePosition := position } }

theorem setPosition_fdArray_of_ne {fd fd' position : Int} (h : fd' ≠ fd) :
    (pcb.setPosition fd position).fdArray fd' = pcb.fdArray fd' := Function.update_of_ne h ..

theorem setPosition_fdArray (pcb : PCB) (fd fd' position : Int) :
    ((pcb.setPosition fd position).fdArray fd').flags = (pcb.fdArray fd').flags ∧
      ((pcb.setPosition fd position).fdArray fd').jumpTable = (pcb.fdArray fd').jumpTable ∧
      ((pcb.setPosition fd position).fdArray fd').inodeCheck = (pcb.fdArray fd').inodeCheck := by
  by_cases hfd : fd' = fd
  · have hself : (pcb.setPosition fd position).fdArray fd
        = { pcb.fdArray fd with filePosition := position } := Function.update_self ..
    rw [hfd, hself]
    exact ⟨rfl, rfl, rfl⟩
  · rw [setPosition_fdArray_of_ne hfd]
    exact ⟨rfl, rfl, rfl⟩

theorem Consistent.setPosition (h : pcb.Consistent) (fd position : Int) :
    (pcb.setPosition fd position).Consistent := by
  have hsame := fun fd' => setPosition_fdArray pcb fd fd' position
  refine ⟨fun i h0 hi => ?_, fun fd' h2 h7 hfull => ?_, fun fd' hfd' => ?_⟩
  · rw [(hsame (i + 2)).1]
    exact h.occupied i h0 hi
  · rw [(hsame fd').1] at hfull
    rw [(hsame fd').2.1]
    exact h.driver fd' h2 h7 hfull
  · rw [(hsame fd').1, (hsame fd').2.1]
    exact h.standard fd' hfd'

theorem table_setPosition_of_ne {fd fd' position : Int} (h : fd' ≠ fd) :
    (pcb.setPosition fd position).table fd' = pcb.table fd' := by
  unfold table
  rw [setPosition_fdArray_of_ne h]

/-- Moving a position leaves open what was open, on the same file. -/
theorem table_setPosition (fd fd' position : Int) :
    ((pcb.setPosition fd position).table fd').map (fun f => (f.kind, f.inode))
      = (pcb.table fd').map (fun f => (f.kind, f.inode)) := by
  obtain ⟨hflags, hkind, hinode⟩ := setPosition_fdArray pcb fd fd' position
  unfold table
  rw [hflags, hkind, hinode]
  split
  · rw [Option.map_map, Option.map_map]
    rfl
  · rfl

/-- The block that `execute` leaves is consistent, whatever the slot held. -/
theorem freshPcb_consistent (parent : Pid) (eip : Nat) (old : PCB) :
    (Kernel.freshPcb parent eip old).Consistent := by
  refine ⟨fun i h0 hi => Or.inr ⟨if_pos ⟨h0, hi⟩, ?_⟩, fun fd h2 h7 hfull => ?_, fun fd hfd => ?_⟩
  · have hfd : (Kernel.freshPcb parent eip old).fdArray (i + 2)
        = { old.fdArray (i + 2) with flags := empty } := by
      unfold Kernel.freshPcb
      dsimp only
      rw [if_neg (by omega), if_pos (by omega)]
    rw [hfd]
  · have hfd : (Kernel.freshPcb parent eip old).fdArray fd
        = { old.fdArray fd with flags := empty } := by
      unfold Kernel.freshPcb
      dsimp only
      rw [if_neg (by omega), if_pos (by omega)]
    rw [hfd] at hfull
    exact absurd hfull.symm full_ne_empty
  · have hfd' : (Kernel.freshPcb parent eip old).fdArray fd
        = { old.fdArray fd with jumpTable := some .terminal, inodeCheck := 0, flags := full } := by
      unfold Kernel.freshPcb
      dsimp only
      rw [if_pos hfd]
    rw [hfd']
    exact ⟨rfl, rfl⟩

end PCB

namespace Kernel

/-! ## Assignments to a block -/

theorem setPcb_currPid (p : Pid) (pcb : PCB) (k : Kernel) : (k.setPcb p pcb).currPid = k.currPid :=
  rfl

theorem callerPcb_setPcb (k : Kernel) (pcb : PCB) : (k.setPcb k.currPid pcb).callerPcb = pcb :=
  Function.update_self ..

/-- Two assignments to the block of one process. -/
theorem setPcb_setPcb (p : Pid) (pcb pcb' : PCB) (k : Kernel) :
    (k.setPcb p pcb).setPcb p pcb' = k.setPcb p pcb' := by
  unfold setPcb
  dsimp only
  rw [Function.update_idem]

theorem setOpenIndex_setFd (i index : Int) (d : FileDescriptor) (k : Kernel) :
    (k.setOpenIndex i index).setFd (i + 2) d
      = k.setPcb k.currPid (k.callerPcb.setEntry i index d) := by
  unfold setOpenIndex setFd
  rw [callerPcb_setPcb, setPcb_currPid, setPcb_setPcb]
  rfl

/-! ## `open` -/

theorem openIndex_eq_some {f : Int → Int} {i : Int} (h : openIndex f = some i) :
    0 ≤ i ∧ i < 6 ∧ f i = empty ∧ ∀ j, 0 ≤ j → j < i → f j ≠ empty := by
  unfold openIndex at h
  rw [List.find?_map, Option.map_eq_some_iff] at h
  obtain ⟨n, hn, rfl⟩ := h
  obtain ⟨hempty, hmem, hfirst⟩ := List.find?_range_eq_some.mp hn
  have hlt := List.mem_range.mp hmem
  refine ⟨Int.natCast_nonneg n, by omega, of_decide_eq_true hempty, fun j hj0 hj hfree => ?_⟩
  have hnot := hfirst j.toNat (by omega)
  have hcast : ((j.toNat : Nat) : Int) = j := Int.toNat_of_nonneg hj0
  simp only [Function.comp_apply, hcast, hfree, decide_true, Bool.not_true] at hnot
  exact absurd hnot (by decide)

theorem openIndex_eq_none {f : Int → Int} (h : openIndex f = none) {i : Int} (h0 : 0 ≤ i)
    (hi : i < 6) : f i ≠ empty := by
  unfold openIndex at h
  have hmem : i ∈ (List.range 6).map fun n : Nat => (n : Int) :=
    List.mem_map.mpr ⟨i.toNat, List.mem_range.mpr (by omega), Int.toNat_of_nonneg h0⟩
  have hnot := List.find?_eq_none.mp h i hmem
  exact fun hempty => hnot (decide_eq_true hempty)

/-- What `open` does to the control blocks. -/
theorem openFile_cases (fname : Bytes) (garbage : Image.Dentry) (k : Kernel) :
    ((k.openFile fname garbage).2 = -1 ∧ (k.openFile fname garbage).1.tab.pcb = k.tab.pcb ∧
      (k.img.readDentryByName fname garbage = none ∨
        openIndex k.callerPcb.openIndexes = none)) ∨
    ∃ dentry i, k.img.readDentryByName fname garbage = some dentry ∧
      openIndex k.callerPcb.openIndexes = some i ∧
      (k.openFile fname garbage).2 = i + 2 ∧
      (k.openFile fname garbage).1.tab.pcb = Function.update k.tab.pcb k.currPid
        (k.callerPcb.setEntry i full
          { jumpTable := driverOf dentry.filetype (k.callerPcb.fdArray (i + 2)).jumpTable
            inodeCheck := dentry.inodeNum
            filePosition := 0
            flags := full }) := by
  have hcaller : k.setCurrPcb.callerPcb = k.callerPcb := rfl
  unfold openFile
  cases hfound : k.img.readDentryByName fname garbage with
  | none => exact Or.inl ⟨rfl, rfl, Or.inl rfl⟩
  | some dentry =>
    dsimp only
    rw [hcaller]
    cases hindex : openIndex k.callerPcb.openIndexes with
    | none => exact Or.inl ⟨rfl, rfl, Or.inr rfl⟩
    | some i =>
      refine Or.inr ⟨dentry, i, rfl, rfl, rfl, ?_⟩
      dsimp only
      rw [setOpenIndex_setFd]
      split <;> rfl

/-- What `close` does to the control blocks. -/
theorem closeFile_cases (fd : Int) (k : Kernel) :
    ((k.closeFile fd).2 = -1 ∧ (k.closeFile fd).1.tab.pcb = k.tab.pcb ∧
      (fd < 2 ∨ fd > 7 ∨ (k.callerPcb.fdArray fd).flags = empty)) ∨
    ((k.closeFile fd).2 = 0 ∧ 2 ≤ fd ∧ fd ≤ 7 ∧ (k.callerPcb.fdArray fd).flags ≠ empty ∧
      (k.closeFile fd).1.tab.pcb = Function.update k.tab.pcb k.currPid
        (k.callerPcb.setEntry (fd - 2) empty
          { k.callerPcb.fdArray fd with flags := empty, filePosition := 0 })) := by
  have hcaller : k.setCurrPcb.callerPcb = k.callerPcb := rfl
  unfold closeFile
  dsimp only
  rw [hcaller]
  split
  · rename_i hbad
    exact Or.inl ⟨rfl, rfl, hbad⟩
  · rename_i hgood
    obtain ⟨h2, h7, hflags⟩ : ¬ fd < 2 ∧ ¬ fd > 7 ∧ (k.callerPcb.fdArray fd).flags ≠ empty :=
      ⟨fun h => hgood (Or.inl h), fun h => hgood (Or.inr (Or.inl h)),
        fun h => hgood (Or.inr (Or.inr h))⟩
    have hset := setOpenIndex_setFd (fd - 2) empty
      { k.callerPcb.fdArray fd with flags := empty, filePosition := 0 } k.setCurrPcb
    have hfd : fd - 2 + 2 = fd := by omega
    rw [hfd] at hset
    refine Or.inr ⟨rfl, by omega, by omega, hflags, ?_⟩
    show ((k.setCurrPcb.setOpenIndex (fd - 2) empty).setFd fd _).tab.pcb = _
    rw [hset]
    rfl

theorem readFile_pcb (fd nbytes : Int) (k : Kernel) :
    (k.readFile fd nbytes).1.tab.pcb = k.tab.pcb ∨
      ∃ position, (k.readFile fd nbytes).1.tab.pcb
        = Function.update k.tab.pcb k.currPid (k.callerPcb.setPosition fd position) := by
  unfold readFile
  dsimp only
  split
  · split
    · exact Or.inl rfl
    · exact Or.inr ⟨_, rfl⟩
  · exact Or.inl rfl

theorem readDirectory_pcb (fd : Int) (k : Kernel) :
    (k.readDirectory fd).1.tab.pcb = k.tab.pcb ∨
      ∃ position, (k.readDirectory fd).1.tab.pcb
        = Function.update k.tab.pcb k.currPid (k.callerPcb.setPosition fd position) := by
  unfold readDirectory
  dsimp only
  split
  · split
    · exact Or.inr ⟨_, rfl⟩
    · exact Or.inr ⟨_, rfl⟩
  · exact Or.inl rfl

theorem readTerminal_pcb (nbytes : Int) (k : Kernel) :
    (k.readTerminal nbytes).1.tab.pcb = k.tab.pcb := by
  unfold readTerminal
  split <;> rfl

/-- A read at most moves the position of its descriptor. -/
theorem read_pcb (fd nbytes : Int) (k : Kernel) :
    (k.read fd nbytes).1.tab.pcb = k.tab.pcb ∨
      ∃ position, (k.read fd nbytes).1.tab.pcb
        = Function.update k.tab.pcb k.currPid (k.callerPcb.setPosition fd position) := by
  unfold read
  split
  · exact Or.inl rfl
  · split
    · exact Or.inl rfl
    · dsimp only
      split
      · split
        · exact Or.inl (readTerminal_pcb nbytes k.sti.setCurrPcb)
        · exact Or.inl rfl
        · exact readDirectory_pcb fd k.sti.setCurrPcb
        · exact readFile_pcb fd nbytes k.sti.setCurrPcb
        · exact Or.inl rfl
      · exact Or.inl rfl

theorem write_pcb (fd : Int) (buf : List UInt8) (k : Kernel) :
    (k.write fd buf).1.tab.pcb = k.tab.pcb := by
  unfold write
  dsimp only
  split
  · rfl
  · split
    · split <;> rfl
    · rfl

/-- A read or a write of what is not open fails. -/
theorem read_eq_fails {k : Kernel} {fd : Int}
    (h : fd < 0 ∨ 7 < fd ∨ (k.callerPcb.fdArray fd).flags ≠ full) (nbytes : Int) :
    (k.read fd nbytes).2 = .value (-1) [] := by
  have hcaller : k.sti.setCurrPcb.callerPcb = k.callerPcb := rfl
  unfold read
  split
  · rfl
  · split
    · rfl
    · rename_i hin
      dsimp only
      rw [hcaller, if_neg (by omega)]

theorem write_eq_fails {k : Kernel} {fd : Int}
    (h : fd < 0 ∨ 7 < fd ∨ (k.callerPcb.fdArray fd).flags ≠ full) (buf : List UInt8) :
    (k.write fd buf).2 = -1 := by
  have hcaller : k.sti.setCurrPcb.callerPcb = k.callerPcb := rfl
  unfold write
  dsimp only
  split
  · rfl
  · rw [hcaller, if_neg (by omega)]

theorem Aside.currPid {k k' : Kernel} (h : Aside k k') : k'.currPid = k.currPid := by
  show k'.core.currPidForTerm k'.scheduledTerm = k.core.currPidForTerm k.scheduledTerm
  rw [h.core, h.scheduledTerm]

/-! ## Blocks that a step leaves alone -/

/-- Two blocks with the same descriptor table. -/
def SameTable (pcb pcb' : PCB) : Prop :=
  pcb'.openIndexes = pcb.openIndexes ∧ pcb'.fdArray = pcb.fdArray

theorem SameTable.consistent {pcb pcb' : PCB} (h : SameTable pcb pcb') (hpcb : pcb.Consistent) :
    pcb'.Consistent := by
  refine ⟨fun i h0 hi => ?_, fun fd h2 h7 hfull => ?_, fun fd hfd => ?_⟩
  · rw [h.1, h.2]
    exact hpcb.occupied i h0 hi
  · rw [h.2] at hfull ⊢
    exact hpcb.driver fd h2 h7 hfull
  · rw [h.2]
    exact hpcb.standard fd hfd

theorem launched_sameTable (call : ExecCall) {p q : Pid} (image : List UInt8) (r : Regs)
    (k : Kernel) (h : q ≠ p) : SameTable (k.tab.pcb q) ((k.launched call p image r).tab.pcb q) := by
  unfold launched launch
  dsimp only [loadImage, allocate, setArgs]
  rw [Video.vidmapCopy_currentTerminal]
  split
  · rw [Function.update_of_ne h]
    exact ⟨rfl, rfl⟩
  · by_cases hparent : q = Function.update k.tab.parentPidForTerm k.con.vid.currentTerminal
        (k.tab.currPidForTerm k.con.vid.currentTerminal) k.con.vid.currentTerminal
    · rw [← hparent, Function.update_self, Function.update_of_ne h]
      exact ⟨rfl, rfl⟩
    · rw [Function.update_of_ne hparent, Function.update_of_ne h]
      exact ⟨rfl, rfl⟩

/-- The table of the process that a call of `execute` starts. -/
theorem launched_fresh (call : ExecCall) (p : Pid) (image : List UInt8) (r : Regs) (k : Kernel) :
    SameTable (freshPcb p 0 (k.tab.pcb p)) ((k.launched call p image r).tab.pcb p) := by
  unfold launched launch
  dsimp only [loadImage, allocate, setArgs]
  rw [Video.vidmapCopy_currentTerminal]
  split
  · rw [Function.update_self]
    exact ⟨rfl, rfl⟩
  · by_cases hparent : p = Function.update k.tab.parentPidForTerm k.con.vid.currentTerminal
        (k.tab.currPidForTerm k.con.vid.currentTerminal) k.con.vid.currentTerminal
    · rw [← hparent, Function.update_self, Function.update_self]
      exact ⟨rfl, rfl⟩
    · rw [Function.update_of_ne hparent, Function.update_self]
      exact ⟨rfl, rfl⟩

theorem launched_consistent (call : ExecCall) (p : Pid) (image : List UInt8) (r : Regs)
    (k : Kernel) : ((k.launched call p image r).tab.pcb p).Consistent :=
  (launched_fresh call p image r k).consistent (PCB.freshPcb_consistent p 0 _)

theorem halt_pcb (k : Kernel) : k.halt.tab.pcb = k.tab.pcb := by
  unfold halt
  dsimp only
  split <;> rfl

theorem resume_pcb (k : Kernel) : k.resume.tab.pcb = k.tab.pcb := by
  unfold resume
  dsimp only
  split <;> rfl

theorem preempted_sameTable (r : Regs) (k : Kernel) (q : Pid) :
    SameTable (k.tab.pcb q) ((k.preempted r).tab.pcb q) := by
  show SameTable (k.tab.pcb q)
    (Function.update k.tab.pcb k.currPid { k.callerPcb with scheduled := r } q)
  by_cases hq : q = k.currPid
  · rw [hq, Function.update_self]
    exact ⟨rfl, rfl⟩
  · rw [Function.update_of_ne hq]
    exact ⟨rfl, rfl⟩

/-- The event starts process `p`, in a call of `execute` or of the timer. -/
def Restarts (k : Kernel) (e : Event) (p : Pid) : Prop :=
  k.StartsProgram e p ∨ ∃ r, e = .tick r ∧ (k.preempted r).WaitsForShell ∧
    ((k.preempted r).startShell (k.preempted r).scheduledTerm r).2 = .starts p

/-- The event is a call on a descriptor. -/
def Event.OnDescriptor : Event → Prop
  | .read _ _ => True
  | .write _ _ => True
  | .openFile _ _ => True
  | .closeFile _ => True
  | _ => False

/-- A call of `execute` touches no table but that of the process that it starts. -/
theorem execute_sameTable {k k' : Kernel} {call : ExecCall} {r : Regs} {q : Pid}
    (hq : (k.execute call r).2 ≠ .starts q) (h : k.step (.execute call r) = some k') :
    SameTable (k.tab.pcb q) (k'.tab.pcb q) := by
  rcases execute_step h with ⟨p, image, -, hout, hk⟩ | hrefused | ⟨p, image, -, hk⟩
  · have hne : q ≠ p := fun e => hq (e ▸ hout)
    rw [hk]
    exact launched_sameTable call image r k hne
  · rw [hrefused.tab]
    exact ⟨rfl, rfl⟩
  · rw [hk, halt_pcb, faulted_pcb]
    exact ⟨rfl, rfl⟩

/-- No other event touches the table of a process that it does not start. -/
theorem step_sameTable {k k' : Kernel} {e : Event} {q : Pid} (he : ¬ e.OnDescriptor)
    (hq : ¬ k.Restarts e q) (h : k.step e = some k') : SameTable (k.tab.pcb q) (k'.tab.pcb q) := by
  cases e with
  | tick r =>
    have hpre := preempted_sameTable r k q
    by_cases hwaits : (k.preempted r).WaitsForShell
    · have hstep : k.pitHandler r = some k' := h
      rw [pitHandler_shell hwaits] at hstep
      have hready : ((k.preempted r).shellReady (k.preempted r).scheduledTerm).tab.pcb q
          = (k.preempted r).tab.pcb q := by
        unfold shellReady onConsole
        rfl
      have hcall := execute_sameTable (fun e => hq (Or.inr ⟨r, rfl, hwaits, e⟩))
        (step_of_unlessFaults hstep)
      rw [hready] at hcall
      exact ⟨hcall.1.trans hpre.1, hcall.2.trans hpre.2⟩
    · have hstep : k.pitHandler r = some k' := h
      rw [pitHandler_resume hwaits, Option.some.injEq] at hstep
      rw [← hstep, resume_pcb]
      exact hpre
  | execute call r => exact execute_sameTable (fun e => hq (Or.inl ⟨call, r, rfl, e⟩)) h
  | halt status =>
    cases h
    rw [halt_pcb]
    exact ⟨rfl, rfl⟩
  | readDone nbytes =>
    unfold step at h
    dsimp only at h
    obtain ⟨⟨con, result⟩, -, rfl⟩ := Option.map_eq_some_iff.mp h
    exact ⟨rfl, rfl⟩
  | vidmap screenStart =>
    cases h
    unfold vidmap
    split
    · exact ⟨rfl, rfl⟩
    · split <;> exact ⟨rfl, rfl⟩
  | key scan =>
    cases h
    exact ⟨rfl, rfl⟩
  | rtc =>
    cases h
    exact ⟨rfl, rfl⟩
  | getargs nbytes =>
    cases h
    exact ⟨rfl, rfl⟩
  | vidmapStore offset b =>
    cases h
    exact ⟨rfl, rfl⟩
  | read fd nbytes => exact absurd trivial he
  | write fd buf => exact absurd trivial he
  | openFile fname garbage => exact absurd trivial he
  | closeFile fd => exact absurd trivial he

/-- A call on a descriptor touches no block but its caller's. -/
theorem onDescriptor_pcb_of_ne {k k' : Kernel} {e : Event} (he : e.OnDescriptor)
    (h : k.step e = some k') {q : Pid} (hq : q ≠ k.currPid) : k'.tab.pcb q = k.tab.pcb q := by
  cases e with
  | read fd nbytes =>
    cases h
    rcases read_pcb fd nbytes k with hsame | ⟨position, hmoved⟩
    · rw [hsame]
    · rw [hmoved, Function.update_of_ne hq]
  | write fd buf =>
    cases h
    rw [write_pcb]
  | openFile fname garbage =>
    cases h
    rcases openFile_cases fname garbage k with ⟨-, hsame, -⟩ | ⟨dentry, i, -, -, -, hset⟩
    · rw [hsame]
    · rw [hset, Function.update_of_ne hq]
  | closeFile fd =>
    cases h
    rcases closeFile_cases fd k with ⟨-, hsame, -⟩ | ⟨-, -, -, -, hset⟩
    · rw [hsame]
    · rw [hset, Function.update_of_ne hq]
  | _ => exact absurd he id

/-! ## The calls keep the table consistent -/

theorem found_driver {img : Image} (hwf : img.WellFormed) {fname : Bytes}
    {old dentry : Image.Dentry} (h : img.readDentryByName fname old = some dentry) :
    ∃ kind, ∀ driver, driverOf dentry.filetype driver = some kind := by
  obtain ⟨i, h0, hi, htype, -⟩ := Image.exists_entry h
  rcases hwf.types i h0 hi with h | h | h
  · exact ⟨.rtc, fun driver => by rw [htype, h]; rfl⟩
  · exact ⟨.directory, fun driver => by rw [htype, h]; rfl⟩
  · exact ⟨.file, fun driver => by rw [htype, h]; rfl⟩

theorem onDescriptor_consistent {k k' : Kernel} {e : Event} (hwf : k.img.WellFormed)
    (he : e.OnDescriptor) (h : k.step e = some k') (hpcb : k.callerPcb.Consistent) :
    (k'.tab.pcb k.currPid).Consistent := by
  cases e with
  | read fd nbytes =>
    cases h
    rcases read_pcb fd nbytes k with hsame | ⟨position, hmoved⟩
    · rw [hsame]
      exact hpcb
    · rw [hmoved, Function.update_self]
      exact hpcb.setPosition fd position
  | write fd buf =>
    cases h
    rw [write_pcb]
    exact hpcb
  | openFile fname garbage =>
    cases h
    rcases openFile_cases fname garbage k with
      ⟨-, hsame, -⟩ | ⟨dentry, i, hfound, hindex, -, hset⟩
    · rw [hsame]
      exact hpcb
    · obtain ⟨h0, hi, -, -⟩ := openIndex_eq_some hindex
      obtain ⟨kind, hkind⟩ := found_driver hwf hfound
      rw [hset, Function.update_self]
      exact hpcb.setEntry h0 hi (Or.inl ⟨rfl, rfl, kind, hkind _⟩)
  | closeFile fd =>
    cases h
    rcases closeFile_cases fd k with ⟨-, hsame, -⟩ | ⟨-, h2, h7, -, hset⟩
    · rw [hsame]
      exact hpcb
    · rw [hset, Function.update_self]
      exact hpcb.setEntry (by omega) (by omega) (Or.inr ⟨rfl, rfl⟩)
  | _ => exact absurd he id

theorem step_consistent {k k' : Kernel} {e : Event} {p : Pid} (hwf : k.img.WellFormed)
    (hp : ¬ k.Restarts e p) (h : k.step e = some k') (hpcb : (k.tab.pcb p).Consistent) :
    (k'.tab.pcb p).Consistent := by
  by_cases he : e.OnDescriptor
  · by_cases hcaller : p = k.currPid
    · rw [hcaller] at hpcb ⊢
      exact onDescriptor_consistent hwf he h hpcb
    · rw [onDescriptor_pcb_of_ne he h hcaller]
      exact hpcb
  · exact (step_sameTable he hp h).consistent hpcb

/-! ## The calls refine operations on a map -/

/-- The descriptor is the least one that is free. -/
def IsLeastFree (table : Int → Option OpenFile) (fd : Int) : Prop :=
  2 ≤ fd ∧ fd ≤ 7 ∧ table fd = none ∧ ∀ fd', 2 ≤ fd' → fd' < fd → table fd' ≠ none

structure OpenSpec (k : Kernel) (fname : Bytes) (garbage : Image.Dentry) : Prop where
  fails_iff : (k.openFile fname garbage).2 = -1 ↔
    k.img.readDentryByName fname garbage = none ∨
      ∀ fd, 2 ≤ fd → fd ≤ 7 → k.callerPcb.table fd ≠ none
  unchanged : (k.openFile fname garbage).2 = -1 →
    (k.openFile fname garbage).1.callerPcb.table = k.callerPcb.table
  least : (k.openFile fname garbage).2 ≠ -1 →
    IsLeastFree k.callerPcb.table (k.openFile fname garbage).2
  opened : (k.openFile fname garbage).2 ≠ -1 → ∃ dentry kind,
    k.img.readDentryByName fname garbage = some dentry ∧
    driverOf dentry.filetype none = some kind ∧
    (k.openFile fname garbage).1.callerPcb.table = Function.update k.callerPcb.table
      (k.openFile fname garbage).2 (some { kind, inode := dentry.inodeNum, position := 0 })

structure CloseSpec (k : Kernel) (fd : Int) : Prop where
  returns : (k.closeFile fd).2 = (k.callerPcb.table fd).elim (-1) fun _ => 0
  closed : (k.closeFile fd).1.callerPcb.table = Function.update k.callerPcb.table fd none

/-- A descriptor that is out of range or not open. -/
def NotOpen (k : Kernel) (fd : Int) : Prop :=
  fd < 0 ∨ 7 < fd ∨ 2 ≤ fd ∧ k.callerPcb.table fd = none

structure ReadSpec (k : Kernel) (fd nbytes : Int) : Prop where
  fails : k.NotOpen fd → (k.read fd nbytes).2 = .value (-1) []
  others : ∀ fd', fd' ≠ fd → (k.read fd nbytes).1.callerPcb.table fd' = k.callerPcb.table fd'
  same : ((k.read fd nbytes).1.callerPcb.table fd).map (fun f => (f.kind, f.inode))
    = (k.callerPcb.table fd).map (fun f => (f.kind, f.inode))

structure WriteSpec (k : Kernel) (fd : Int) (buf : List UInt8) : Prop where
  fails : k.NotOpen fd → (k.write fd buf).2 = -1
  unchanged : (k.write fd buf).1.callerPcb.table = k.callerPcb.table

/-- The descriptor table of the calling process is a map on the descriptors 2 to 7,
and the calls are operations on it. -/
structure RefinesMap (k : Kernel) : Prop where
  occupied : ∀ i, 0 ≤ i → i < 6 →
    (k.callerPcb.openIndexes i = full ↔ (k.callerPcb.fdArray (i + 2)).flags = full)
  opens : ∀ fname garbage, k.OpenSpec fname garbage
  closes : ∀ fd, k.CloseSpec fd
  reads : ∀ fd nbytes, k.ReadSpec fd nbytes
  writes : ∀ fd buf, k.WriteSpec fd buf
  /-- No call touches the table of another process. -/
  others : ∀ e k', e.OnDescriptor → k.step e = some k' →
    ∀ q, q ≠ k.currPid → (k'.tab.pcb q).table = (k.tab.pcb q).table

/-- The caller's block after a call that leaves the caller scheduled. -/
theorem callerPcb_of_aside {k k' : Kernel} (h : Aside k k') :
    k'.callerPcb = k'.tab.pcb k.currPid := by
  show k'.tab.pcb k'.currPid = _
  rw [h.currPid]

variable {k : Kernel}

theorem openSpec (hwf : k.img.WellFormed) (h : k.callerPcb.Consistent) (fname : Bytes)
    (garbage : Image.Dentry) : k.OpenSpec fname garbage := by
  have hafter := callerPcb_of_aside (aside_openFile fname garbage k)
  rcases openFile_cases fname garbage k with
    ⟨hret, hsame, hwhy⟩ | ⟨dentry, i, hfound, hindex, hret, hset⟩
  · have htable : (k.openFile fname garbage).1.callerPcb.table = k.callerPcb.table := by
      rw [hafter, hsame]
      rfl
    refine ⟨⟨fun _ => ?_, fun _ => hret⟩, fun _ => htable, fun hne => absurd hret hne,
      fun hne => absurd hret hne⟩
    rcases hwhy with hnone | htaken
    · exact Or.inl hnone
    · refine Or.inr fun fd h2 h7 hfree => ?_
      have hfd : fd - 2 + 2 = fd := by omega
      have hfree' := (h.table_eq_none_iff (i := fd - 2) (by omega) (by omega)).mp (hfd.symm ▸ hfree)
      exact openIndex_eq_none htaken (by omega) (by omega) hfree'
  · obtain ⟨h0, hi, hempty, hfirst⟩ := openIndex_eq_some hindex
    obtain ⟨kind, hkind⟩ := found_driver hwf hfound
    have hne : (k.openFile fname garbage).2 ≠ -1 := by
      rw [hret]
      omega
    have hfree : k.callerPcb.table (i + 2) = none := (h.table_eq_none_iff h0 hi).mpr hempty
    refine ⟨⟨fun hfail => absurd hfail hne, ?_⟩, fun hfail => absurd hfail hne, fun _ => ?_,
      fun _ => ⟨dentry, kind, hfound, hkind none, ?_⟩⟩
    · rintro (hnone | htaken)
      · rw [hfound] at hnone
        cases hnone
      · exact absurd hfree (htaken (i + 2) (by omega) (by omega))
    · rw [hret]
      refine ⟨by omega, by omega, hfree, fun fd h2 hlt hnone => ?_⟩
      have hfd : fd - 2 + 2 = fd := by omega
      have hempty' := (h.table_eq_none_iff (i := fd - 2) (by omega) (by omega)).mp
        (hfd.symm ▸ hnone)
      exact hfirst (fd - 2) (by omega) (by omega) hempty'
    · rw [hafter, hset, Function.update_self, hret]
      exact PCB.table_setEntry_full h0 hi rfl (hkind _)

theorem closeSpec (h : k.callerPcb.Consistent) (fd : Int) : k.CloseSpec fd := by
  have hafter := callerPcb_of_aside (aside_closeFile fd k)
  rcases closeFile_cases fd k with ⟨hret, hsame, hwhy⟩ | ⟨hret, h2, h7, hflags, hset⟩
  · have hnone : k.callerPcb.table fd = none := by
      by_cases hin : 2 ≤ fd ∧ fd ≤ 7
      · exact (h.flags_eq_empty_iff hin.1 hin.2).mp (by
          rcases hwhy with hlt | hgt | hempty
          · omega
          · omega
          · exact hempty)
      · exact PCB.table_of_out (by omega)
    refine ⟨by rw [hret, hnone]; rfl, ?_⟩
    have htable : (k.closeFile fd).1.callerPcb.table = k.callerPcb.table := by
      rw [hafter, hsame]
      rfl
    rw [htable, ← hnone, Function.update_eq_self]
  · have hopen : k.callerPcb.table fd ≠ none := fun hnone =>
      hflags ((h.flags_eq_empty_iff h2 h7).mpr hnone)
    obtain ⟨f, hf⟩ := Option.ne_none_iff_exists'.mp hopen
    have hfd : fd - 2 + 2 = fd := by omega
    refine ⟨by rw [hret, hf]; rfl, ?_⟩
    rw [hafter, hset, Function.update_self, PCB.table_setEntry_empty (by omega) (by omega) rfl, hfd]

theorem NotOpen.flags (h : k.callerPcb.Consistent) {fd : Int} (hfd : k.NotOpen fd) :
    fd < 0 ∨ 7 < fd ∨ (k.callerPcb.fdArray fd).flags ≠ full := by
  rcases hfd with hlt | hgt | ⟨h2, hnone⟩
  · exact Or.inl hlt
  · exact Or.inr (Or.inl hgt)
  · by_cases h7 : fd ≤ 7
    · exact Or.inr (Or.inr (h.flags_ne_full h2 h7 hnone))
    · exact Or.inr (Or.inl (by omega))

theorem readSpec (h : k.callerPcb.Consistent) (fd nbytes : Int) : k.ReadSpec fd nbytes := by
  have hafter := callerPcb_of_aside (aside_read fd nbytes k)
  refine ⟨fun hfd => read_eq_fails (hfd.flags h) nbytes, fun fd' hne => ?_, ?_⟩
  · rw [hafter]
    rcases read_pcb fd nbytes k with hsame | ⟨position, hmoved⟩
    · rw [hsame]
      rfl
    · rw [hmoved, Function.update_self, PCB.table_setPosition_of_ne hne]
  · rw [hafter]
    rcases read_pcb fd nbytes k with hsame | ⟨position, hmoved⟩
    · rw [hsame]
      rfl
    · rw [hmoved, Function.update_self, PCB.table_setPosition]

theorem writeSpec (h : k.callerPcb.Consistent) (fd : Int) (buf : List UInt8) :
    k.WriteSpec fd buf := by
  have hafter := callerPcb_of_aside (aside_write fd buf k)
  refine ⟨fun hfd => write_eq_fails (hfd.flags h) buf, ?_⟩
  rw [hafter, write_pcb]
  rfl

theorem refinesMap (hwf : k.img.WellFormed) (h : k.callerPcb.Consistent) : k.RefinesMap where
  occupied := fun i h0 hi => h.full_iff h0 hi
  opens := openSpec hwf h
  closes := closeSpec h
  reads := readSpec h
  writes := writeSpec h
  others := fun e k' he hstep q hq => by rw [onDescriptor_pcb_of_ne he hstep hq]

/-- A process keeps a consistent block from its start on until its slot is taken again. -/
theorem reaches_consistent {k₀ k₁ : Kernel} {call : ExecCall} {r : Regs} {p : Pid}
    (hwf : k.img.WellFormed) (hcreated : k.execute call r = (k₀, .starts p))
    (hrun : Reaches step (fun k e => ¬ k.Restarts e p) k₀ k₁) :
    k₁.img.WellFormed ∧ (k₁.tab.pcb p).Consistent := by
  obtain ⟨image, hstart⟩ := execute_eq_starts (congrArg Prod.snd hcreated)
  have hk₀ : k.launched call p image r = k₀ := by
    rw [execute_starts hstart] at hcreated
    exact congrArg Prod.fst hcreated
  have hfirst : k₀.img.WellFormed ∧ (k₀.tab.pcb p).Consistent := by
    rw [← hk₀]
    exact ⟨hwf, launched_consistent call p image r k⟩
  refine hrun.invariant (I := fun k => k.img.WellFormed ∧ (k.tab.pcb p).Consistent) ?_ hfirst
  intro j e j' hj he hstep
  exact ⟨(step_img hstep).symm ▸ hj.1, step_consistent hj.1 he hstep hj.2⟩

/-- From the call of `execute` that starts a process on, and until its slot is taken
again, the descriptor table of the process is a finite map. -/
theorem descriptors_refine {k₀ k₁ : Kernel} {call : ExecCall} {r : Regs} {p : Pid}
    (hwf : k.img.WellFormed) (hcreated : k.execute call r = (k₀, .starts p))
    (hrun : Reaches step (fun k e => ¬ k.Restarts e p) k₀ k₁) :
    (k₁.tab.pcb p).Consistent ∧ (k₁.currPid = p → k₁.RefinesMap) := by
  obtain ⟨hwf₁, hpcb⟩ := reaches_consistent hwf hcreated hrun
  refine ⟨hpcb, fun hcurr => refinesMap hwf₁ ?_⟩
  show (k₁.tab.pcb k₁.currPid).Consistent
  rw [hcurr]
  exact hpcb

theorem not_restarts {e : Event} (he : e.OnDescriptor) (p : Pid) : ¬ k.Restarts e p := by
  rintro (⟨call, r, rfl, -⟩ | ⟨r, rfl, -⟩)
  · exact he
  · exact he

/-- The first shell after it has opened its own file. -/
def openedKernel : Kernel := (shellKernel.openFile shellName shellCall.garbage).1

theorem descriptors_refine_shell :
    (openedKernel.tab.pcb 0).Consistent ∧ (openedKernel.currPid = 0 → openedKernel.RefinesMap) :=
  descriptors_refine (k := init zeroRam shellImage) (p := 0) shellImage_wellFormed
    (execute_starts (hasShell_shellImage.starting (init_newestPid zeroRam shellImage)) _)
    (Reaches.step .refl (e := .openFile shellName shellCall.garbage)
      (not_restarts (e := .openFile shellName shellCall.garbage) trivial 0) rfl)

end Kernel

end StudentDistrib
