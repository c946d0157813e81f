import StudentDistrib.Kernel.Directory
import StudentDistrib.Kernel.Refusals

/-!
# What `execute` takes for an executable

The test is on four bytes that are read from the inode of the named entry.  It looks
neither at the type of the entry, and an entry of any type has an inode number, nor at
the length of the file, past which the read delivers the rest of the block.
-/

namespace StudentDistrib

open Machine

/-- A regular file that begins with the magic number and has the bytes of the entry
point. -/
structure Image.Dentry.IsExecutable (dentry : Image.Dentry) (img : Image) : Prop where
  regular : dentry.filetype = 2
  length : 28 ≤ img.inodeLength dentry.inodeNum
  magic : img.fileBytes dentry.inodeNum 0 4 = Kernel.elfMagic

namespace Kernel

variable {k : Kernel} {call : ExecCall} {dentry : Image.Dentry}

/-! ## Acceptance -/

/-- The entry that the command names. -/
def Names (k : Kernel) (call : ExecCall) (dentry : Image.Dentry) : Prop :=
  ∃ command, call.command = some command ∧
    k.img.readDentryByName (firstWord command call.stack) call.garbage = some dentry

theorem Names.unique {dentry' : Image.Dentry} (h : k.Names call dentry)
    (h' : k.Names call dentry') : dentry = dentry' := by
  obtain ⟨command, hcommand, hfound⟩ := h
  obtain ⟨command', hcommand', hfound'⟩ := h'
  cases hcommand.symm.trans hcommand'
  exact Option.some.inj (hfound.symm.trans hfound')

/-- The call takes a slot. -/
def Allocates (k : Kernel) (call : ExecCall) (r : Regs) : Prop :=
  ∃ p, k.tab.pcbArr p = false ∧ (k.execute call r).1.tab.pcbArr p = true

/-- The named entry passes the tests. -/
structure Accepts (k : Kernel) (call : ExecCall) (dentry : Image.Dentry) : Prop where
  named : k.Names call dentry
  free : newestPid k.tab.pcbArr ≠ none
  head : k.img.readData dentry.inodeNum 0 4 = some elfMagic

theorem startProgram_pcbArr (p : Pid) (inode : Int) (r : Regs) (k : Kernel) :
    (k.startProgram p inode r).1.tab.pcbArr = Function.update k.tab.pcbArr p true := by
  simp only [startProgram]
  split
  · rfl
  · split
    · rfl
    · rfl

/-- A call that accepts no entry leaves the slots alone. -/
theorem execute_pcbArr (h : ∀ dentry, ¬ k.Accepts call dentry) (r : Regs) :
    (k.execute call r).1.tab.pcbArr = k.tab.pcbArr := by
  cases hcommand : call.command with
  | none => rw [execute_null hcommand]
  | some command =>
    rcases execute_tab (k := k) hcommand r with htab | ⟨dentry, p, hfound, hfree, hhead, -⟩
    · rw [htab]
      rfl
    · have hsome : newestPid k.tab.pcbArr ≠ none := hfree ▸ Option.some_ne_none p
      exact absurd ⟨⟨command, hcommand, hfound⟩, hsome, hhead⟩ (h dentry)

theorem allocates_iff (r : Regs) : k.Allocates call r ↔ ∃ dentry, k.Accepts call dentry := by
  constructor
  · intro h
    by_contra hnone
    obtain ⟨p, hfree, htaken⟩ := h
    rw [execute_pcbArr (not_exists.mp hnone), hfree] at htaken
    cases htaken
  · intro h
    obtain ⟨dentry, ⟨command, hcommand, hfound⟩, hfree, hhead⟩ := h
    obtain ⟨p, hp⟩ := Option.ne_none_iff_exists'.mp hfree
    refine ⟨p, newestPid_free hp, ?_⟩
    rw [execute_program hcommand hfound hp hhead, startProgram_pcbArr]
    exact Function.update_self ..

/-! ## The entry point -/

theorem launch_eip (p : Pid) (r : Regs) (k : Kernel) : ((k.launch p r).tab.pcb p).eip =
    (Image.word (k.tab.userPage p) (programOffset + 24)).toNat := by
  simp only [launch]
  split
  · rw [Function.update_self]
    rfl
  · -- The parent's block is written last and keeps its entry point.
    have hkeeps : ∀ (pcb : Pid → PCB) (parent : Pid),
        (Function.update pcb parent { pcb parent with saved := r } p).eip = (pcb p).eip := by
      intro pcb parent
      have hsame : (fun q => (Function.update pcb parent { pcb parent with saved := r } q).eip)
          = fun q => (pcb q).eip := update_field_same PCB.eip rfl
      exact congrFun hsame p
    rw [hkeeps, Function.update_self]
    rfl

/-- The program page holds the image behind its offset. -/
theorem loadImage_userPage (p : Pid) {image : List UInt8} (k : Kernel) {i : Nat}
    (hi : i < image.length) (hroom : i < pageRoom) :
    (k.loadImage p image).tab.userPage p (programOffset + i) = image[i] := by
  have hpage : (k.loadImage p image).tab.userPage p (programOffset + i) =
      if (programOffset : Int) ≤ programOffset + i ∧
          (programOffset : Int) + i < programOffset + image.length ∧
          (programOffset : Int) + i < mb4 then
        Bytes.ofList image (programOffset + i - programOffset)
      else k.tab.userPage p (programOffset + i) :=
    congrFun (Function.update_self p _ k.tab.userPage) _
  have hin : (programOffset : Int) + i - programOffset = i := by omega
  have hend : (programOffset : Int) + i < mb4 := by
    have hsum : programOffset + pageRoom = mb4 := by decide
    omega
  rw [hpage, if_pos ⟨by omega, by omega, hend⟩, hin, Bytes.ofList_of_lt hi]

theorem launched_entry {inode : Int} {n : Nat} (hn : 28 ≤ n) (call : ExecCall) (p : Pid) (r : Regs)
    (k : Kernel) : ((k.launched call p (k.img.fileBytes inode 0 n) r).tab.pcb p).eip =
      (Image.word (k.img.fileByte inode) 24).toNat := by
  generalize hj : (k.setArgs (call.argsAfter k.tab.args)).allocate p = j
  have hbyte : ∀ i : Nat, i < 28 →
      (j.loadImage p (k.img.fileBytes inode 0 n)).tab.userPage p (programOffset + i)
        = k.img.fileByte inode i := by
    intro i hi
    have hlength : i < (k.img.fileBytes inode 0 n).length := by
      rw [Image.length_fileBytes]
      omega
    have hroom : 28 ≤ pageRoom := by decide
    rw [loadImage_userPage p j hlength (Nat.lt_of_lt_of_le hi hroom), Image.getElem_fileBytes, Int.zero_add]
  rw [launched, hj, launch_eip]
  have h24 := hbyte 24 (by omega)
  have h25 := hbyte 25 (by omega)
  have h26 := hbyte 26 (by omega)
  have h27 := hbyte 27 (by omega)
  generalize (j.loadImage p (k.img.fileBytes inode 0 n)).tab.userPage p = page at h24 h25 h26 h27
  have hword : page (programOffset + 24) = k.img.fileByte inode 24 ∧
      page (programOffset + 24 + 1) = k.img.fileByte inode (24 + 1) ∧
      page (programOffset + 24 + 2) = k.img.fileByte inode (24 + 2) ∧
      page (programOffset + 24 + 3) = k.img.fileByte inode (24 + 3) := ⟨h24, h25, h26, h27⟩
  obtain ⟨h0, h1, h2, h3⟩ := hword
  simp only [Image.word, h0, h1, h2, h3]

/-! ## Only executables -/

/-- If the call takes a slot then the named entry is an executable, and a program that
starts does so at the entry point in the file's own bytes. -/
def OnlyExecutables (k : Kernel) (call : ExecCall) (r : Regs) : Prop :=
  k.Allocates call r → ∃ dentry, k.Names call dentry ∧ dentry.IsExecutable k.img ∧
    ∀ p, (k.execute call r).2 = .starts p → ((k.execute call r).1.tab.pcb p).eip =
      (Image.word (k.img.fileByte dentry.inodeNum) 24).toNat

/-- What passes the tests is a regular file of at least 28 bytes. -/
def AcceptsFiles (k : Kernel) (call : ExecCall) : Prop :=
  ∀ dentry, k.Accepts call dentry →
    dentry.filetype = 2 ∧ 28 ≤ k.img.inodeLength dentry.inodeNum

theorem onlyExecutables_iff (hwf : k.img.WellFormed) (call : ExecCall) (r : Regs) :
    k.OnlyExecutables call r ↔ k.AcceptsFiles call := by
  constructor
  · intro h dentry haccepts
    obtain ⟨dentry', hnamed, hexec, -⟩ := h ((allocates_iff r).mpr ⟨dentry, haccepts⟩)
    rw [haccepts.named.unique hnamed]
    exact ⟨hexec.regular, hexec.length⟩
  · intro h hallocates
    obtain ⟨dentry, haccepts⟩ := (allocates_iff r).mp hallocates
    obtain ⟨htype, hlength⟩ := h dentry haccepts
    have hinode : 0 ≤ dentry.inodeNum ∧ dentry.inodeNum < k.img.numInodes := by
      obtain ⟨command, -, hfound⟩ := haccepts.named
      exact hwf.found_file hfound htype
    have hhead := Image.readData_eq (n := 4) hwf hinode (Int.le_refl 0) (by omega)
    refine ⟨dentry, haccepts.named, ⟨htype, hlength, ?_⟩, fun p hp => ?_⟩
    · exact Option.some.inj (hhead.symm.trans haccepts.head)
    · obtain ⟨image, hstart⟩ := execute_eq_starts hp
      obtain ⟨command, dentry', hcommand, hfound, -, himage⟩ := hstart.found
      have hsame : dentry' = dentry := Names.unique ⟨command, hcommand, hfound⟩ haccepts.named
      have hzero : u32 0 = 0 := by decide
      have hsize : u32 0x400000 = 0x400000 := by decide
      have hstarts : u32 0 ≤ k.img.inodeLength dentry.inodeNum := by omega
      have hblock := Image.lt_blockEnd (k.img.inodeLength dentry.inodeNum)
      rw [hsame, Image.readData_eq_fileBytes hwf hinode hstarts, hzero] at himage
      rw [execute_starts hstart, ← Option.some.inj himage]
      exact launched_entry (by omega) call p r k

theorem onlyExecutables_shell : shellKernel.OnlyExecutables shellCall { ebp := 0, esp := 0 } := by
  refine (onlyExecutables_iff shellKernel_wellFormed shellCall _).mpr fun dentry haccepts => ?_
  obtain ⟨dentry', hfound, htype, hinode⟩ := shellImage_found
    (firstWord shellCommand shellCall.stack) (by decide) (by decide) shellCall.garbage
  rw [← shellKernel_img] at hfound
  rw [haccepts.named.unique ⟨shellCommand, rfl, hfound⟩, shellKernel_img, hinode,
    shellImage_length]
  exact ⟨htype, by decide⟩

/-- The command `.`. -/
def dotCommand : CString := CString.ofList [0x2E] (by simp)

def dotCall : ExecCall := { shellCall with command := some dotCommand }

theorem dotKernel_accepts : ∃ dentry, dotKernel.Accepts dotCall dentry ∧ dentry.filetype = 1 := by
  have hword : (firstWord dotCommand dotCall.stack).name 33 = [0x2E] := by decide
  obtain ⟨dentry, hread, htype, hinode⟩ : ∃ dentry, (besideShell [0x2E] 1).readDentryByName
      (firstWord dotCommand dotCall.stack) dotCall.garbage = some dentry ∧
      dentry.filetype = 1 ∧ dentry.inodeNum = 0 :=
    besideShell_found (by decide) (by simp) (by decide) hword dotCall.garbage
  have hfree : newestPid dotKernel.tab.pcbArr ≠ none := by
    have harr : dotKernel.tab.pcbArr = fun p : Pid => decide ((p : Nat) ≤ (0 : Term)) :=
      (entry_booting entry_dotKernel).1.pcbArr
    rw [harr]
    decide
  refine ⟨dentry, ⟨⟨dotCommand, rfl, ?_⟩, hfree, ?_⟩, htype⟩
  · rw [dotKernel_img]
    exact hread
  · rw [dotKernel_img, hinode]
    exact besideShell_head (by decide)

/-- The directory is started where its inode number is that of a program. -/
theorem directory_started : (besideShell [0x2E] 1).WellFormed ∧
    entry zeroRam (besideShell [0x2E] 1) = some dotKernel ∧
    ¬ dotKernel.OnlyExecutables dotCall { ebp := 0, esp := 0 } := by
  refine ⟨besideShell_wellFormed (by decide), entry_dotKernel, fun h => ?_⟩
  obtain ⟨dentry, haccepts, htype⟩ := dotKernel_accepts
  obtain ⟨dentry', hnamed, hexec, -⟩ := h ((allocates_iff _).mpr ⟨dentry, haccepts⟩)
  have hfile := hexec.regular
  rw [hnamed.unique haccepts.named, htype] at hfile
  exact absurd hfile (by decide)

end Kernel

end StudentDistrib
