import StudentDistrib.Files.EndOfFile
import StudentDistrib.Kernel.Descriptors

/-!
# Reading an open file

`read_file` cuts the number of bytes at the end of the file by a signed sum, and
hands what is left to `read_data` as an unsigned length.  As long as the number is
not negative and the sum does not overflow, a read delivers the next bytes of the
file, and the reads of a sequence reassemble it.  Any other number goes uncut to
`read_data`, which then reads past the end of the file.
-/

namespace StudentDistrib

open Machine

namespace Kernel

theorem fdArray_setFd (fd : Int) (d : FileDescriptor) (k : Kernel) :
    (k.setFd fd d).callerPcb.fdArray fd = d := by
  unfold setFd
  rw [callerPcb_setPcb]
  exact Function.update_self ..

/-- The descriptor is an open regular file of the calling process, positioned
within the file. -/
structure FileOpen (k : Kernel) (fd inode pos : Int) : Prop where
  flags : (k.callerPcb.fdArray fd).flags = full
  driver : (k.callerPcb.fdArray fd).jumpTable = some .file
  inodeCheck : (k.callerPcb.fdArray fd).inodeCheck = inode
  filePosition : (k.callerPcb.fdArray fd).filePosition = pos
  valid : 0 ≤ inode ∧ inode < k.img.numInodes
  within : 0 ≤ pos ∧ pos ≤ k.img.inodeLength inode

/-- The file descriptor moved on by `count` bytes, which it delivers. -/
def delivering (k : Kernel) (fd inode pos : Int) (count : Nat) : Kernel × Returned :=
  (k.setFd fd { k.callerPcb.fdArray fd with filePosition := pos + count },
    .value count (k.img.fileBytes inode pos count))

theorem delivering_filePosition (k : Kernel) (fd inode pos : Int) (count : Nat) :
    ((k.delivering fd inode pos count).1.callerPcb.fdArray fd).filePosition = pos + count := by
  unfold delivering
  rw [fdArray_setFd]

theorem FileOpen.delivering {k : Kernel} {fd inode pos : Int} (h : k.FileOpen fd inode pos)
    {count : Nat} (hcount : pos + count ≤ k.img.inodeLength inode) :
    (k.delivering fd inode pos count).1.FileOpen fd inode (pos + count) := by
  have hfd := fdArray_setFd fd { k.callerPcb.fdArray fd with filePosition := pos + count } k
  unfold Kernel.delivering
  refine ⟨?_, ?_, ?_, ?_, h.valid, ?_, hcount⟩
  · rw [hfd]
    exact h.flags
  · rw [hfd]
    exact h.driver
  · rw [hfd]
    exact h.inodeCheck
  · rw [hfd]
  · exact Int.add_nonneg h.within.1 (Int.natCast_nonneg _)

/-! ## The number of bytes

Where the sum of position and number overflows, or the number is negative, the
signed comparison fails and the number is left as it is. -/

theorem cut_eq {n p l : Int} (hn : 0 ≤ n) (hp : 0 ≤ p ∧ p ≤ l) (hl : l < 0x400000)
    (hsum : p + n < 2 ^ 31) :
    (if i32 (p + n) ≥ l then i32 (l - p) else n) = ((min n (l - p)).toNat : Int) := by
  rw [i32_of_lt (by omega) hsum, i32_of_lt (by omega) (by omega)]
  split <;> omega

theorem uncut_eq {n p l : Int} (hn : -2 ^ 31 ≤ n ∧ n < 2 ^ 31) (hp : 0 ≤ p ∧ p ≤ l)
    (hbad : ¬ (0 ≤ n ∧ p + n < 2 ^ 31)) :
    (if i32 (p + n) ≥ l then i32 (l - p) else n) = n := by
  refine if_neg ?_
  unfold i32
  omega

theorem le_u32_uncut {n p e : Int} (hn : -2 ^ 31 ≤ n ∧ n < 2 ^ 31) (hp : 0 ≤ p)
    (he : e ≤ 0x400000) (hp' : p < 0x400000) (hbad : ¬ (0 ≤ n ∧ p + n < 2 ^ 31)) :
    min (u32 n).toNat (e - p).toNat = (e - p).toNat := by
  unfold u32
  omega

theorem add_min_rest_le {n p l : Int} (hp : p ≤ l) : p + ((min n (l - p)).toNat : Int) ≤ l := by
  omega

/-- A number of bytes that neither is negative nor overflows is cut at the end of
the file. -/
theorem readFile_within {k : Kernel} (hwf : k.img.WellFormed) {fd inode pos n : Int}
    (h : k.FileOpen fd inode pos) (hn : 0 ≤ n) (hsum : pos + n < 2 ^ 31) :
    k.readFile fd n
      = k.delivering fd inode pos (min n (k.img.inodeLength inode - pos)).toNat := by
  have hlength := hwf.length_lt h.valid
  have hcut : (if i32 (pos + n) ≥ k.img.inodeLength inode
      then i32 (k.img.inodeLength inode - pos) else n)
        = ((min n (k.img.inodeLength inode - pos)).toNat : Int) :=
    cut_eq hn h.within hlength.2 hsum
  have hread : k.img.readData inode pos ((min n (k.img.inodeLength inode - pos)).toNat : Int) = _ :=
    Image.readData_eq hwf h.valid h.within.1 (add_min_rest_le h.within.2)
  unfold readFile delivering
  dsimp only
  rw [if_pos h.flags, h.inodeCheck, h.filePosition, hcut, hread]
  dsimp only
  rw [Image.length_fileBytes]

/-- Any other number of bytes is read up to the end of the block in which the
file's length lies. -/
theorem readFile_beyond {k : Kernel} (hwf : k.img.WellFormed) {fd inode pos n : Int}
    (h : k.FileOpen fd inode pos) (hn : -2 ^ 31 ≤ n ∧ n < 2 ^ 31)
    (hbad : ¬ (0 ≤ n ∧ pos + n < 2 ^ 31)) :
    k.readFile fd n = k.delivering fd inode pos
      (Image.blockEnd (k.img.inodeLength inode) - pos).toNat := by
  have hlength := hwf.length_lt h.valid
  have hpos : u32 pos = pos := u32_of_lt h.within.1
    (Int.lt_of_le_of_lt h.within.2 (Int.lt_trans hlength.2 (by decide)))
  have hin : u32 pos ≤ k.img.inodeLength inode := hpos.symm ▸ h.within.2
  have hread := Image.readData_eq_fileBytes hwf h.valid hin n
  rw [hpos, le_u32_uncut hn h.within.1 (Image.blockEnd_le_max hlength.2)
    (Int.lt_of_le_of_lt h.within.2 hlength.2) hbad] at hread
  unfold readFile delivering
  dsimp only
  rw [if_pos h.flags, h.inodeCheck, h.filePosition, uncut_eq hn h.within hbad, hread]
  dsimp only
  rw [Image.length_fileBytes]

/-! ## Chunks -/

/-- A regular file that `open` finds is open at its first byte. -/
theorem openFile_fileOpen {k : Kernel} (hwf : k.img.WellFormed) {fname : Bytes}
    {garbage dentry : Image.Dentry} (hfound : k.img.readDentryByName fname garbage = some dentry)
    (htype : dentry.filetype = 2) (hfd : (k.openFile fname garbage).2 ≠ -1) :
    (k.openFile fname garbage).1.FileOpen (k.openFile fname garbage).2 dentry.inodeNum 0 ∧
      (k.openFile fname garbage).1.img = k.img := by
  have hvalid := hwf.found_file hfound htype
  have hlength := hwf.length_lt hvalid
  have hdriver : ∀ old, driverOf dentry.filetype old = some .file := by
    intro old
    unfold driverOf
    rw [htype]
    rfl
  unfold openFile at hfd ⊢
  rw [hfound] at hfd ⊢
  dsimp only at hfd ⊢
  cases hindex : openIndex k.setCurrPcb.callerPcb.openIndexes with
  | none =>
    rw [hindex] at hfd
    exact absurd rfl hfd
  | some i =>
    dsimp only
    rw [hdriver, if_neg (by decide)]
    refine ⟨⟨?_, ?_, ?_, ?_, hvalid, Int.le_refl 0, hlength.1⟩, rfl⟩
    all_goals rw [fdArray_setFd]

/-- The block of the first shell has no open file. -/
theorem entry_openIndex {ram : Ram} {img : Image} {k : Kernel} (h : entry ram img = some k) :
    openIndex k.callerPcb.openIndexes = some 0 := by
  obtain ⟨image, himage⟩ := entry_hasShell h
  have hk : (init ram img).launched shellCall 0 image { ebp := 0, esp := 0 } = k :=
    Option.some.inj ((entry_eq ram himage).symm.trans h)
  have hcurr : k.currPid = 0 := (entry_booting h).1.currPid
  have hfresh := launched_fresh shellCall 0 image { ebp := 0, esp := 0 } (init ram img)
  have hindexes : k.callerPcb.openIndexes
      = (freshPcb 0 0 ((init ram img).tab.pcb 0)).openIndexes := by
    show (k.tab.pcb k.currPid).openIndexes = _
    rw [hcurr, ← hk]
    exact hfresh.1
  rw [hindexes]
  rfl

theorem shellKernel_openIndex : openIndex shellKernel.callerPcb.openIndexes = some 0 :=
  entry_openIndex entry_shellImage

theorem shellKernel_openFile :
    (shellKernel.openFile shellName shellCall.garbage).2 = 2 := by
  obtain ⟨dentry, hfound, -, -⟩ :=
    shellImage_found shellName (by decide) (by decide) shellCall.garbage
  rw [← shellKernel_img] at hfound
  rcases openFile_cases shellName shellCall.garbage shellKernel with
    ⟨-, -, hnone | htaken⟩ | ⟨dentry', i, -, hindex, hret, -⟩
  · exact absurd (hfound.symm.trans hnone) (Option.some_ne_none _)
  · rw [shellKernel_openIndex] at htaken
    cases htaken
  · rw [shellKernel_openIndex] at hindex
    cases hindex
    exact hret

theorem shellKernel_wellFormed : shellKernel.img.WellFormed := by
  rw [shellKernel_img]
  exact shellImage_wellFormed

theorem openedKernel_img : openedKernel.img = shellImage := by
  unfold openedKernel
  rw [(aside_openFile shellName shellCall.garbage shellKernel).img, shellKernel_img]

theorem openedKernel_wellFormed : openedKernel.img.WellFormed := by
  rw [openedKernel_img]
  exact shellImage_wellFormed

theorem openedKernel_fileOpen : openedKernel.FileOpen 2 0 0 := by
  obtain ⟨dentry, hfound, htype, hinode⟩ :=
    shellImage_found shellName (by decide) (by decide) shellCall.garbage
  have hne : (shellKernel.openFile shellName shellCall.garbage).2 ≠ -1 := by
    rw [shellKernel_openFile]
    decide
  rw [← shellKernel_img] at hfound
  have hopen := (openFile_fileOpen shellKernel_wellFormed hfound htype hne).1
  rw [shellKernel_openFile, hinode] at hopen
  exact hopen

/-- The bytes that a call delivers. -/
def Returned.stored : Returned → List UInt8
  | .value _ stored => stored
  | .waits => []

theorem delivering_stored (k : Kernel) (fd inode pos : Int) (count : Nat) :
    (k.delivering fd inode pos count).2.stored = k.img.fileBytes inode pos count := rfl

/-- The kernel after calls of `read_file` with the given sizes. -/
def afterReads (fd : Int) (sizes : List Int) (k : Kernel) : Kernel :=
  sizes.foldl (fun k nbytes => (k.readFile fd nbytes).1) k

/-- The bytes that calls of `read_file` with the given sizes deliver. -/
def delivered (fd : Int) : List Int → Kernel → List UInt8
  | [], _ => []
  | nbytes :: sizes, k =>
    (k.readFile fd nbytes).2.stored ++ delivered fd sizes (k.readFile fd nbytes).1

theorem add_min_rest {n s p l : Int} (hp : p ≤ l) (hn : 0 ≤ n) (hs : 0 ≤ s) :
    (min n (l - p)).toNat + (min s (l - (p + ((min n (l - p)).toNat : Int)))).toNat
      = (min (n + s) (l - p)).toNat := by omega

theorem sum_nonneg {sizes : List Int} (h : ∀ n ∈ sizes, 0 ≤ n) : 0 ≤ sizes.sum := by
  induction sizes with
  | nil => exact Int.le_refl 0
  | cons n sizes ih =>
    rw [List.sum_cons]
    exact Int.add_nonneg (h n List.mem_cons_self)
      (ih fun m hm => h m (List.mem_cons_of_mem _ hm))

/-- The calls of a sequence go through the file from the position on. -/
theorem FileOpen.reads {k : Kernel} (hwf : k.img.WellFormed) {fd inode pos : Int}
    (h : k.FileOpen fd inode pos) {sizes : List Int}
    (hsizes : ∀ n ∈ sizes, 0 ≤ n ∧ n ≤ 0x400000) :
    (k.afterReads fd sizes).img = k.img ∧
      (k.afterReads fd sizes).FileOpen fd inode
        (pos + (min sizes.sum (k.img.inodeLength inode - pos)).toNat) ∧
      delivered fd sizes k = k.img.fileBytes inode pos
        (min sizes.sum (k.img.inodeLength inode - pos)).toNat := by
  induction sizes generalizing k pos with
  | nil =>
    have hnone : (min (0 : Int) (k.img.inodeLength inode - pos)).toNat = 0 := by
      rw [Int.min_eq_left (Int.sub_nonneg_of_le h.within.2)]
      rfl
    refine ⟨rfl, ?_, ?_⟩
    · rw [List.sum_nil, hnone, Int.natCast_zero, Int.add_zero]
      exact h
    · rw [List.sum_nil, hnone]
      rfl
  | cons n sizes ih =>
    have hlength := hwf.length_lt h.valid
    have hn := hsizes n List.mem_cons_self
    have hrest : ∀ m ∈ sizes, 0 ≤ m ∧ m ≤ 0x400000 :=
      fun m hm => hsizes m (List.mem_cons_of_mem _ hm)
    have hsum : pos + n < 2 ^ 31 :=
      Int.lt_of_le_of_lt (Int.add_le_add (Int.le_trans h.within.2 (Int.le_of_lt hlength.2)) hn.2)
        (by decide)
    have hread := readFile_within hwf h hn.1 hsum
    have hopen : (k.readFile fd n).1.FileOpen fd inode
        (pos + (min n (k.img.inodeLength inode - pos)).toNat) := by
      rw [hread]
      exact h.delivering (add_min_rest_le h.within.2)
    have himg : (k.readFile fd n).1.img = k.img := by
      rw [hread]
      rfl
    have hstored : (k.readFile fd n).2.stored
        = k.img.fileBytes inode pos (min n (k.img.inodeLength inode - pos)).toNat := by
      rw [hread, delivering_stored]
    have hsplit := add_min_rest h.within.2 hn.1 (sum_nonneg fun m hm => (hrest m hm).1)
    obtain ⟨himg', hopen', hbytes⟩ := ih (himg.symm ▸ hwf) hopen hrest
    rw [himg] at himg' hopen' hbytes
    refine ⟨himg', ?_, ?_⟩
    · rw [List.sum_cons, ← hsplit, Int.natCast_add, ← Int.add_assoc]
      exact hopen'
    · rw [List.sum_cons, ← hsplit, ← Image.fileBytes_append]
      show (k.readFile fd n).2.stored ++ delivered fd sizes (k.readFile fd n).1 = _
      rw [hstored, hbytes]

/-- What the next call of `read_file` does with an open file of `length` bytes. -/
structure ReadsNext (k : Kernel) (fd length nbytes : Int) : Prop where
  returns : ∃ stored, (k.readFile fd nbytes).2
    = .value (min nbytes (length - (k.callerPcb.fdArray fd).filePosition)) stored
  advances : ((k.readFile fd nbytes).1.callerPcb.fdArray fd).filePosition
    = (k.callerPcb.fdArray fd).filePosition
      + min nbytes (length - (k.callerPcb.fdArray fd).filePosition)
  ends : 0 < nbytes → (min nbytes (length - (k.callerPcb.fdArray fd).filePosition) = 0 ↔
    (k.callerPcb.fdArray fd).filePosition = length)

theorem FileOpen.readsNext {k : Kernel} (hwf : k.img.WellFormed) {fd inode pos nbytes : Int}
    (h : k.FileOpen fd inode pos) (hn : 0 ≤ nbytes ∧ nbytes ≤ 0x400000) :
    k.ReadsNext fd (k.img.inodeLength inode) nbytes := by
  have hlength := hwf.length_lt h.valid
  have hsum : pos + nbytes < 2 ^ 31 :=
    Int.lt_of_le_of_lt (Int.add_le_add (Int.le_trans h.within.2 (Int.le_of_lt hlength.2)) hn.2)
      (by decide)
  have hcount : ((min nbytes (k.img.inodeLength inode - pos)).toNat : Int)
      = min nbytes (k.img.inodeLength inode - pos) :=
    Int.toNat_of_nonneg (Int.le_min.mpr ⟨hn.1, Int.sub_nonneg_of_le h.within.2⟩)
  have hread := readFile_within hwf h hn.1 hsum
  refine ⟨?_, ?_, ?_⟩
  · rw [hread, h.filePosition]
    unfold Kernel.delivering
    rw [hcount]
    exact ⟨_, rfl⟩
  · rw [hread, delivering_filePosition, h.filePosition, hcount]
  · rw [h.filePosition]
    have hend : ∀ l : Int, pos ≤ l → 0 < nbytes → (min nbytes (l - pos) = 0 ↔ pos = l) := by
      intro l hl hpos
      omega
    exact hend (k.img.inodeLength inode) h.within.2

/-- Reads of a file in chunks that fit a user page deliver the file, and each call
delivers the next chunk. -/
theorem chunks_reassemble {k : Kernel} (hwf : k.img.WellFormed) {fname : Bytes}
    {garbage dentry : Image.Dentry} (hfound : k.img.readDentryByName fname garbage = some dentry)
    (htype : dentry.filetype = 2) (hfd : (k.openFile fname garbage).2 ≠ -1) {sizes : List Int}
    (hsizes : ∀ n ∈ sizes, 0 ≤ n ∧ n ≤ 0x400000) :
    let opened := k.openFile fname garbage
    let length := k.img.inodeLength dentry.inodeNum
    delivered opened.2 sizes opened.1
        = k.img.fileBytes dentry.inodeNum 0 (min sizes.sum length).toNat ∧
      ∀ nbytes, 0 ≤ nbytes ∧ nbytes ≤ 0x400000 →
        (opened.1.afterReads opened.2 sizes).ReadsNext opened.2 length nbytes := by
  obtain ⟨hopen, himg⟩ := openFile_fileOpen hwf hfound htype hfd
  intro opened length
  have hreads := hopen.reads (himg.symm ▸ hwf) hsizes
  rw [himg, Int.sub_zero] at hreads
  obtain ⟨himg', hopen', hbytes⟩ := hreads
  refine ⟨hbytes, fun nbytes hn => ?_⟩
  have hnext := hopen'.readsNext (himg'.symm ▸ hwf) hn
  rw [himg'] at hnext
  exact hnext

/-- The file of the first shell read in two chunks. -/
theorem chunks_reassemble_shell :
    delivered 2 [30, 30] openedKernel = shellImage.fileBytes 0 0 40 := by
  obtain ⟨dentry, hfound, htype, hinode⟩ :=
    shellImage_found shellName (by decide) (by decide) shellCall.garbage
  have hne : (shellKernel.openFile shellName shellCall.garbage).2 ≠ -1 := by
    rw [shellKernel_openFile]
    decide
  have hsizes : ∀ n ∈ [(30 : Int), 30], 0 ≤ n ∧ n ≤ 0x400000 := by decide
  have hchunks :=
    (chunks_reassemble (k := shellKernel) shellImage_wellFormed hfound htype hne hsizes).1
  have himg : shellKernel.img = shellImage := rfl
  have hmin : (min [(30 : Int), 30].sum 40).toNat = 40 := by decide
  rw [shellKernel_openFile, hinode, himg, shellImage_length, hmin] at hchunks
  exact hchunks

/-! ## Reads of any size -/

/-- What a read of `nbytes` bytes through an open file may do: fail with nothing
changed, or deliver no more than was asked for and stay within the file. -/
def RespectsSize (k : Kernel) (fd nbytes : Int) : Prop :=
  ∃ v stored, (k.read fd nbytes).2 = .value v stored ∧
    ((v = -1 ∧ stored = [] ∧ ((k.read fd nbytes).1.callerPcb.fdArray fd).filePosition
        = (k.callerPcb.fdArray fd).filePosition) ∨
      ((stored.length : Int) ≤ max nbytes 0 ∧
        0 ≤ ((k.read fd nbytes).1.callerPcb.fdArray fd).filePosition ∧
        ((k.read fd nbytes).1.callerPcb.fdArray fd).filePosition
          ≤ k.img.inodeLength (k.callerPcb.fdArray fd).inodeCheck))

/-- A read of an open file is one of its driver. -/
theorem read_eq_readFile {k : Kernel} {fd inode pos : Int} (h : k.FileOpen fd inode pos)
    (hfd : 0 ≤ fd ∧ fd ≤ 7 ∧ fd ≠ 1) (nbytes : Int) :
    k.read fd nbytes = k.sti.setCurrPcb.readFile fd nbytes := by
  have hpcb : k.sti.setCurrPcb.callerPcb = k.callerPcb := rfl
  unfold read
  rw [if_neg hfd.2.2, if_neg (by omega)]
  dsimp only
  rw [hpcb, if_pos h.flags, h.driver]

theorem FileOpen.sti {k : Kernel} {fd inode pos : Int} (h : k.FileOpen fd inode pos) :
    k.sti.setCurrPcb.FileOpen fd inode pos :=
  ⟨h.flags, h.driver, h.inodeCheck, h.filePosition, h.valid, h.within⟩

section Sizes

variable {k : Kernel} (hwf : k.img.WellFormed) {fd inode pos nbytes : Int}
include hwf

theorem respectsSize (h : k.FileOpen fd inode pos) (hfd : 0 ≤ fd ∧ fd ≤ 7 ∧ fd ≠ 1)
    (hn : 0 ≤ nbytes) (hsum : pos + nbytes < 2 ^ 31) : k.RespectsSize fd nbytes := by
  have hfits := add_min_rest_le (n := nbytes) h.within.2
  have hmin : ∀ l : Int, ((min nbytes (l - pos)).toNat : Int) ≤ max nbytes 0 := by
    intro l
    omega
  unfold RespectsSize
  rw [read_eq_readFile h hfd nbytes,
    readFile_within (k := k.sti.setCurrPcb) hwf h.sti hn hsum]
  refine ⟨_, _, rfl, Or.inr ?_⟩
  rw [delivering_filePosition, Image.length_fileBytes, h.inodeCheck]
  exact ⟨hmin _, Int.add_nonneg h.within.1 (Int.natCast_nonneg _), hfits⟩

/-- Any other size is read past the end of the file. -/
theorem not_respectsSize (h : k.FileOpen fd inode pos) (hfd : 0 ≤ fd ∧ fd ≤ 7 ∧ fd ≠ 1)
    (hn : -2 ^ 31 ≤ nbytes ∧ nbytes < 2 ^ 31) (hbad : ¬ (0 ≤ nbytes ∧ pos + nbytes < 2 ^ 31)) :
    ¬ k.RespectsSize fd nbytes := by
  rintro ⟨v, stored, hvalue, hdone⟩
  have hpast := Image.lt_blockEnd (k.img.inodeLength inode)
  have hend : 0 < Image.blockEnd (k.img.inodeLength inode) - pos :=
    Int.sub_pos_of_lt (Int.lt_of_le_of_lt h.within.2 hpast)
  have hcount : ((Image.blockEnd (k.sti.setCurrPcb.img.inodeLength inode) - pos).toNat : Int)
      = Image.blockEnd (k.img.inodeLength inode) - pos := Int.toNat_of_nonneg (Int.le_of_lt hend)
  have hsum : ∀ e : Int, pos + (e - pos) = e := by
    intro e
    omega
  rw [read_eq_readFile h hfd nbytes,
    readFile_beyond (k := k.sti.setCurrPcb) hwf h.sti hn hbad] at hvalue hdone
  rw [delivering_filePosition, h.inodeCheck, h.filePosition] at hdone
  obtain ⟨rfl, rfl⟩ := Returned.value.inj hvalue
  rw [Image.length_fileBytes, hcount] at hdone
  rcases hdone with ⟨hfail, -, -⟩ | ⟨-, -, hpos⟩
  · exact absurd (hfail ▸ hend) (by decide)
  · rw [hsum] at hpos
    exact absurd hpast (Int.not_lt.mpr hpos)

/-- A read of an open file respects its size exactly where the size is not negative
and the end of the read is a 32-bit position. -/
theorem respectsSize_iff (h : k.FileOpen fd inode pos) (hfd : 0 ≤ fd ∧ fd ≤ 7 ∧ fd ≠ 1)
    (hn : -2 ^ 31 ≤ nbytes ∧ nbytes < 2 ^ 31) :
    k.RespectsSize fd nbytes ↔ 0 ≤ nbytes ∧ pos + nbytes < 2 ^ 31 := by
  constructor
  · intro hrespects
    by_contra hbad
    exact not_respectsSize hwf h hfd hn hbad hrespects
  · rintro ⟨h0, hsum⟩
    exact respectsSize hwf h hfd h0 hsum

end Sizes

theorem respectsSize_shell : openedKernel.RespectsSize 2 100 :=
  (respectsSize_iff openedKernel_wellFormed openedKernel_fileOpen (by decide) (by decide)).mpr
    (by decide)

/-- A read of -1 bytes of the first shell's file is not refused, and moves the
position past the end of the file. -/
theorem negative_size_reads :
    openedKernel.img.WellFormed ∧ openedKernel.FileOpen 2 0 0 ∧
      ¬ openedKernel.RespectsSize 2 (-1) :=
  ⟨openedKernel_wellFormed, openedKernel_fileOpen,
    not_respectsSize openedKernel_wellFormed openedKernel_fileOpen (by decide) (by decide)
      (by decide)⟩

end Kernel

end StudentDistrib
