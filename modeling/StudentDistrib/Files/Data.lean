import StudentDistrib.Files.Image

/-!
# The bytes of a file

A file is the sequence of its blocks in the order of `data_block_nums`.  `read_data`
delivers the bytes of that sequence from the offset on.  It tests for the end of the
file only where a block ends, so that a read past the end of the file goes on to the
end of the block in which the file's length lies.
-/

namespace StudentDistrib

open Machine

namespace Image

/-- What the file-system image is promised to be. -/
structure WellFormed (img : Image) : Prop where
  inodeCount : 0 ≤ img.numInodes
  /-- Every entry is the clock, a directory or a file. -/
  types : ∀ i : Int, 0 ≤ i → i < img.numDirectoryEntries →
    img.entryFiletype i = 0 ∨ img.entryFiletype i = 1 ∨ img.entryFiletype i = 2
  /-- A file has an inode. -/
  inodes : ∀ i : Int, 0 ≤ i → i < img.numDirectoryEntries → img.entryFiletype i = 2 →
    0 ≤ img.entryInode i ∧ img.entryInode i < img.numInodes
  lengths : ∀ inode : Int, 0 ≤ inode → inode < img.numInodes →
    0 ≤ img.inodeLength inode ∧ img.inodeLength inode ≤ 1023 * blockSize
  /-- The blocks that a file's length reaches are blocks of the image. -/
  blocks : ∀ inode k : Int, 0 ≤ inode → inode < img.numInodes → 0 ≤ k →
    k * blockSize < img.inodeLength inode →
    0 ≤ img.blockNum inode k ∧ img.blockNum inode k < img.numDataBlocks

theorem WellFormed.length_lt {img : Image} (hwf : img.WellFormed) {inode : Int}
    (hinode : 0 ≤ inode ∧ inode < img.numInodes) :
    0 ≤ img.inodeLength inode ∧ img.inodeLength inode < 0x400000 := by
  obtain ⟨h0, hmax⟩ := hwf.lengths inode hinode.1 hinode.2
  exact ⟨h0, Int.lt_of_le_of_lt hmax (by decide)⟩

/-- The scan of `read_dentry_by_name` ends with an entry of the directory. -/
theorem findEntry_lt {img : Image} {fname : Bytes} {i : Nat} (h : img.findEntry fname = some i) :
    (i : Int) < img.numDirectoryEntries := by
  have hscan : ∀ (l : List Nat) (found : Option Nat),
      (∀ j ∈ l, (j : Int) < img.numDirectoryEntries) →
      (∀ j, found = some j → (j : Int) < img.numDirectoryEntries) →
      ∀ j, l.foldl (fun index (i : Nat) =>
        if strncmp fname (img.entryFilename i) filenameLen = 0 then some i else index) found
          = some j → (j : Int) < img.numDirectoryEntries := by
    intro l
    induction l with
    | nil => exact fun _ _ hfound => hfound
    | cons i l ih =>
      intro found hl hfound
      refine ih _ (fun j hj => hl j (List.mem_cons_of_mem _ hj)) fun j hj => ?_
      dsimp only at hj
      split at hj
      · cases hj
        exact hl _ List.mem_cons_self
      · exact hfound j hj
  refine hscan _ none (fun j hj => ?_) (fun j hj => by cases hj) i h
  have hlt := List.mem_range.mp hj
  omega

/-- A name that is found is an entry of the directory. -/
theorem exists_entry {img : Image} {fname : Bytes} {old dentry : Dentry}
    (h : img.readDentryByName fname old = some dentry) :
    ∃ i : Int, 0 ≤ i ∧ i < img.numDirectoryEntries ∧
      dentry.filetype = img.entryFiletype i ∧ dentry.inodeNum = img.entryInode i := by
  unfold readDentryByName at h
  split at h
  · cases h
  · split at h
    · cases h
    · rename_i i hi
      unfold readDentryByIndex at h
      split at h
      · cases h
      · cases h
        exact ⟨i, Int.natCast_nonneg i, findEntry_lt hi, rfl, rfl⟩

/-- A regular file that is found has an inode. -/
theorem WellFormed.found_file {img : Image} (hwf : img.WellFormed) {fname : Bytes}
    {old dentry : Dentry} (h : img.readDentryByName fname old = some dentry)
    (htype : dentry.filetype = 2) : 0 ≤ dentry.inodeNum ∧ dentry.inodeNum < img.numInodes := by
  obtain ⟨i, h0, hi, hfiletype, hinode⟩ := exists_entry h
  rw [hinode]
  exact hwf.inodes i h0 hi (hfiletype.symm.trans htype)

/-- Byte `k` of the file of an inode. -/
def fileByte (img : Image) (inode k : Int) : UInt8 :=
  img (img.dataAddr + blockSize * img.blockNum inode (k / blockSize) + k % blockSize)

/-- The `n` bytes of a file from position `k` on. -/
def fileBytes (img : Image) (inode k : Int) (n : Nat) : List UInt8 :=
  (List.range n).map fun j : Nat => img.fileByte inode (k + j)

theorem length_fileBytes (img : Image) (inode k : Int) (n : Nat) :
    (img.fileBytes inode k n).length = n := by
  unfold fileBytes
  rw [List.length_map, List.length_range]

theorem getElem_fileBytes (img : Image) (inode k : Int) {n i : Nat}
    (h : i < (img.fileBytes inode k n).length) :
    (img.fileBytes inode k n)[i] = img.fileByte inode (k + i) := by
  simp only [fileBytes, List.getElem_map, List.getElem_range]

theorem fileBytes_succ (img : Image) (inode k : Int) (n : Nat) :
    img.fileBytes inode k (n + 1) = img.fileByte inode k :: img.fileBytes inode (k + 1) n := by
  unfold fileBytes
  rw [List.range_succ_eq_map, List.map_cons, List.map_map]
  refine congrArg₂ List.cons ?_ (List.map_congr_left fun j _ => ?_)
  · rw [Int.natCast_zero, Int.add_zero]
  · have hpos : k + (j + 1 : Nat) = k + 1 + j := by omega
    show img.fileByte inode (k + (j + 1 : Nat)) = _
    rw [hpos]

theorem fileBytes_append (img : Image) (inode k : Int) (m n : Nat) :
    img.fileBytes inode k m ++ img.fileBytes inode (k + m) n = img.fileBytes inode k (m + n) := by
  induction m generalizing k with
  | zero =>
    have hnone : img.fileBytes inode k 0 = [] := rfl
    rw [hnone, List.nil_append, Nat.zero_add, Int.natCast_zero, Int.add_zero]
  | succ m ih =>
    have hcount : m + 1 + n = m + n + 1 := by omega
    have hpos : k + (m + 1 : Nat) = k + 1 + m := by omega
    rw [fileBytes_succ, List.cons_append, hpos, ih, hcount, fileBytes_succ]

/-- The byte at an offset within a block. -/
theorem fileByte_block (img : Image) (inode idx : Int) {o : Int} (h0 : 0 ≤ o) (h : o < blockSize) :
    img.fileByte inode (idx * blockSize + o)
      = img (img.dataAddr + blockSize * img.blockNum inode idx + o) := by
  have hdiv : (idx * blockSize + o) / blockSize = idx := by
    unfold blockSize at *
    omega
  have hmod : (idx * blockSize + o) % blockSize = o := by
    unfold blockSize at *
    omega
  unfold fileByte
  rw [hdiv, hmod]

/-! ## The loop of `read_data` -/

/-- The end of the block in which position `k` lies. -/
def blockEnd (k : Int) : Int := (k / blockSize + 1) * blockSize

theorem lt_blockEnd (k : Int) : k < blockEnd k := by
  unfold blockEnd blockSize
  omega

/-- The block in which a length that fits an inode lies is one of the first 1024. -/
theorem blockEnd_le_max {k : Int} (h : k < 0x400000) : blockEnd k ≤ 0x400000 := by
  unfold blockEnd blockSize
  omega

/-- No block boundary lies between a position and the end of its block. -/
theorem blockEnd_le_mul {k idx : Int} (h : k < idx * blockSize) : blockEnd k ≤ idx * blockSize := by
  unfold blockEnd blockSize at *
  omega

/-- The loop delivers the bytes of the blocks, up to the end of the block in which
the file's length lies.  `idx` and `addr` are the position, and `limit` counts from
where the read started. -/
theorem readLoop_eq (img : Image) (inode length : Int) (n : Nat) (idx addr : Int)
    {limit blk count : Int} (h0 : 0 ≤ addr) (haddr : addr ≤ blockSize)
    (hblk : blk = img.blockNum inode idx)
    (hlimit : idx * blockSize + addr - count + limit = length)
    (hend : idx * blockSize + addr < blockEnd length ∨
      addr = blockSize ∧ idx * blockSize + addr = blockEnd length) :
    img.readLoop inode limit n idx addr blk count = img.fileBytes inode (idx * blockSize + addr)
      (min n (blockEnd length - (idx * blockSize + addr)).toNat) := by
  induction n generalizing idx addr blk count with
  | zero =>
    rw [Nat.zero_min]
    rfl
  | succ n ih =>
    have hsize : blockSize = 4096 := rfl
    have hlt := lt_blockEnd length
    rw [readLoop]
    by_cases hlast : addr = blockSize
    · have hpos : idx * blockSize + addr = (idx + 1) * blockSize + 0 := by
        rw [hlast, Int.add_mul]
        omega
      rw [if_pos hlast]
      by_cases hstop : count > limit
      · -- The position is a boundary past the length, so it is the end.
        have hle : blockEnd length ≤ (idx + 1) * blockSize := blockEnd_le_mul (by omega)
        have hrest : (blockEnd length - (idx * blockSize + addr)).toNat = 0 := by omega
        rw [if_pos hstop, hrest, Nat.min_zero]
        rfl
      · have hcount : min (n + 1) (blockEnd length - (idx * blockSize + addr)).toNat
            = min n (blockEnd length - ((idx + 1) * blockSize + 1)).toNat + 1 := by omega
        have hnext : (idx + 1) * blockSize + 1 < blockEnd length ∨
            (1 : Int) = blockSize ∧ (idx + 1) * blockSize + 1 = blockEnd length := by
          have hmul : (idx + 1) * blockSize + blockSize ≤ blockEnd length := by
            unfold blockEnd blockSize at *
            omega
          omega
        rw [if_neg hstop]
        dsimp only
        rw [hcount, fileBytes_succ, ih (idx + 1) 1 (by omega) (by omega) rfl (by omega) hnext, hpos,
          fileByte_block img inode (idx + 1) (Int.le_refl 0) (by omega), Int.add_zero, Int.add_zero]
    · have hcount : min (n + 1) (blockEnd length - (idx * blockSize + addr)).toNat
          = min n (blockEnd length - (idx * blockSize + (addr + 1))).toNat + 1 := by omega
      have hnext : idx * blockSize + (addr + 1) < blockEnd length ∨
          addr + 1 = blockSize ∧ idx * blockSize + (addr + 1) = blockEnd length := by
        have hmul : (idx + 1) * blockSize ≤ blockEnd length := by
          unfold blockEnd blockSize at *
          omega
        rw [Int.add_mul] at hmul
        omega
      rw [if_neg hlast, hcount, fileBytes_succ, ih idx (addr + 1) (by omega) (by omega) hblk
        (by omega) hnext, hblk, fileByte_block img inode idx h0 (by omega), ← Int.add_assoc]

/-! ## `read_data` -/

theorem numInodes_lt (img : Image) : img.numInodes < 0x80000000 := by
  unfold numInodes int32At i32
  omega

theorem readData_eq_none_iff (img : Image) (inode offset length : Int) :
    img.readData inode offset length = none ↔ u32 inode ≥ u32 img.numInodes := by
  unfold readData
  constructor
  · intro h
    by_contra hlt
    rw [if_neg hlt] at h
    split at h <;> cases h
  · intro h
    rw [if_pos h]

theorem u32_nonneg (n : Int) : 0 ≤ u32 n := Int.emod_nonneg _ (by decide)

theorem u32_lt (n : Int) : u32 n < 2 ^ 32 := Int.emod_lt_of_pos _ (by decide)

theorem u32_sub {a b : Int} (h : u32 b ≤ u32 a) : u32 (u32 a - u32 b) = u32 a - u32 b :=
  u32_of_lt (Int.sub_nonneg.mpr h)
    (Int.lt_of_le_of_lt (Int.sub_le_self _ (u32_nonneg b)) (u32_lt a))

/-- A read of any image from within the file delivers bytes up to the end of the block
in which the file's length lies. -/
theorem readData_blocks (img : Image) {inode offset : Int}
    (hinode : u32 inode < u32 img.numInodes)
    (hoffset : u32 offset ≤ u32 (img.inodeLength (u32 inode))) (n : Int) :
    img.readData inode offset n = some (img.fileBytes (u32 inode) (u32 offset)
      (min (u32 n).toNat
        (blockEnd (u32 (img.inodeLength (u32 inode))) - u32 offset).toNat)) := by
  have hlimit : ∀ p l : Int, p - 0 + (l - p) = l := by
    intro p l
    omega
  have hstart : u32 offset / blockSize * blockSize + u32 offset % blockSize = u32 offset :=
    Int.ediv_mul_add_emod ..
  have hoff : 0 ≤ u32 offset % blockSize := Int.emod_nonneg _ (by decide)
  have hoff' : u32 offset % blockSize < blockSize := Int.emod_lt_of_pos _ (by decide)
  have hlt : u32 offset < blockEnd (u32 (img.inodeLength (u32 inode))) :=
    Int.lt_of_le_of_lt hoffset (lt_blockEnd _)
  have hloop := readLoop_eq img (u32 inode) (u32 (img.inodeLength (u32 inode))) (u32 n).toNat
    (u32 offset / blockSize) (u32 offset % blockSize) hoff (Int.le_of_lt hoff') rfl
    (by rw [hstart]; exact hlimit _ _) (Or.inl (by rw [hstart]; exact hlt))
  rw [hstart] at hloop
  unfold readData
  rw [if_neg (Int.not_le.mpr hinode), if_neg (Int.not_lt.mpr hoffset)]
  dsimp only
  rw [u32_sub hoffset, hloop]

theorem min_toNat_eq {n : Nat} {p e : Int} (h : p + n ≤ e) : min n (e - p).toNat = n := by omega

theorem min_toNat_le {n : Nat} {e b : Int} (h : e ≤ b) (h0 : 0 ≤ b) :
    ((min n e.toNat : Nat) : Int) ≤ b := by omega

section ValidInode

variable {img : Image} (hwf : img.WellFormed) {inode offset : Int}
include hwf

theorem WellFormed.u32_inode (hinode : 0 ≤ inode ∧ inode < img.numInodes) :
    u32 inode = inode ∧ u32 img.numInodes = img.numInodes ∧
      u32 (img.inodeLength inode) = img.inodeLength inode := by
  have hlength := hwf.length_lt hinode
  have hinodes := img.numInodes_lt
  exact ⟨u32_of_lt hinode.1 (by omega), u32_of_lt (by omega) (by omega),
    u32_of_lt hlength.1 (by omega)⟩

/-- A read from past the end of the file delivers nothing. -/
theorem readData_past (hinode : 0 ≤ inode ∧ inode < img.numInodes)
    (hoffset : img.inodeLength inode < u32 offset) (n : Int) :
    img.readData inode offset n = some [] := by
  obtain ⟨hsame, hcount, hlen⟩ := hwf.u32_inode hinode
  unfold readData
  rw [hsame, hcount, hlen, if_neg (by omega), if_pos (by omega)]

/-- A read from within the file delivers bytes up to the end of the block in which
the file's length lies. -/
theorem readData_eq_fileBytes (hinode : 0 ≤ inode ∧ inode < img.numInodes)
    (hoffset : u32 offset ≤ img.inodeLength inode) (n : Int) :
    img.readData inode offset n = some (img.fileBytes inode (u32 offset)
      (min (u32 n).toNat (blockEnd (img.inodeLength inode) - u32 offset).toNat)) := by
  obtain ⟨hsame, hcount, hlen⟩ := hwf.u32_inode hinode
  have hindex : u32 inode < u32 img.numInodes := by
    rw [hsame, hcount]
    exact hinode.2
  have hwithin : u32 offset ≤ u32 (img.inodeLength (u32 inode)) := by
    rw [hsame, hlen]
    exact hoffset
  have hread := readData_blocks img hindex hwithin n
  rw [hsame, hlen] at hread
  exact hread

/-- A read within the file delivers the file's bytes. -/
theorem readData_eq {n : Nat} (hinode : 0 ≤ inode ∧ inode < img.numInodes) (hpos : 0 ≤ offset)
    (hend : offset + n ≤ img.inodeLength inode) :
    img.readData inode offset n = some (img.fileBytes inode offset n) := by
  have hlength := hwf.length_lt hinode
  have hfrom : u32 offset = offset := u32_of_lt hpos (by omega)
  have hn : u32 (n : Int) = n := u32_of_lt (by omega) (by omega)
  have hlt := lt_blockEnd (img.inodeLength inode)
  have hcount : min (u32 n).toNat (blockEnd (img.inodeLength inode) - u32 offset).toNat = n := by
    rw [hn, hfrom, Int.toNat_natCast]
    exact min_toNat_eq (Int.le_trans hend (Int.le_of_lt hlt))
  have hin : u32 offset ≤ img.inodeLength inode := by
    rw [hfrom]
    exact Int.le_trans (Int.le_add_of_nonneg_right (Int.natCast_nonneg n)) hend
  rw [readData_eq_fileBytes hwf hinode hin, hcount, hfrom]

end ValidInode

end Image

/-! ## An image with one program -/

/-- An image with one regular file, a program called `shell` of 40 bytes. -/
def shellImage : Image := fun a =>
  if a = 0 ∨ a = 4 ∨ a = 8 then 1
  else if 64 ≤ a ∧ a < 69 then Bytes.ofList [0x73, 0x68, 0x65, 0x6C, 0x6C] (a - 64)
  else if a = 96 then 2
  else if a = 4096 then 40
  else if 8192 ≤ a ∧ a < 8196 then Bytes.ofList [0x7F, 0x45, 0x4C, 0x46] (a - 8192)
  else 0

/-- An image with one regular file of at most one block. -/
theorem wellFormed_of_single {img : Image} (hentries : img.numDirectoryEntries = 1)
    (hinodes : img.numInodes = 1) (htype : img.entryFiletype 0 = 2) (hinode : img.entryInode 0 = 0)
    (hlength : 0 ≤ img.inodeLength 0) (hmax : img.inodeLength 0 ≤ blockSize)
    (hblock : 0 ≤ img.blockNum 0 0 ∧ img.blockNum 0 0 < img.numDataBlocks) : img.WellFormed := by
  refine ⟨?_, ?_, ?_, ?_, ?_⟩
  · rw [hinodes]
    decide
  · intro i h0 h
    have hi : i = 0 := by omega
    rw [hi]
    exact Or.inr (Or.inr htype)
  · intro i h0 h _
    have hi : i = 0 := by omega
    rw [hi, hinode, hinodes]
    decide
  · intro inode h0 h
    have hi : inode = 0 := by omega
    rw [hi]
    exact ⟨hlength, Int.le_trans hmax (by decide)⟩
  · intro inode k h0 h hk0 hk
    have hi : inode = 0 := by omega
    rw [hi] at hk ⊢
    have hlt : k * blockSize < blockSize := Int.lt_of_lt_of_le hk hmax
    have hk' : k = 0 := by
      unfold blockSize at hlt
      omega
    rw [hk']
    exact hblock

theorem shellImage_wellFormed : shellImage.WellFormed := by
  refine wellFormed_of_single ?_ ?_ ?_ ?_ ?_ ?_ ?_
  all_goals decide

/-- The string `shell`. -/
def shellName : Bytes := Bytes.ofList [0x73, 0x68, 0x65, 0x6C, 0x6C]

theorem shellImage_length : shellImage.inodeLength 0 = 40 := by decide

/-- The one file is found under its name. -/
theorem shellImage_found (fname : Bytes) (hlen : Image.strlen fname 33 ≤ filenameLen)
    (hfind : shellImage.findEntry fname = some 0) (old : Image.Dentry) :
    ∃ dentry, shellImage.readDentryByName fname old = some dentry ∧
      dentry.filetype = 2 ∧ dentry.inodeNum = 0 := by
  have htype : shellImage.entryFiletype (0 : Nat) = 2 := by decide
  have hinode : shellImage.entryInode (0 : Nat) = 0 := by decide
  unfold Image.readDentryByName
  rw [if_neg (Nat.not_lt.mpr hlen), hfind]
  dsimp only
  unfold Image.readDentryByIndex
  rw [if_neg (by decide)]
  exact ⟨_, rfl, htype, hinode⟩

end StudentDistrib
