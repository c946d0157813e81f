import StudentDistrib.Files.Data

/-!
# `read_data` at the end of a file

`read_data` compares the bytes read with the rest of the file only where a block
ends, and by a strict inequality.  A read that asks for more than the rest of the
file is therefore not cut at the end of the file but at the end of the block in
which the file's length lies, which is one block past the file where the length is
a multiple of the block size.
-/

namespace StudentDistrib

open Machine

namespace Image

/-! ## The bytes delivered -/

/-- A read that ends at the end of the file: `none` for -1, otherwise the bytes. -/
def boundedRead (img : Image) (inode offset length : UInt32) : Option (List UInt8) :=
  if (inode.toNat : Int) ≥ img.numInodes then none
  else some (img.fileBytes inode.toNat offset.toNat
    (min length.toNat (img.inodeLength inode.toNat - offset.toNat).toNat))

theorem u32_toNat (n : UInt32) : u32 n.toNat = n.toNat := by
  have hlt := n.toNat_lt
  exact u32_of_lt (by omega) (by omega)

/-- The shorter of two reads from one position is the other one only where their
lengths agree. -/
theorem fileBytes_injective {img : Image} {inode k : Int} {m n : Nat}
    (h : img.fileBytes inode k m = img.fileBytes inode k n) : m = n := by
  have hlength := congrArg List.length h
  rwa [length_fileBytes, length_fileBytes] at hlength

theorem min_rest_eq_iff {n : Nat} {l e p : Int} (hle : l < e) (hp : p ≤ l) :
    min n (e - p).toNat = min n (l - p).toNat ↔ p + n ≤ l := by omega

/-- `read_data` is a bounded read exactly where it is not asked for bytes past the
end of a file. -/
theorem readData_eq_boundedRead_iff {img : Image} (hwf : img.WellFormed)
    (inode offset length : UInt32) :
    img.readData inode.toNat offset.toNat length.toNat = img.boundedRead inode offset length ↔
      ((inode.toNat : Int) < img.numInodes →
        (offset.toNat : Int) ≤ img.inodeLength inode.toNat →
        (offset.toNat : Int) + length.toNat ≤ img.inodeLength inode.toNat) := by
  have hcount : u32 img.numInodes = img.numInodes := by
    have hlt := img.numInodes_lt
    exact u32_of_lt hwf.inodeCount (Int.lt_trans hlt (by decide))
  unfold boundedRead
  by_cases hinode : (inode.toNat : Int) < img.numInodes
  · have hvalid : 0 ≤ (inode.toNat : Int) ∧ (inode.toNat : Int) < img.numInodes :=
      ⟨Int.natCast_nonneg _, hinode⟩
    rw [if_neg (Int.not_le.mpr hinode)]
    by_cases hoffset : (offset.toNat : Int) ≤ img.inodeLength inode.toNat
    · have hin : u32 offset.toNat ≤ img.inodeLength inode.toNat := by
        rw [u32_toNat]
        exact hoffset
      rw [readData_eq_fileBytes hwf hvalid hin, u32_toNat, u32_toNat, Int.toNat_natCast]
      have hrest := min_rest_eq_iff (n := length.toNat) (lt_blockEnd _) hoffset
      constructor
      · intro h _ _
        exact hrest.mp (fileBytes_injective (Option.some.inj h))
      · intro h
        rw [hrest.mpr (h hinode hoffset)]
    · have hpast : img.inodeLength inode.toNat < u32 offset.toNat := by
        rw [u32_toNat]
        exact Int.not_le.mp hoffset
      have hrest : (img.inodeLength inode.toNat - offset.toNat).toNat = 0 :=
        Int.toNat_eq_zero.mpr (Int.sub_nonpos_of_le (Int.le_of_not_le hoffset))
      rw [readData_past hwf hvalid hpast, hrest, Nat.min_zero]
      exact ⟨fun _ _ hle => absurd hle hoffset, fun _ => rfl⟩
  · have hnone : img.readData inode.toNat offset.toNat length.toNat = none := by
      rw [readData_eq_none_iff, u32_toNat, hcount]
      exact Int.not_lt.mp hinode
    rw [hnone, if_pos (Int.not_lt.mp hinode)]
    exact ⟨fun _ hlt => absurd hlt hinode, fun _ => rfl⟩

/-- A read within the file. -/
theorem readData_shell_within :
    shellImage.readData 0 30 10 = shellImage.boundedRead 0 30 10 :=
  (readData_eq_boundedRead_iff shellImage_wellFormed 0 30 10).mpr (by decide)

/-- A read of 41 bytes of a file of 40 delivers 41. -/
theorem readData_shell_past :
    shellImage.WellFormed ∧
      shellImage.readData 0 0 41 = some (shellImage.fileBytes 0 0 41) ∧
      shellImage.boundedRead 0 0 41 = some (shellImage.fileBytes 0 0 40) ∧
      shellImage.readData 0 0 41 ≠ shellImage.boundedRead 0 0 41 := by
  have hread : shellImage.readData 0 0 41 = some (shellImage.fileBytes 0 0 41) := by
    have heq : shellImage.readData 0 0 41 = _ :=
      readData_eq_fileBytes shellImage_wellFormed (by decide) (by decide) 41
    rw [heq, shellImage_length]
    rfl
  have hbounded : shellImage.boundedRead 0 0 41 = some (shellImage.fileBytes 0 0 40) := by
    have hlen : shellImage.inodeLength (0 : UInt32).toNat = 40 := shellImage_length
    unfold boundedRead
    rw [if_neg (by decide), hlen]
    rfl
  refine ⟨shellImage_wellFormed, hread, hbounded, ?_⟩
  rw [hread, hbounded]
  intro h
  exact absurd (fileBytes_injective (Option.some.inj h)) (by decide)

/-! ## The blocks visited -/

/-- What `read_data` reads of the image besides its counts: an entry of
`data_block_nums`, and a byte of the data block with a given number. -/
inductive Access
  | blockNum (k : Int)
  | byte (blk addr : Int)
  deriving DecidableEq, Repr

/-- The accesses of the loop of `read_data`. -/
def loopAccesses (img : Image) (inode limit : Int) :
    (n : Nat) → (idx addr blk count : Int) → List Access
  | 0, _, _, _, _ => []
  | n + 1, idx, addr, blk, count =>
    if addr = blockSize then
      if count > limit then []
      else
        let blk := img.blockNum inode (idx + 1)
        .blockNum (idx + 1) :: .byte blk 0
          :: loopAccesses img inode limit n (idx + 1) 1 blk (count + 1)
    else .byte blk addr :: loopAccesses img inode limit n idx (addr + 1) blk (count + 1)

/-- The accesses of `read_data`. -/
def accesses (img : Image) (inode offset length : Int) : List Access :=
  if u32 inode ≥ u32 img.numInodes then []
  else if u32 offset > u32 (img.inodeLength (u32 inode)) then []
  else
    let inode := u32 inode
    let offset := u32 offset
    let idx := offset / blockSize
    .blockNum idx :: img.loopAccesses inode (u32 (u32 (img.inodeLength inode) - offset))
      (u32 length).toNat idx (offset % blockSize) (img.blockNum inode idx) 0

/-- The byte that an access delivers. -/
def deref (img : Image) : Access → Option UInt8
  | .blockNum _ => none
  | .byte blk addr => some (img (img.dataAddr + blockSize * blk + addr))

theorem filterMap_blockNum (img : Image) (k : Int) (l : List Access) :
    (.blockNum k :: l).filterMap img.deref = l.filterMap img.deref := rfl

theorem filterMap_byte (img : Image) (blk addr : Int) (l : List Access) :
    (.byte blk addr :: l).filterMap img.deref
      = img (img.dataAddr + blockSize * blk + addr) :: l.filterMap img.deref := rfl

theorem readLoop_eq_accesses (img : Image) (inode limit : Int) (n : Nat)
    (idx addr blk count : Int) :
    img.readLoop inode limit n idx addr blk count
      = (img.loopAccesses inode limit n idx addr blk count).filterMap img.deref := by
  induction n generalizing idx addr blk count with
  | zero => rfl
  | succ n ih =>
    rw [readLoop, loopAccesses]
    split
    · split
      · rfl
      · dsimp only
        rw [ih, filterMap_blockNum, filterMap_byte, Int.add_zero]
    · rw [ih, filterMap_byte]

/-- The bytes that `read_data` delivers are those it accesses. -/
theorem readData_eq_accesses {img : Image} {inode offset length : Int} {bytes : List UInt8}
    (h : img.readData inode offset length = some bytes) :
    bytes = (img.accesses inode offset length).filterMap img.deref := by
  unfold readData at h
  unfold accesses
  split at h
  · cases h
  · rename_i hinode
    rw [if_neg hinode]
    split at h
    · rename_i hoffset
      cases h
      rw [if_pos hoffset]
      rfl
    · rename_i hoffset
      cases h
      rw [if_neg hoffset]
      dsimp only
      rw [filterMap_blockNum, readLoop_eq_accesses]

/-- The number of blocks that a file of a given length takes. -/
def numBlocks (length : Int) : Int := (length + blockSize - 1) / blockSize

/-- The access is to one of the file's own blocks. -/
def Access.Own (img : Image) (inode : Int) : Access → Prop
  | .blockNum k => 0 ≤ k ∧ k < numBlocks (img.inodeLength inode) ∧ k < 1023
  | .byte blk addr => 0 ≤ addr ∧ addr < blockSize ∧
    ∃ k, 0 ≤ k ∧ k < numBlocks (img.inodeLength inode) ∧ blk = img.blockNum inode k

/-- Every access within the loop is to a block at or before the one in which the
file's length lies. -/
theorem mem_loopAccesses {img : Image} {inode : Int} (length : Int) {limit idx addr blk count : Int}
    {n : Nat} {a : Access} (ha : a ∈ img.loopAccesses inode limit n idx addr blk count)
    (h0 : 0 ≤ addr) (haddr : addr ≤ blockSize) (hidx : 0 ≤ idx)
    (hblk : blk = img.blockNum inode idx)
    (hlimit : idx * blockSize + addr - count + limit = length) (hstart : idx * blockSize ≤ length) :
    ∃ k, 0 ≤ k ∧ k * blockSize ≤ length ∧ (a = .blockNum k ∨
      ∃ o, 0 ≤ o ∧ o < blockSize ∧ a = .byte (img.blockNum inode k) o) := by
  have hsize : blockSize = 4096 := rfl
  induction n generalizing idx addr blk count with
  | zero => cases ha
  | succ n ih =>
    rw [loopAccesses] at ha
    split at ha
    · rename_i hlast
      split at ha
      · cases ha
      · rename_i hcount
        dsimp only at ha
        have hnext : (idx + 1) * blockSize = idx * blockSize + addr := by
          rw [hlast, Int.add_mul, Int.one_mul]
        have hle : (idx + 1) * blockSize ≤ length := by omega
        rcases List.mem_cons.mp ha with rfl | ha
        · exact ⟨idx + 1, by omega, hle, Or.inl rfl⟩
        rcases List.mem_cons.mp ha with rfl | ha
        · exact ⟨idx + 1, by omega, hle, Or.inr ⟨0, Int.le_refl 0, by omega, rfl⟩⟩
        exact ih ha (by omega) (by omega) (by omega) rfl (by omega) hle
    · rename_i hlast
      rcases List.mem_cons.mp ha with rfl | ha
      · exact ⟨idx, hidx, hstart, Or.inr ⟨addr, h0, by omega, by rw [hblk]⟩⟩
      · exact ih ha (by omega) (by omega) hidx hblk (by omega) hstart

/-- A read that goes past the end of a file whose length is a multiple of the block
size looks up the entry after its last block. -/
theorem blockNum_mem_loopAccesses {img : Image} {inode : Int} (m : Int)
    {limit idx addr blk count : Int} {n : Nat} (haddr : addr ≤ blockSize)
    (hlimit : idx * blockSize + addr - count + limit = m * blockSize) (hidx : idx < m)
    (hn : m * blockSize < idx * blockSize + addr + n) :
    .blockNum m ∈ img.loopAccesses inode limit n idx addr blk count := by
  have hsize : blockSize = 4096 := rfl
  have hle : (idx + 1) * blockSize ≤ m * blockSize :=
    Int.mul_le_mul_of_nonneg_right hidx (by decide)
  have hnext : (idx + 1) * blockSize = idx * blockSize + blockSize := by
    rw [Int.add_mul, Int.one_mul]
  induction n generalizing idx addr blk count with
  | zero => omega
  | succ n ih =>
    rw [loopAccesses]
    by_cases hlast : addr = blockSize
    · rw [if_pos hlast, if_neg (by omega)]
      dsimp only
      by_cases hm : idx + 1 = m
      · rw [hm]
        exact List.mem_cons_self
      · have hlt : idx + 1 < m := by omega
        refine List.mem_cons_of_mem _ (List.mem_cons_of_mem _ (ih (by omega) (by omega) hlt
          (by push_cast at hn; omega) ?_ ?_))
        · exact Int.mul_le_mul_of_nonneg_right hlt (by decide)
        · rw [Int.add_mul (idx + 1), Int.one_mul]
    · rw [if_neg hlast]
      exact List.mem_cons_of_mem _ (ih (by omega) (by omega) hidx (by push_cast at hn; omega)
        hle hnext)

/-- The accesses of the read with which `execute` loads a program. -/
theorem accesses_load {img : Image} (hwf : img.WellFormed) {inode : Int}
    (hinode : 0 ≤ inode ∧ inode < img.numInodes) :
    img.accesses inode 0 0x400000 = .blockNum 0 :: img.loopAccesses inode
      (img.inodeLength inode) 0x400000 0 0 (img.blockNum inode 0) 0 := by
  obtain ⟨hsame, hcount, hlen⟩ := hwf.u32_inode hinode
  have hlength := hwf.length_lt hinode
  have hfrom : u32 0 = 0 := by decide
  unfold accesses
  rw [hsame, hcount, hlen, hfrom, if_neg (Int.not_le.mpr hinode.2),
    if_neg (Int.not_lt.mpr hlength.1)]
  dsimp only
  rw [hlen, Int.sub_zero, hlen]
  rfl

/-- The read with which `execute` loads a program reads the blocks of the file only
and ends with the last of them. -/
structure LoadsOwnBlocks (img : Image) (inode : Int) : Prop where
  own : ∀ a ∈ img.accesses inode 0 0x400000, a.Own img inode
  ends : ∀ bytes, img.readData inode 0 0x400000 = some bytes →
    (bytes.length : Int) ≤ numBlocks (img.inodeLength inode) * blockSize

theorem lt_numBlocks {k l : Int} (h : k * blockSize ≤ l) (hl : l % blockSize ≠ 0)
    (hmax : l ≤ 1023 * blockSize) : k < numBlocks l ∧ k < 1023 := by
  unfold numBlocks
  unfold blockSize at *
  omega

theorem blockEnd_eq_numBlocks {l : Int} (hl : l % blockSize ≠ 0) :
    blockEnd l = numBlocks l * blockSize := by
  unfold numBlocks blockEnd
  unfold blockSize at *
  omega

theorem numBlocks_mul (m : Int) : numBlocks (m * blockSize) = m := by
  unfold numBlocks blockSize
  omega

/-- A program is loaded from its own blocks exactly where its length is no multiple
of the block size. -/
theorem loadsOwnBlocks_iff {img : Image} (hwf : img.WellFormed) {inode : Int}
    (hinode : 0 ≤ inode ∧ inode < img.numInodes) :
    img.LoadsOwnBlocks inode ↔ img.inodeLength inode % blockSize ≠ 0 := by
  have hlength := hwf.length_lt hinode
  have hmax := (hwf.lengths inode hinode.1 hinode.2).2
  have haccesses := accesses_load hwf hinode
  constructor
  · intro h hmul
    -- The file has `m` blocks, numbered from 0, and entry `m` is looked up.
    obtain ⟨m, hm⟩ : ∃ m, img.inodeLength inode = m * blockSize :=
      ⟨_, (Int.ediv_mul_cancel (Int.dvd_of_emod_eq_zero hmul)).symm⟩
    have hmem : .blockNum m ∈ img.accesses inode 0 0x400000 := by
      rw [haccesses]
      by_cases hzero : m = 0
      · rw [hzero]
        exact List.mem_cons_self
      · have hpos : 0 < m := by
          rw [hm] at hlength
          unfold blockSize at hlength
          omega
        refine List.mem_cons_of_mem _ (blockNum_mem_loopAccesses m (by decide) ?_ hpos ?_)
        · rw [hm, Int.zero_mul, Int.sub_zero, Int.zero_add, Int.zero_add]
        · rw [← hm, Int.zero_mul]
          exact hlength.2
    have hown := h.own _ hmem
    have hlt : m < numBlocks (img.inodeLength inode) := hown.2.1
    rw [hm, numBlocks_mul] at hlt
    exact absurd hlt (Int.lt_irrefl m)
  · intro hmul
    refine ⟨fun a ha => ?_, fun bytes hbytes => ?_⟩
    · have hvisited : ∃ k, 0 ≤ k ∧ k * blockSize ≤ img.inodeLength inode ∧ (a = .blockNum k ∨
          ∃ o, 0 ≤ o ∧ o < blockSize ∧ a = .byte (img.blockNum inode k) o) := by
        rw [haccesses] at ha
        rcases List.mem_cons.mp ha with rfl | ha
        · exact ⟨0, Int.le_refl 0, by rw [Int.zero_mul]; exact hlength.1, Or.inl rfl⟩
        · refine mem_loopAccesses _ ha (Int.le_refl 0) (by decide) (Int.le_refl 0) rfl ?_ ?_
          · rw [Int.zero_mul, Int.sub_zero, Int.zero_add, Int.zero_add]
          · rw [Int.zero_mul]
            exact hlength.1
      obtain ⟨k, hk0, hk, rfl | ⟨o, ho0, ho, rfl⟩⟩ := hvisited
      · exact ⟨hk0, lt_numBlocks hk hmul hmax⟩
      · exact ⟨ho0, ho, k, hk0, (lt_numBlocks hk hmul hmax).1, rfl⟩
    · have hin : u32 0 ≤ img.inodeLength inode := hlength.1
      rw [readData_eq_fileBytes hwf hinode hin, Option.some.injEq] at hbytes
      rw [← hbytes, length_fileBytes, ← blockEnd_eq_numBlocks hmul]
      exact min_toNat_le (Int.sub_le_self _ (Int.le_refl 0))
        (Int.le_trans hlength.1 (Int.le_of_lt (lt_blockEnd _)))

/-- The program of 40 bytes is loaded from its one block. -/
theorem loadsOwnBlocks_shell : shellImage.LoadsOwnBlocks 0 :=
  (loadsOwnBlocks_iff shellImage_wellFormed (by decide)).mpr (by decide)

/-- `shellImage` with a program as long as a block. -/
def blockImage : Image := fun a =>
  if a = 4096 then 0 else if a = 4097 then 0x10 else shellImage a

theorem blockImage_wellFormed : blockImage.WellFormed := by
  refine wellFormed_of_single ?_ ?_ ?_ ?_ ?_ ?_ ?_
  all_goals decide

/-- A program as long as a block is loaded from two blocks. -/
theorem loads_past_block :
    blockImage.WellFormed ∧ blockImage.readData 0 0 4 = some [0x7F, 0x45, 0x4C, 0x46] ∧
      blockImage.inodeLength 0 = 4096 ∧ ¬ blockImage.LoadsOwnBlocks 0 := by
  refine ⟨blockImage_wellFormed, by decide, by decide, fun h => ?_⟩
  have hmem : .blockNum 1 ∈ blockImage.accesses 0 0 0x400000 := by
    rw [accesses_load blockImage_wellFormed (by decide)]
    exact List.mem_cons_of_mem _ (blockNum_mem_loopAccesses 1 (by decide) (by decide) (by decide)
      (by decide))
  have hlt : (1 : Int) < numBlocks (blockImage.inodeLength 0) := (h.own _ hmem).2.1
  exact absurd hlt (by decide)

end Image

end StudentDistrib
