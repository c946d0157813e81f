import StudentDistrib.Basic

/-!
# The file-system image

The image is raw memory seen from `boot_block`, and its structures are read from
it at the offsets their declarations give, so that a scan that leaves a field
runs into the next one as it does in memory.  `int32_t` fields are decoded as
signed values and compared as the source compares them.
-/

namespace StudentDistrib

open Machine

abbrev Image := Bytes

namespace Image

/-- Four bytes in little-endian order. -/
def word (img : Image) (a : Int) : Int :=
  (img a).toNat + 256 * (img (a + 1)).toNat + 65536 * (img (a + 2)).toNat
    + 16777216 * (img (a + 3)).toNat

/-- An `int32_t` field. -/
def int32At (img : Image) (a : Int) : Int := i32 (img.word a)

def numDirectoryEntries (img : Image) : Int := img.int32At 0

def numInodes (img : Image) : Int := img.int32At 4

def numDataBlocks (img : Image) : Int := img.int32At 8

/-- `&boot_block->directory_entries[i]`. -/
def entryAddr (i : Int) : Int := 64 + 64 * i

def entryFilename (img : Image) (i : Int) : Bytes := fun j => img (entryAddr i + j)

def entryFiletype (img : Image) (i : Int) : Int := img.int32At (entryAddr i + 32)

def entryInode (img : Image) (i : Int) : Int := img.int32At (entryAddr i + 36)

/-- `(struct inode_t*)(boot_block + 1) + inode`. -/
def inodeAddr (inode : Int) : Int := blockSize + blockSize * inode

def inodeLength (img : Image) (inode : Int) : Int := img.int32At (inodeAddr inode)

/-- `data_block_nums[k]`, with no bound on `k`. -/
def blockNum (img : Image) (inode k : Int) : Int := img.int32At (inodeAddr inode + 4 + 4 * k)

/-- `dataStart`. -/
def dataAddr (img : Image) : Int := blockSize + blockSize * img.numInodes

/-! ## Names -/

/-- The length of the string at `s`, counted no further than `bound`. -/
def strlen (s : Bytes) : Nat → Nat
  | 0 => 0
  | bound + 1 => if s 0 = 0 then 0 else strlen (fun i => s (i + 1)) bound + 1

/-- `strncmp`, on signed characters. -/
def strncmp (s t : Bytes) : Nat → Int
  | 0 => 0
  | n + 1 =>
    if s 0 ≠ t 0 ∨ s 0 = 0 then (s 0).toInt8.toInt - (t 0).toInt8.toInt
    else strncmp (fun i => s (i + 1)) (fun i => t (i + 1)) n

/-- `dentry_t` without its reserved bytes. -/
structure Dentry where
  filename : Bytes
  filetype : Int
  inodeNum : Int

/-- `read_dentry_by_index` into `old`.  The name's bytes are copied up to its
terminator, which is not, and the bytes copied past the field are overwritten by
the two fields after it. -/
def readDentryByIndex (img : Image) (index : Int) (old : Dentry) : Option Dentry :=
  if u32 index ≥ u32 img.numDirectoryEntries then none
  else
    let name := img.entryFilename index
    some
      { filename := Bytes.copy (strlen name filenameLen) name old.filename
        filetype := img.entryFiletype index
        inodeNum := img.entryInode index }

/-- The index that the scan of `read_dentry_by_name` ends with: the last entry
whose name compares equal. -/
def findEntry (img : Image) (fname : Bytes) : Option Nat :=
  (List.range img.numDirectoryEntries.toNat).foldl
    (fun index (i : Nat) =>
      if strncmp fname (img.entryFilename i) filenameLen = 0 then some i else index)
    none

def readDentryByName (img : Image) (fname : Bytes) (old : Dentry) : Option Dentry :=
  -- A bound of 33 decides whether the length exceeds 32.
  if strlen fname 33 > filenameLen then none
  else
    match img.findEntry fname with
    | none => none
    | some index => img.readDentryByIndex index old

/-! ## File data -/

/-- The loop of `read_data`.  `n` iterations are left, `count` bytes are read,
`blk` is the current data block number and `limit` is `length - offset`. -/
def readLoop (img : Image) (inode limit : Int) :
    (n : Nat) → (idx addr blk count : Int) → List UInt8
  | 0, _, _, _, _ => []
  | n + 1, idx, addr, blk, count =>
    if addr = blockSize then
      if count > limit then []
      else
        let blk := img.blockNum inode (idx + 1)
        img (img.dataAddr + blockSize * blk)
          :: readLoop img inode limit n (idx + 1) 1 blk (count + 1)
    else
      img (img.dataAddr + blockSize * blk + addr)
        :: readLoop img inode limit n idx (addr + 1) blk (count + 1)

/-- `read_data`: `none` for -1, otherwise the bytes stored in the buffer, whose
number is the value returned. -/
def readData (img : Image) (inode offset length : Int) : Option (List UInt8) :=
  if u32 inode ≥ u32 img.numInodes then none
  else if u32 offset > u32 (img.inodeLength (u32 inode)) then some []
  else
    let inode := u32 inode
    let offset := u32 offset
    let idx := offset / blockSize
    some (img.readLoop inode (u32 (u32 (img.inodeLength inode) - offset)) (u32 length).toNat
      idx (offset % blockSize) (img.blockNum inode idx) 0)

end Image

end StudentDistrib
