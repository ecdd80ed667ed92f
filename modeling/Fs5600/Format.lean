import Fs5600.Base.Words

/-! The on-disk format of `fs5600.h`: blocks, inodes and directory entries, read out of raw bytes and
written back into them. A block is 4096 bytes and nothing else; what it holds depends on who reads it. -/

namespace Fs5600

open Words

abbrev fsBlockSize : Nat := 4096

abbrev fsMagic : Nat := 0x30303635

abbrev maxPathLen : Nat := 10

abbrev maxNameLen : Nat := 27

/-- The length of `ptrs` in `struct fs_inode`: `FS_BLOCK_SIZE/4 - 5`. -/
abbrev numPtrs : Nat := 1019

instance : NeZero numPtrs := ⟨by decide⟩

abbrev nameLen : Nat := 28

/-- `FS_BLOCK_SIZE / sizeof(struct fs_dirent)` -/
abbrev direntsPerBlock : Nat := 128

instance : NeZero direntsPerBlock := ⟨by decide⟩

abbrev Block := Fin fsBlockSize → UInt8

namespace Block

/-- The block of zero bytes, `memset(block, 0, FS_BLOCK_SIZE)`. -/
def zero : Block := fun _ => 0

def byte (block : Block) (offset : Nat) : UInt8 :=
  if h : offset < fsBlockSize then block ⟨offset, h⟩ else 0

/-- The block with the given bytes. -/
def ofBytes (bytes : Nat → UInt8) : Block := fun offset => bytes offset

theorem byte_ofBytes (bytes : Nat → UInt8) {offset : Nat} (h : offset < fsBlockSize) :
    (ofBytes bytes).byte offset = bytes offset := by
  simp only [byte, ofBytes, dif_pos h]

@[simp] theorem byte_zero (offset : Nat) : zero.byte offset = 0 := by
  simp only [byte, zero, dite_eq_ite, ite_self]

end Block

/-- A C string: bytes without a NUL. -/
@[ext] structure CStr where
  bytes : List UInt8
  nulFree : (0 : UInt8) ∉ bytes
  deriving DecidableEq

def CStr.strlen (s : CStr) : Nat := s.bytes.length

/-! ### File modes -/

def S_IFMT : UInt32 := 0o170000

def S_IFDIR : UInt32 := 0o040000

def S_IFREG : UInt32 := 0o100000

def S_ISDIR (mode : UInt32) : Bool := mode &&& S_IFMT == S_IFDIR

def S_ISREG (mode : UInt32) : Bool := mode &&& S_IFMT == S_IFREG

theorem S_ISDIR_eq_false_of_isReg {mode : UInt32} (h : S_ISREG mode = true) : S_ISDIR mode = false := by
  simp only [S_ISREG, beq_iff_eq] at h
  simp only [S_ISDIR, h]
  decide

/-! ### Inodes -/

structure Inode where
  uid : UInt16
  gid : UInt16
  mode : UInt32
  ctime : UInt32
  mtime : UInt32
  size : Int32
  ptrs : Fin numPtrs → UInt32

namespace Inode

/-- The inode of zero bytes, `memset(&inode, 0, sizeof(struct fs_inode))`. -/
def zero : Inode := ⟨0, 0, 0, 0, 0, 0, fun _ => 0⟩

/-- `memcpy` of a block to an inode. -/
def ofBlock (block : Block) : Inode where
  uid := UInt16.ofNat (le16 block.byte 0)
  gid := UInt16.ofNat (le16 block.byte 2)
  mode := UInt32.ofNat (le32 block.byte 4)
  ctime := UInt32.ofNat (le32 block.byte 8)
  mtime := UInt32.ofNat (le32 block.byte 12)
  size := (UInt32.ofNat (le32 block.byte 16)).toInt32
  ptrs i := UInt32.ofNat (le32 block.byte (20 + 4 * i))

/-- The bytes of an inode, field after field. -/
def bytes (inode : Inode) (offset : Nat) : UInt8 :=
  if offset < 2 then byteOf inode.uid.toNat offset
  else if offset < 4 then byteOf inode.gid.toNat (offset - 2)
  else if offset < 8 then byteOf inode.mode.toNat (offset - 4)
  else if offset < 12 then byteOf inode.ctime.toNat (offset - 8)
  else if offset < 16 then byteOf inode.mtime.toNat (offset - 12)
  else if offset < 20 then byteOf inode.size.toUInt32.toNat (offset - 16)
  else if h : (offset - 20) / 4 < numPtrs then
    byteOf (inode.ptrs ⟨(offset - 20) / 4, h⟩).toNat ((offset - 20) % 4)
  else 0

/-- `memcpy` of an inode to a block. An inode fills its block. -/
def toBlock (inode : Inode) : Block := Block.ofBytes inode.bytes

theorem bytes_ptrs (inode : Inode) (index : Fin numPtrs) {i : Nat} (hi : i < 4) :
    inode.bytes (20 + 4 * index + i) = byteOf (inode.ptrs index).toNat i := by
  have hindex : (20 + 4 * index.val + i - 20) / 4 = index.val := by omega
  have hbyte : (20 + 4 * index.val + i - 20) % 4 = i := by omega
  have hlt : (20 + 4 * index.val + i - 20) / 4 < numPtrs := by rw [hindex]; exact index.isLt
  simp only [bytes, show ¬20 + 4 * index.val + i < 2 by omega, show ¬20 + 4 * index.val + i < 4 by omega,
    show ¬20 + 4 * index.val + i < 8 by omega, show ¬20 + 4 * index.val + i < 12 by omega,
    show ¬20 + 4 * index.val + i < 16 by omega, show ¬20 + 4 * index.val + i < 20 by omega,
    if_false, dif_pos hlt, hbyte]
  congr 3
  exact Fin.ext hindex

/-- Four bytes of an inode's image below the end of the block. -/
private theorem le32_toBlock (inode : Inode) {offset word : Nat} (hword : word < 2 ^ 32)
    (hoffset : offset + 4 ≤ fsBlockSize) (h : ∀ i < 4, inode.bytes (offset + i) = byteOf word i) :
    le32 inode.toBlock.byte offset = word := by
  refine le32_of_bytes hword fun i hi => ?_
  simp only [fsBlockSize] at hoffset
  rw [toBlock, Block.byte_ofBytes _ (show offset + i < 4096 by omega), h i hi]

/-- An inode copied to a block is read back unchanged. -/
@[simp] theorem ofBlock_toBlock (inode : Inode) : ofBlock inode.toBlock = inode := by
  have huid : le16 inode.toBlock.byte 0 = inode.uid.toNat := by
    refine le16_of_bytes inode.uid.toNat_lt fun i hi => ?_
    rw [toBlock, Block.byte_ofBytes _ (show 0 + i < 4096 by omega)]
    simp only [Nat.zero_add, bytes, hi, if_true]
  have hgid : le16 inode.toBlock.byte 2 = inode.gid.toNat := by
    refine le16_of_bytes inode.gid.toNat_lt fun i hi => ?_
    rw [toBlock, Block.byte_ofBytes _ (show 2 + i < 4096 by omega)]
    simp only [bytes, show ¬2 + i < 2 by omega, show 2 + i < 4 by omega, if_true, if_false,
      Nat.add_sub_cancel_left]
  have hmode : le32 inode.toBlock.byte 4 = inode.mode.toNat :=
    le32_toBlock inode inode.mode.toNat_lt (by decide) fun i hi => by
      simp only [bytes, show ¬4 + i < 2 by omega, show ¬4 + i < 4 by omega, show 4 + i < 8 by omega,
        if_true, if_false, Nat.add_sub_cancel_left]
  have hctime : le32 inode.toBlock.byte 8 = inode.ctime.toNat :=
    le32_toBlock inode inode.ctime.toNat_lt (by decide) fun i hi => by
      simp only [bytes, show ¬8 + i < 2 by omega, show ¬8 + i < 4 by omega, show ¬8 + i < 8 by omega,
        show 8 + i < 12 by omega, if_true, if_false, Nat.add_sub_cancel_left]
  have hmtime : le32 inode.toBlock.byte 12 = inode.mtime.toNat :=
    le32_toBlock inode inode.mtime.toNat_lt (by decide) fun i hi => by
      simp only [bytes, show ¬12 + i < 2 by omega, show ¬12 + i < 4 by omega, show ¬12 + i < 8 by omega,
        show ¬12 + i < 12 by omega, show 12 + i < 16 by omega, if_true, if_false, Nat.add_sub_cancel_left]
  have hsize : le32 inode.toBlock.byte 16 = inode.size.toUInt32.toNat :=
    le32_toBlock inode inode.size.toUInt32.toNat_lt (by decide) fun i hi => by
      simp only [bytes, show ¬16 + i < 2 by omega, show ¬16 + i < 4 by omega, show ¬16 + i < 8 by omega,
        show ¬16 + i < 12 by omega, show ¬16 + i < 16 by omega, show 16 + i < 20 by omega, if_true,
        if_false, Nat.add_sub_cancel_left]
  have hptrs : ∀ index : Fin numPtrs,
      le32 inode.toBlock.byte (20 + 4 * index) = (inode.ptrs index).toNat := fun index =>
    le32_toBlock inode (inode.ptrs index).toNat_lt
      (by have := index.isLt; simp only [fsBlockSize, numPtrs] at *; omega)
      (fun i hi => inode.bytes_ptrs index hi)
  simp only [ofBlock, huid, hgid, hmode, hctime, hmtime, hsize, hptrs, UInt16.ofNat_toNat,
    UInt32.ofNat_toNat, Int32.toInt32_toUInt32]

/-- `ceil((double) inode.size / FS_BLOCK_SIZE)`, the number of data blocks of a file or directory. The
division is exact and the size has 31 bits, so no rounding happens before `ceil`. -/
def numBlocks (inode : Inode) : Nat := (inode.size.toInt + 4095).toNat / fsBlockSize

/-- `inode.size / FS_BLOCK_SIZE`, the number of blocks a walk looks through. The loops that use it
compare it as a signed number, so a negative size counts as zero. -/
def dirBlocks (inode : Inode) : Nat := inode.size.toInt.toNat / fsBlockSize

theorem dirBlocks_le_numBlocks (inode : Inode) : inode.dirBlocks ≤ inode.numBlocks := by
  simp only [dirBlocks, numBlocks, fsBlockSize]
  omega

end Inode

/-! ### Directory entries -/

structure Dirent where
  valid : Bool
  inode : BitVec 31
  name : Fin nameLen → UInt8

namespace Dirent

/-- The entry whose 32 bytes start at an offset. `valid` is the low bit of the first word. -/
def ofBytes (bytes : Nat → UInt8) (offset : Nat) : Dirent where
  valid := le32 bytes offset % 2 == 1
  inode := BitVec.ofNat 31 (le32 bytes offset / 2)
  name i := bytes (offset + 4 + i)

/-- The bytes of an entry. -/
def bytes (entry : Dirent) (offset : Nat) : UInt8 :=
  if offset < 4 then byteOf (entry.valid.toNat + 2 * entry.inode.toNat) offset
  else if h : offset - 4 < nameLen then entry.name ⟨offset - 4, h⟩
  else 0

/-- The stored name: the bytes of the name field before its first NUL. -/
def storedName (entry : Dirent) : List UInt8 := (List.ofFn entry.name).takeWhile (· ≠ 0)

end Dirent

namespace Block

/-- `((struct fs_dirent *) block)[slot]` -/
def dirent (block : Block) (slot : Fin direntsPerBlock) : Dirent := Dirent.ofBytes block.byte (32 * slot)

def setDirent (block : Block) (slot : Fin direntsPerBlock) (entry : Dirent) : Block :=
  ofBytes fun offset => if offset / 32 = slot.val then entry.bytes (offset % 32) else block.byte offset

private theorem byte_setDirent (block : Block) (slot slot' : Fin direntsPerBlock) (entry : Dirent) {i : Nat}
    (hi : i < 32) : (block.setDirent slot entry).byte (32 * slot' + i) =
      if slot' = slot then entry.bytes i else block.byte (32 * slot' + i) := by
  have hlt : 32 * slot'.val + i < 4096 := by have := slot'.isLt; simp only [direntsPerBlock] at this; omega
  rw [setDirent, byte_ofBytes _ hlt, show (32 * slot'.val + i) / 32 = slot'.val by omega,
    show (32 * slot'.val + i) % 32 = i by omega]
  simp only [Fin.ext_iff]

theorem dirent_setDirent_self (block : Block) (slot : Fin direntsPerBlock) (entry : Dirent) :
    (block.setDirent slot entry).dirent slot = entry := by
  have hword : le32 (block.setDirent slot entry).byte (32 * slot) =
      entry.valid.toNat + 2 * entry.inode.toNat := by
    refine le32_of_bytes ?_ fun i hi => ?_
    · have := entry.inode.isLt
      have := entry.valid.toNat_le
      omega
    · rw [byte_setDirent _ _ _ _ (by omega), if_pos rfl, Dirent.bytes, if_pos hi]
  have hname : ∀ i : Fin nameLen, (block.setDirent slot entry).byte (32 * slot + 4 + i) = entry.name i := by
    intro i
    have hi := i.isLt
    simp only [nameLen] at hi
    rw [show 32 * slot.val + 4 + i.val = 32 * slot.val + (4 + i.val) by omega,
      byte_setDirent _ _ _ _ (by omega), if_pos rfl, Dirent.bytes, if_neg (by omega),
      dif_pos (show 4 + i.val - 4 < 28 by omega)]
    exact congrArg entry.name (Fin.ext (by simp))
  have hvalid := entry.valid.toNat_le
  have hinode : (entry.valid.toNat + 2 * entry.inode.toNat) / 2 = entry.inode.toNat := by omega
  have hbit : ((entry.valid.toNat + 2 * entry.inode.toNat) % 2 == 1) = entry.valid := by
    cases entry.valid <;> simp
  simp only [dirent, Dirent.ofBytes, hword, hname, hinode, hbit, BitVec.ofNat_toNat, BitVec.setWidth_eq]

theorem dirent_setDirent_ne (block : Block) {slot slot' : Fin direntsPerBlock} (entry : Dirent)
    (h : slot' ≠ slot) : (block.setDirent slot entry).dirent slot' = block.dirent slot' := by
  have hbyte : ∀ i < 32, (block.setDirent slot entry).byte (32 * slot' + i) = block.byte (32 * slot' + i) :=
    fun i hi => by rw [byte_setDirent _ _ _ _ hi, if_neg h]
  have hword : le32 (block.setDirent slot entry).byte (32 * slot') = le32 block.byte (32 * slot') :=
    le32_congr fun i hi => hbyte i (by omega)
  have hname : ∀ i : Fin nameLen, (block.setDirent slot entry).byte (32 * slot' + 4 + i) =
      block.byte (32 * slot' + 4 + i) := by
    intro i
    have hi := i.isLt
    simp only [nameLen] at hi
    rw [show 32 * slot'.val + 4 + i.val = 32 * slot'.val + (4 + i.val) by omega]
    exact hbyte _ (by omega)
  simp only [dirent, Dirent.ofBytes, hword, hname]

theorem dirent_setDirent (block : Block) (slot slot' : Fin direntsPerBlock) (entry : Dirent) :
    (block.setDirent slot entry).dirent slot' = if slot' = slot then entry else block.dirent slot' := by
  split_ifs with h
  · rw [h, dirent_setDirent_self]
  · exact dirent_setDirent_ne block entry h

/-- A block of zero bytes holds no valid entry. -/
theorem valid_dirent_zero (slot : Fin direntsPerBlock) : (zero.dirent slot).valid = false := by
  simp [dirent, Dirent.ofBytes, le32, le16]

end Block

end Fs5600
