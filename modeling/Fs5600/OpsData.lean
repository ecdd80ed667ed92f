import Fs5600.OpsRemove

/-! `fs_truncate`, `fs_read` and `fs_write`. Offsets are never negative: the kernel rejects a negative
position before it calls the file system. -/

namespace Fs5600

open Command

/-- The conversion of an integer to `double`: exact below `2^53`, else to the nearest multiple of the
last place, ties to even. -/
def toDouble (x : Nat) : Nat :=
  if x < 2 ^ 53 then x
  else
    let ulp := 2 ^ (Nat.log2 x - 52)
    let down := x / ulp
    if 2 * (x % ulp) < ulp ∨ (2 * (x % ulp) = ulp ∧ down % 2 = 0) then down * ulp else (down + 1) * ulp

/-- `(uint32_t)ceil((double)size / FS_BLOCK_SIZE)`. The division by a power of two is exact. A value out
of range is cut to its low 32 bits, as the conversion through a 64-bit integer does. -/
def blocksFor (size : Nat) : Nat := (toDouble size + 4095) / fsBlockSize % 2 ^ 32

theorem blocksFor_of_lt {size : Nat} (h : size < 2 ^ 43) : blocksFor size = (size + 4095) / 4096 := by
  rw [blocksFor, toDouble, if_pos (h.trans (by decide)), Nat.mod_eq_of_lt]
  simp only [fsBlockSize]
  omega

def fsTruncate (path : CStr) (len : Int) : Call Int := do
  if len ≠ 0 then
    err .EINVAL
  else
    let (inum, inode) ← translate path
    if S_ISDIR inode.mode then
      err .EISDIR
    else
      freeLoop inode inode.numBlocks 0
      blockWrite inum
        { inode with ptrs := fun _ => 0, size := 0, mtime := (← ask).time : Inode }.toBlock
      bitmapWrite
      pure 0

/-- `count` bytes of a block from an offset. -/
def Block.slice (block : Block) (offset count : Nat) : List UInt8 :=
  (List.range count).map fun i => block.byte (offset + i)

/-- The loop of `fs_read`. Every turn reads at least one byte, so `len` turns are enough. -/
def readLoop (inode : Inode) (offset len : Nat) : Nat → Nat → Call (List UInt8)
  | 0, _ => pure []
  | turns + 1, bytesRead =>
      if bytesRead < len then do
        let block ← blockRead (← lift (inode.ptr ((offset + bytesRead) / fsBlockSize)))
        let blockOffset := (offset + bytesRead) % fsBlockSize
        let copyLen := min (fsBlockSize - blockOffset) (len - bytesRead)
        let rest ← readLoop inode offset len turns (bytesRead + copyLen)
        pure (block.slice blockOffset copyLen ++ rest)
      else
        pure []

/-- `fs_read`: the bytes it puts in the buffer; the return value is their number. -/
def fsRead (path : CStr) (len offset : Nat) : Call (List UInt8) := do
  let (_, inode) ← translate path
  if !S_ISREG inode.mode then
    err .EISDIR
  else if inode.size.toInt ≤ offset then
    pure []
  else
    let size := inode.size.toInt.toNat
    let len := if size < (offset + len) % 2 ^ 64 then size - offset else len
    readLoop inode offset len len 0

def Inode.setPtr (inode : Inode) (index block : Nat) : Except Stop Inode :=
  if h : index < numPtrs then
    .ok { inode with ptrs := Function.update inode.ptrs ⟨index, h⟩ (UInt32.ofNat block) }
  else .error .fault

/-- The loop of `fs_write` that claims the blocks it needs. -/
def allocLoop (currentBlocks : Nat) : Nat → Nat → Inode → Call Inode
  | 0, _, inode => pure inode
  | left + 1, i, inode => do
      match ← lift (clearBit (← getBitmap) (← getDiskSize)) with
      | none => err .ENOSPC
      | some newBlock =>
          bitmapSet newBlock
          let inode ← lift (inode.setPtr (currentBlocks + i) newBlock)
          allocLoop currentBlocks left (i + 1) inode

/-- The block with some bytes replaced, `memcpy(block + offset, data, data_len)`. -/
def Block.overwrite (block : Block) (offset : Nat) (data : List UInt8) : Block :=
  Block.ofBytes fun i =>
    if offset ≤ i ∧ i < offset + data.length then data.getD (i - offset) 0 else block.byte i

/-- The loop of `fs_write` that copies the data. Every turn writes at least one byte, so as many turns
as there are bytes are enough. -/
def writeLoop (inode : Inode) (buf : List UInt8) (offset : Nat) : Nat → Nat → Call Nat
  | 0, bytesWritten => pure bytesWritten
  | turns + 1, bytesWritten =>
      if bytesWritten < buf.length then do
        let ptr ← lift (inode.ptr ((offset + bytesWritten) / fsBlockSize))
        let blockOffset := (offset + bytesWritten) % fsBlockSize
        let blockLen := min (buf.length - bytesWritten) (fsBlockSize - blockOffset)
        -- a block that is overwritten as a whole is not read
        let block ← if 0 < blockOffset ∨ blockLen < fsBlockSize then blockRead ptr else pure Block.zero
        blockWrite ptr (block.overwrite blockOffset ((buf.drop bytesWritten).take blockLen))
        writeLoop inode buf offset turns (bytesWritten + blockLen)
      else
        pure bytesWritten

/-- `fs_write`. The difference of the two block counts is taken in `uint32_t`, so it is never negative. -/
def fsWrite (path : CStr) (buf : List UInt8) (offset : Nat) : Call Int := do
  let (inum, inode) ← translate path
  if S_ISDIR inode.mode then
    err .EISDIR
  else if inode.size.toInt < offset then
    err .EINVAL
  else
    let newSize := (offset + buf.length) % 2 ^ 64
    let newBlocks := blocksFor newSize
    let currentBlocks := inode.numBlocks
    let newBlocksNeeded := (newBlocks + 2 ^ 32 - currentBlocks) % 2 ^ 32
    let inode ← allocLoop currentBlocks newBlocksNeeded 0 inode
    let bytesWritten ← writeLoop inode buf offset buf.length 0
    blockWrite inum
      { inode with
        size := Int32.ofNat (max inode.size.toInt.toNat newSize)
        mtime := (← ask).time : Inode }.toBlock
    if currentBlocks < newBlocks then
      bitmapWrite
      pure (Int32.ofNat bytesWritten).toInt
    else
      pure (Int32.ofNat bytesWritten).toInt

end Fs5600
