import Fs5600.Walk

/-! `fs_create` and `fs_mkdir`. -/

namespace Fs5600

open Command Search

/-- What `fs_create`, `fs_mkdir`, `fs_unlink` and `fs_rmdir` do with their path before they look into a
directory: the last name, the parent path, and the inode of the parent, which must be a directory. -/
def parentDir (path : CStr) : Call (CStr × Inode) := do
  let resolved := resolvePath (pathparse path)
  let name ← lastComponent resolved
  let parent ← parentPath resolved
  let (_, inode) ← translate parent
  if !S_ISDIR inode.mode then
    err .ENOTDIR
  else
    pure (name, inode)

/-- The loop that looks for a clear bit, with the number of bits left. A bit past the end of the bitmap
is outside the array. -/
def clearBitLoop (map : Block) : Nat → Nat → Except Stop (Option Nat)
  | 0, _ => .ok none
  | left + 1, i =>
      if bitmapBits ≤ i then .error .fault
      else if !bitTest map i then .ok (some i)
      else clearBitLoop map left (i + 1)

/-- The first clear bit in `[2, disk_size)`. -/
def clearBit (map : Block) (diskSize : Nat) : Except Stop (Option Nat) :=
  clearBitLoop map (diskSize - 2) 2

def strncpy (field : Fin nameLen → UInt8) (s : CStr) (count : Nat) : Fin nameLen → UInt8 := fun i =>
  if i.val < count then s.bytes.getD i 0 else field i

/-- `strncpy(entry.name, s, MAX_NAME_LEN)` and the terminator after it. -/
def copyName (field : Fin nameLen → UInt8) (s : CStr) : Fin nameLen → UInt8 :=
  Function.update (strncpy field s maxNameLen) ⟨maxNameLen - 1, by decide⟩ 0

/-- An unused entry filled in. -/
def Dirent.fill (entry : Dirent) (inum : Nat) (name : CStr) : Dirent :=
  ⟨true, BitVec.ofNat 31 inum, copyName entry.name name⟩

/-- The last loop of `fs_create` and `fs_mkdir`: fill in the first unused entry of the parent. -/
def addEntry (parent : Inode) (inum : Nat) (name : CStr) (full : Errno) : Call Int := do
  match ← searchDir isUnused parent with
  | none => err full
  | some hit =>
      blockWrite (parent.ptrs hit.index).toNat
        (hit.block.setDirent hit.slot (hit.entry.fill inum name))
      pure 0

def newInode (env : Env) (mode : UInt32) : Inode :=
  { Inode.zero with
    uid := env.uid.toUInt16
    gid := env.gid.toUInt16
    mode := mode
    ctime := env.time
    mtime := env.time }

def fsCreate (path : CStr) (mode : UInt32) : Call Int := do
  let (filename, parent) ← parentDir path
  match ← searchDir (hasName filename) parent with
  | some _ => err .EEXIST
  | none =>
      match ← lift (clearBit (← getBitmap) (← getDiskSize)) with
      | none => err .ENOSPC
      | some inum =>
          bitmapSet inum
          bitmapWrite
          if ← tryBlockWrite inum (newInode (← ask) mode).toBlock then
            addEntry parent inum filename .ENOSPC
          else
            bitmapClear inum
            -- the result of this write is ignored
            let _ ← tryBlockWrite 1 (← getBitmap)
            err Errno.EIO

/-- The loop of `fs_mkdir` that looks for two clear bits at once. -/
def clearBitsLoop (map : Block) : Nat → Nat → Nat → Nat → Except Stop (Nat × Nat)
  | 0, _, dirInum, dataBlock => .ok (dirInum, dataBlock)
  | left + 1, i, dirInum, dataBlock =>
      if bitmapBits ≤ i then .error .fault
      else if dirInum = 0 ∧ bitTest map i = false then clearBitsLoop map left (i + 1) i dataBlock
      else if dataBlock = 0 ∧ bitTest map i = false then .ok (dirInum, i)
      else clearBitsLoop map left (i + 1) dirInum dataBlock

/-- `dir_inum` and `data_block`, zero where no clear bit was found. -/
def clearBits (map : Block) (diskSize : Nat) : Except Stop (Nat × Nat) :=
  clearBitsLoop map (diskSize - 2) 2 0 0

def newDirInode (env : Env) (mode : UInt32) (dataBlock : Nat) : Inode :=
  { newInode env (S_IFDIR ||| mode) with
    size := 4096
    ptrs := Function.update (fun _ => 0) 0 (UInt32.ofNat dataBlock) }

/-- `fs_mkdir` where one of its block writes failed. -/
def undoMkdir (dirInum dataBlock : Nat) : Call Int := do
  bitmapClear dirInum
  bitmapClear dataBlock
  -- the result of this write is ignored
  let _ ← tryBlockWrite 1 (← getBitmap)
  err Errno.EIO

def fsMkdir (path : CStr) (mode : UInt32) : Call Int := do
  let (dirname, parent) ← parentDir path
  match ← searchDir (hasName dirname) parent with
  | some _ => err .EEXIST
  | none =>
      let (dirInum, dataBlock) ← lift (clearBits (← getBitmap) (← getDiskSize))
      if dirInum = 0 ∨ dataBlock = 0 then
        err .ENOSPC
      else
        bitmapSet dirInum
        bitmapSet dataBlock
        bitmapWrite
        if ← tryBlockWrite dirInum (newDirInode (← ask) mode dataBlock).toBlock then
          if ← tryBlockWrite dataBlock Block.zero then
            addEntry parent dirInum dirname .EOPNOTSUPP
          else
            undoMkdir dirInum dataBlock
        else
          undoMkdir dirInum dataBlock

end Fs5600
