import Fs5600.OpsData

/-! `fs_init`, the operations that read or change attributes, and the operations vector. -/

namespace Fs5600

open Command

/-- `fs_init`: the file system it mounts, if it mounts one. -/
def fsInit (env : Env) (disk : Nat → Block) : Option Fs :=
  if env.readFails 0 0 then none
  else if Words.le32 (disk 0).byte 0 ≠ fsMagic then none
  else if env.readFails 1 1 then none
  else some ⟨Words.le32 (disk 0).byte 4, disk 1, disk⟩

structure Stat where
  uid : UInt16
  gid : UInt16
  mode : UInt32
  size : Int
  nlink : Nat
  atime : UInt32
  mtime : UInt32
  ctime : UInt32
  blocks : Int
  deriving DecidableEq

def setstat (inode : Inode) : Stat where
  uid := inode.uid
  gid := inode.gid
  mode := inode.mode
  size := inode.size.toInt
  nlink := 1
  atime := inode.mtime
  mtime := inode.mtime
  ctime := inode.ctime
  blocks := (inode.size.toInt + 4095) / 4096 -- rounded up, also below zero

def fsGetattr (path : CStr) : Call Stat := do
  let (_, inode) ← translate path
  pure (setstat inode)

/-- The name handed to the filler; a field without a NUL is no C string. -/
def Dirent.fillerName (entry : Dirent) : Except Stop (List UInt8) :=
  if (0 : UInt8) ∈ List.ofFn entry.name then .ok entry.storedName else .error .fault

/-- The entries of one block handed to the filler. An entry whose inode cannot be read is left out. -/
def fillLoop (block : Block) : List (Fin direntsPerBlock) → Call (List (List UInt8 × Stat))
  | [] => pure []
  | slot :: rest => do
      if (block.dirent slot).valid then
        match ← attempt (readInode (block.dirent slot).inode.toNat) with
        | .ok inode =>
            let name ← lift (block.dirent slot).fillerName
            let others ← fillLoop block rest
            pure ((name, setstat inode) :: others)
        | .error _ => fillLoop block rest
      else
        fillLoop block rest

/-- The loop of `fs_readdir` over the blocks of the directory. -/
def readdirLoop (inode : Inode) : Nat → Nat → Call (List (List UInt8 × Stat))
  | 0, _ => pure []
  | left + 1, index => do
      let block ← blockRead (← lift (inode.ptr index))
      let entries ← fillLoop block (List.finRange direntsPerBlock)
      let others ← readdirLoop inode left (index + 1)
      pure (entries ++ others)

/-- `fs_readdir`: the names and attributes it hands to the filler, in order. -/
def fsReaddir (path : CStr) : Call (List (List UInt8 × Stat)) := do
  let (_, inode) ← translate path
  if !S_ISDIR inode.mode then
    err .ENOTDIR
  else
    readdirLoop inode inode.dirBlocks 0

/-- `fs_chmod`. The block is filled before `mtime` is set, so it holds the old one. -/
def fsChmod (path : CStr) (mode : UInt32) : Call Int := do
  let (inum, inode) ← translate path
  let inode := { inode with mode := (inode.mode &&& S_IFMT) ||| (mode &&& 0o777) }
  let block := inode.toBlock
  let _inode := { inode with mtime := (← ask).time }
  blockWrite inum block
  pure 0

/-- `fs_utime`; `modtime` is a `time_t`, cut to the 32 bits of the field. -/
def fsUtime (path : CStr) (modtime : Int) : Call Int := do
  let (inum, inode) ← translate path
  blockWrite inum { inode with mtime := UInt32.ofInt modtime : Inode }.toBlock
  pure 0

structure Statvfs where
  bsize : Nat
  blocks : UInt64
  bfree : UInt64
  bavail : UInt64
  namemax : Nat
  deriving DecidableEq

/-- The loop of `fs_statfs` that counts set bits. -/
def usedLoop (map : Block) : Nat → Nat → Nat → Except Stop Nat
  | 0, _, usedBlocks => .ok usedBlocks
  | left + 1, i, usedBlocks =>
      if bitmapBits ≤ i then .error .fault
      else usedLoop map left (i + 1) (if bitTest map i then usedBlocks + 1 else usedBlocks)

/-- `fs_statfs`. The block counts are 64-bit and unsigned. -/
def fsStatfs : Call Statvfs := do
  let diskSize ← getDiskSize
  let totalBlocks : Int := (Int32.ofNat diskSize).toInt
  let metadataBlocks : Int := 1 + 1
  let blocks := UInt64.ofInt (totalBlocks - metadataBlocks)
  let usedBlocks ← lift (usedLoop (← getBitmap) diskSize 0 0)
  let bfree := blocks - UInt64.ofNat usedBlocks
  pure ⟨fsBlockSize, blocks, bfree, bfree, maxNameLen⟩

/-- A request to the file system, one constructor for each entry of `fs_ops` but `init`. -/
inductive Op
  | getattr (path : CStr)
  | readdir (path : CStr)
  | rename (srcPath dstPath : CStr)
  | chmod (path : CStr) (mode : UInt32)
  | read (path : CStr) (len offset : Nat)
  | statfs
  | create (path : CStr) (mode : UInt32)
  | mkdir (path : CStr) (mode : UInt32)
  | unlink (path : CStr)
  | rmdir (path : CStr)
  | utime (path : CStr) (modtime : Int)
  | truncate (path : CStr) (len : Int)
  | write (path : CStr) (buf : List UInt8) (offset : Nat)

/-- `fs_ops`: the return value of a request. -/
def Op.call : Op → Call Int
  | .getattr path => do
      let _ ← fsGetattr path
      pure 0
  | .readdir path => do
      let _ ← fsReaddir path
      pure 0
  | .rename srcPath dstPath => fsRename srcPath dstPath
  | .chmod path mode => fsChmod path mode
  | .read path len offset => do
      let bytes ← fsRead path len offset
      pure (Int32.ofNat bytes.length).toInt
  | .statfs => do
      let _ ← fsStatfs
      pure 0
  | .create path mode => fsCreate path mode
  | .mkdir path mode => fsMkdir path mode
  | .unlink path => fsUnlink path
  | .rmdir path => fsRmdir path
  | .utime path modtime => fsUtime path modtime
  | .truncate path len => fsTruncate path len
  | .write path buf offset => fsWrite path buf offset

/-- What a request returns in a state, and the machine it leaves. -/
def Op.run (op : Op) (env : Env) (fs : Fs) : Except Stop Int × Machine := op.call env (.start fs)

end Fs5600
