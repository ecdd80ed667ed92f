import Fs5600.Base.PathMap
import Fs5600.Contents

/-! What the file system is for, apart from inodes, blocks and bits: at every path stands an object with attributes
and, if it is no directory, bytes. A request is refused with an error code or changes what stands at its path;
`fs_rename` moves what is below it as well. -/

namespace Fs5600

open Ownership Command

structure Node where
  stat : Stat
  bytes : List UInt8

namespace Node

def isDir (node : Node) : Bool := S_ISDIR node.stat.mode

def newFile (env : Env) (mode : UInt32) : Node := ⟨setstat (newInode env mode), []⟩

def newDir (env : Env) (mode : UInt32) : Node := ⟨setstat (newDirInode env mode 0), []⟩

def chmod (mode : UInt32) (node : Node) : Node :=
  { node with stat := { node.stat with mode := (node.stat.mode &&& S_IFMT) ||| (mode &&& 0o777) } }

def touch (time : UInt32) (node : Node) : Node :=
  { node with stat := { node.stat with atime := time, mtime := time } }

/-- Other bytes, with the size that goes with them. -/
def setBytes (bytes : List UInt8) (time : UInt32) (node : Node) : Node where
  stat := { node.stat with
    size := bytes.length
    atime := time
    mtime := time
    blocks := (bytes.length + 4095) / 4096 }
  bytes := bytes

end Node

/-- What stands at the paths. -/
abbrev Hierarchy : Type := PathMap (List UInt8) Node

/-- The error code for a path where nothing is found. -/
def missingErrno : Missing → Errno
  | .absent => .ENOENT
  | .notInner => .ENOTDIR

namespace Hierarchy

/-- What stands at a path, or the error code of a lookup. -/
def lookup (t : Hierarchy) (names : List (List UInt8)) : Except Errno Node :=
  (PathMap.find Node.isDir t [] names).mapError missingErrno

/-- A new object at a path, whose parent must be a directory. -/
def make (t : Hierarchy) (names : List (List UInt8)) (node : Node) : Except Errno Hierarchy := do
  let parent ← t.lookup names.dropLast
  if !parent.isDir then .error .ENOTDIR
  else if (t names).isSome then .error .EEXIST
  else .ok (Function.update t names (some node))

/-- What stands at a path is changed, if it is no directory. -/
def changeFile (t : Hierarchy) (names : List (List UInt8)) (change : Node → Except Errno Node) :
    Except Errno Hierarchy := do
  let node ← t.lookup names
  if node.isDir then .error .EISDIR
  else do
    let node' ← change node
    .ok (Function.update t names (some node'))

def change (t : Hierarchy) (names : List (List UInt8)) (f : Node → Node) : Except Errno Hierarchy := do
  let node ← t.lookup names
  .ok (Function.update t names (some (f node)))

/-- A write, which must not begin behind the end, and not end in a block before the last one. -/
def writeNode (buf : List UInt8) (offset : Nat) (time : UInt32) (node : Node) : Except Errno Node :=
  if node.bytes.length < offset then .error .EINVAL
  else if (offset + buf.length + 4095) / 4096 < (node.bytes.length + 4095) / 4096 then .error .ENOSPC
  else .ok (node.setBytes (splice buf offset node.bytes) time)

open Classical in
/-- A directory is removed, if nothing stands in it. -/
noncomputable def removeDir (t : Hierarchy) (names : List (List UInt8)) : Except Errno Hierarchy := do
  let node ← t.lookup names
  if !node.isDir then .error .ENOTDIR
  else if ∃ name, (t (names ++ [name])).isSome then .error .ENOTEMPTY
  else .ok (Function.update t names none)

def removeFile (t : Hierarchy) (names : List (List UInt8)) : Except Errno Hierarchy := do
  let node ← t.lookup names
  if node.isDir then .error .EISDIR
  else .ok (Function.update t names none)

/-- An object and what is below it get another name in the same directory. -/
def rename (t : Hierarchy) (src dst : List (List UInt8)) : Except Errno Hierarchy := do
  let _ ← (t.lookup src).mapError fun _ => .ENOENT
  let _ ← (t.lookup dst.dropLast).mapError fun _ => .ENOENT
  if src.dropLast ≠ dst.dropLast then .error .EINVAL
  else if dst ≠ src ∧ (t dst).isSome then .error .EEXIST
  else .ok (t.move src dst)

theorem changeFile_of_dir {t : Hierarchy} {names : List (List UInt8)} {node : Node} {change : Node → Except Errno Node}
    (hlookup : t.lookup names = .ok node) (hdir : node.isDir = true) : t.changeFile names change = .error .EISDIR := by
  rw [changeFile, hlookup]
  dsimp only [bind, Except.bind]
  rw [if_pos hdir]

theorem changeFile_of_file {t : Hierarchy} {names : List (List UInt8)} {node : Node} (hlookup : t.lookup names = .ok node)
    (hfile : node.isDir = false) (change : Node → Except Errno Node) :
    t.changeFile names change = (change node).map fun node' => Function.update t names (some node') := by
  rw [changeFile, hlookup]
  dsimp only [bind, Except.bind]
  rw [if_neg (by simp [hfile])]
  cases change node <;> rfl

end Hierarchy

/-- What a request is meant to do: the error code it is refused with, or what stands at the paths after it. -/
noncomputable def Op.meaning (env : Env) (t : Hierarchy) : Op → Except Errno Hierarchy
  | .create path mode => t.make (labels (pathparse path)) (.newFile env mode)
  | .mkdir path mode => t.make (labels (pathparse path)) (.newDir env mode)
  | .unlink path => t.removeFile (labels (pathparse path))
  | .rmdir path => t.removeDir (labels (pathparse path))
  | .rename srcPath dstPath => t.rename (labels (pathparse srcPath)) (labels (pathparse dstPath))
  | .chmod path mode => t.change (labels (pathparse path)) (.chmod mode)
  | .utime path modtime => t.change (labels (pathparse path)) (.touch (UInt32.ofInt modtime))
  | .truncate path len =>
      if len ≠ 0 then .error .EINVAL
      else t.changeFile (labels (pathparse path)) fun node => .ok (node.setBytes [] env.time)
  | .write path buf offset => t.changeFile (labels (pathparse path)) (Hierarchy.writeNode buf offset env.time)
  | .getattr _ | .readdir _ | .read _ _ _ | .statfs => .ok t

/-- The error codes for a lack of space: of blocks on the disk, or of slots in the parent directory. -/
def Op.Lacks : Op → Errno → Prop
  | .create _ _, code | .write _ _ _, code => code = .ENOSPC
  | .mkdir _ _, code => code = .ENOSPC ∨ code = .EOPNOTSUPP
  | _, _ => False

/-- A request ends as it is meant to, or for lack of space. -/
inductive Answers (env : Env) (op : Op) (t : Hierarchy) : Except Stop Int → Hierarchy → Prop
  | refused {code : Errno} (h : op.meaning env t = .error code) : Answers env op t (.error (.errno code)) t
  | lacks {code : Errno} {t' : Hierarchy} (h : op.meaning env t = .ok t') (hcode : op.Lacks code) :
      Answers env op t (.error (.errno code)) t
  | done {t' : Hierarchy} (h : op.meaning env t = .ok t') : Answers env op t (.ok op.success) t'

/-- What stands at the paths after a request that returned a value. -/
noncomputable def Request.after (request : Request) (t : Hierarchy) : Hierarchy :=
  match request.value, request.op.meaning request.env t with
  | .ok _, .ok t' => t'
  | _, _ => t

theorem Answers.after {request : Request} {t t' : Hierarchy}
    (h : Answers request.env request.op t request.value t') : request.after t = t' := by
  obtain ⟨env, op, value⟩ := request
  have hanswers : Answers env op t value t' := h
  unfold Request.after
  cases hanswers with
  | refused hmeaning => rfl
  | lacks hmeaning hcode => rfl
  | done hmeaning =>
      dsimp only
      rw [hmeaning]

/-! ### What a disk shows -/

/-- What stands where an object is. -/
def nodeAt (disk : Nat → Block) (inum : Nat) : Node where
  stat := setstat (inodeAt disk inum)
  bytes := if S_ISDIR (inodeAt disk inum).mode then [] else (inodeAt disk inum).contents disk

section Nodes

variable {disk disk' : Nat → Block} {inum : Nat}

theorem bytes_nodeAt (h : S_ISDIR (inodeAt disk inum).mode = false) :
    (nodeAt disk inum).bytes = (inodeAt disk inum).contents disk := by
  simp only [nodeAt, h, Bool.false_eq_true, if_false]

/-- What stands where an object is depends on its inode and, for a file, on its data. -/
theorem nodeAt_congr (hinode : inodeAt disk' inum = inodeAt disk inum)
    (hfits : (inodeAt disk inum).numBlocks ≤ numPtrs)
    (hblocks : S_ISDIR (inodeAt disk inum).mode = false → ∀ i : Fin numPtrs, i.val < (inodeAt disk inum).numBlocks →
      disk' ((inodeAt disk inum).ptrs i).toNat = disk ((inodeAt disk inum).ptrs i).toNat) :
    nodeAt disk' inum = nodeAt disk inum := by
  rw [nodeAt, nodeAt, hinode]
  cases hmode : S_ISDIR (inodeAt disk inum).mode with
  | true => rfl
  | false => rw [Inode.contents_congr rfl rfl hfits (hblocks hmode)]

end Nodes

end Fs5600
