import Fs5600.OpsCreate

/-! `fs_unlink`, `fs_rmdir` and `fs_rename`. -/

namespace Fs5600

open Command Search

def Dirent.invalidate (entry : Dirent) : Dirent := { entry with valid := false }

/-- The loop of `fs_unlink` and `fs_rmdir` over the parent: invalidate the first entry of that name. The
loop may end without one. -/
def removeEntry (parent : Inode) (name : CStr) : Call Unit := do
  match ← searchDir (hasName name) parent with
  | none => pure ()
  | some hit =>
      blockWrite (parent.ptrs hit.index).toNat
        (hit.block.setDirent hit.slot hit.entry.invalidate)

/-- The loop that clears the bits of the data blocks of a file. -/
def freeLoop (inode : Inode) : Nat → Nat → Call Unit
  | 0, _ => pure ()
  | left + 1, index => do
      let ptr ← lift (inode.ptr index)
      if ptr ≠ 0 then
        bitmapClear ptr
        freeLoop inode left (index + 1)
      else
        freeLoop inode left (index + 1)

def fsUnlink (path : CStr) : Call Int := do
  let (inum, inode) ← translate path
  if S_ISDIR inode.mode then
    err .EISDIR
  else
    let (filename, parent) ← parentDir path
    removeEntry parent filename
    freeLoop inode inode.numBlocks 0
    bitmapClear inum
    bitmapWrite
    pure 0

/-- The first part of `fs_rmdir`: the directory to remove, whose first block must hold no entry. -/
def rmdirCheck (path : CStr) : Call (Nat × Inode) := do
  let (inum, inode) ← translate path
  if !S_ISDIR inode.mode then
    err .ENOTDIR
  else
    -- the source: "directory will have only one block"
    let block ← blockRead (inode.ptrs 0).toNat
    if (List.finRange direntsPerBlock).any fun slot => (block.dirent slot).valid then
      err .ENOTEMPTY
    else
      pure (inum, inode)

/-- The part of `fs_rmdir` before it changes the bitmap. -/
def rmdirEntry (path : CStr) : Call (Nat × Inode) := do
  let (inum, inode) ← rmdirCheck path
  let (filename, parent) ← parentDir path
  removeEntry parent filename
  pure (inum, inode)

def fsRmdir (path : CStr) : Call Int := do
  let (inum, inode) ← rmdirEntry path
  bitmapClear (inode.ptrs 0).toNat
  bitmapClear inum
  bitmapWrite
  pure 0

/-- Any error becomes `-ENOENT`. -/
def toENOENT : Stop → Stop
  | .errno _ => .errno .ENOENT
  | .fault => .fault

/-- The loop of `fs_rename` over the entries of a block: the last entry named `src`, and whether another
one is named `dst`. -/
def renameSlots (src dst : CStr) (block : Block) :
    List (Fin direntsPerBlock) → Option (Fin direntsPerBlock) → Bool →
      Except Stop (Option (Fin direntsPerBlock) × Bool)
  | [], srcEntry, dstEntry => .ok (srcEntry, dstEntry)
  | slot :: rest, srcEntry, dstEntry =>
      if !(block.dirent slot).valid then renameSlots src dst block rest srcEntry dstEntry
      else
        match (block.dirent slot).strcmp src with
        | .error reason => .error reason
        | .ok true => renameSlots src dst block rest (some slot) dstEntry
        | .ok false =>
            match (block.dirent slot).strcmp dst with
            | .error reason => .error reason
            | .ok true => renameSlots src dst block rest srcEntry true
            | .ok false => renameSlots src dst block rest srcEntry dstEntry

/-- The loop of `fs_rename` over the blocks of the directory. `src_entry` is `NULL` at the start of every
turn, since a turn that sets it returns; `dst_entry` stays. -/
def renameLoop (src dst : CStr) (inode : Inode) : Nat → Nat → Bool → Call Int
  | 0, _, _ => err .EOPNOTSUPP
  | left + 1, index, dstEntry =>
      if h : index < numPtrs then do
        let block ← blockRead (inode.ptrs ⟨index, h⟩).toNat
        match ← lift (renameSlots src dst block (List.finRange direntsPerBlock) none dstEntry) with
        | (some _, true) => err .EEXIST
        | (some slot, false) =>
            let entry := block.dirent slot
            blockWrite (inode.ptrs ⟨index, h⟩).toNat
              (block.setDirent slot { entry with name := copyName entry.name dst })
            pure 0
        | (none, dstEntry) => renameLoop src dst inode left (index + 1) dstEntry
      else fault

def fsRename (srcPath dstPath : CStr) : Call Int := do
  let _ ← mapStop toENOENT (translate srcPath)
  let resolvedSrc := resolvePath (pathparse srcPath)
  let resolvedDst := resolvePath (pathparse dstPath)
  let srcName ← lastComponent resolvedSrc
  let dstName ← lastComponent resolvedDst
  let parentSrc ← parentPath resolvedSrc
  let parentDst ← parentPath resolvedDst
  let (srcParent, _) ← mapStop toENOENT (translate parentSrc)
  let (dstParent, parent) ← mapStop toENOENT (translate parentDst)
  if srcParent ≠ dstParent then
    err .EINVAL
  else if !S_ISDIR parent.mode then
    err .ENOTDIR
  else
    renameLoop srcName dstName parent parent.dirBlocks 0 false

end Fs5600
