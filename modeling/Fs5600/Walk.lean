import Fs5600.Base.Search
import Fs5600.Path

/-! Reading inodes, searching directories and `translate`. -/

namespace Fs5600

open Command Search

/-- `read_inode`, with its failure passed on as `-EIO`, as every caller but `fs_readdir` does. -/
def readInode (inum : Nat) : Call Inode := do
  return Inode.ofBlock (← blockRead inum)

/-- `inode.ptrs[index]`, a block number; the array has `numPtrs` elements. -/
def Inode.ptr (inode : Inode) (index : Nat) : Except Stop Nat :=
  if h : index < numPtrs then .ok (inode.ptrs ⟨index, h⟩).toNat else .error .fault

/-- `strcmp(entry.name, s) == 0`. A name field without a NUL ends nowhere: where all of it agrees with
the start of `s`, the comparison runs past the field. -/
def Dirent.strcmp (entry : Dirent) (s : CStr) : Except Stop Bool :=
  if s.bytes.take nameLen = List.ofFn entry.name then .error .fault
  else .ok (entry.storedName == s.bytes)

/-- `entry.valid && strcmp(entry.name, name) == 0` -/
def hasName (name : CStr) (entry : Dirent) : Except Stop Bool :=
  if entry.valid then entry.strcmp name else .ok false

/-- `!entry.valid` -/
def isUnused (entry : Dirent) : Except Stop Bool := .ok !entry.valid

/-- Where a search through a directory ended: the block (as an index of `ptrs`), the slot in it, and the
block as it was read. -/
structure Hit where
  index : Fin numPtrs
  slot : Fin direntsPerBlock
  block : Block

def Hit.entry (hit : Hit) : Dirent := hit.block.dirent hit.slot

/-- The first slot of a block whose entry passes the test. -/
def searchSlots (test : Dirent → Except Stop Bool) (block : Block) :
    Except Stop (Option (Fin direntsPerBlock)) :=
  findFirst (fun slot => test (block.dirent slot)) (List.finRange direntsPerBlock)

/-- The two nested loops over the blocks of a directory and the entries of a block, left at the first
entry that passes the test. -/
def searchLoop (test : Dirent → Except Stop Bool) (inode : Inode) : Nat → Nat → Call (Option Hit)
  | 0, _ => pure none
  | left + 1, index =>
      if h : index < numPtrs then do
        let block ← blockRead (inode.ptrs ⟨index, h⟩).toNat
        match ← lift (searchSlots test block) with
        | some slot => pure (some ⟨⟨index, h⟩, slot, block⟩)
        | none => searchLoop test inode left (index + 1)
      else fault

/-- A search through all blocks of a directory. -/
def searchDir (test : Dirent → Except Stop Bool) (inode : Inode) : Call (Option Hit) :=
  searchLoop test inode inode.dirBlocks 0

/-- The local variables of the loop of `translate`. -/
structure WalkState where
  parentStack : Nat → Nat
  stackPos : Nat
  current : Nat

def WalkState.start : WalkState := ⟨fun _ => 2, 0, 2⟩

/-- One turn of the loop of `translate`. -/
def walkStep (st : WalkState) (component : CStr) : Call WalkState := do
  if component = dot then
    pure st
  else if component = dotdot then
    if 0 < st.stackPos then
      pure { st with stackPos := st.stackPos - 1, current := st.parentStack (st.stackPos - 1) }
    else
      pure st
  else
    let inode ← readInode st.current
    if !S_ISDIR inode.mode then
      err .ENOTDIR
    else
      match ← searchDir (hasName component) inode with
      | none => err .ENOENT
      | some hit =>
          if st.stackPos + 1 < (← ask).limits.parentStack then
            pure
              { parentStack := Function.update st.parentStack (st.stackPos + 1) st.current
                stackPos := st.stackPos + 1
                current := hit.entry.inode.toNat }
          else
            fault

/-- The loop of `translate`. -/
def walkLoop : List CStr → WalkState → Call WalkState
  | [], st => pure st
  | component :: rest, st => do
      let st ← walkStep st component
      walkLoop rest st

/-- `translate`: the inode number and the inode a path leads to. -/
def translate (path : CStr) : Call (Nat × Inode) := do
  let components := pathparse path
  if components = [] then
    let inode ← readInode 2
    pure (2, inode)
  else
    let st ← walkLoop components .start
    let inode ← readInode st.current
    pure (st.current, inode)

end Fs5600
