import Fs5600.Base.Traverse
import Fs5600.GenDisk

/-! `read-img.py`: what it prints of an image file, and how it fails. -/

namespace Fs5600.ReadImg

open Traverse

structure Image where
  nbytes : Nat
  blks : Nat → Block

def Image.nblks (img : Image) : Nat := img.nbytes / 4096

/-- How the program ends early: with a message and `sys.exit(1)`, or with an exception. -/
inductive Failure
  | badLength
  | assertion
  | index
  | decode
  | recursion
  deriving DecidableEq

def bitmapOf (block : Block) : GenDisk.Bitmap := ⟨fun i => Words.le32 block.byte (4 * i)⟩

/-- `blks[i]` -/
def Image.blk (img : Image) (i : Nat) : Except Failure Block :=
  if i < img.nblks then .ok (img.blks i) else .error .index

/-- `blkmap.get(i)`. The bitmap has 1024 words. -/
def Image.marked (img : Image) (i : Nat) : Except Failure Bool :=
  if i / 32 < 1024 then .ok ((bitmapOf (img.blks 1)).get i) else .error .index

def ptr (inode : Inode) (i : Nat) : Except Failure Nat :=
  if h : i < numPtrs then .ok (inode.ptrs ⟨i, h⟩).toNat else .error .index

/-- `(_in.size + 4095) // 4096`, as the argument of `range` -/
def xblks (inode : Inode) : Nat := ((inode.size.toInt + 4095) / 4096).toNat

/-- `des[j].name.decode('ascii')` -/
def decode (entry : Dirent) : Except Failure (List UInt8) :=
  if ∀ b ∈ entry.storedName, b < 128 then .ok entry.storedName else .error .decode

/-- What `iter` prints; `marked` is false where it adds `NOT MARKED IN BITMAP` or `(NOT ALLOCATED)`. -/
inductive Line
  | inode (inum : Nat) (name : List UInt8) (uid gid : UInt16) (mode : UInt32) (size : Int) (marked : Bool)
  | block (lba : Nat) (marked : Bool)
  | entry (slot : Fin direntsPerBlock) (name : List UInt8) (inum : Nat)
  | badMode (mode : UInt32)

def fileLine (img : Image) (inode : Inode) (i : Nat) : Except Failure Line := do
  let dblk ← ptr inode i
  let marked ← img.marked dblk
  .ok (.block dblk marked)

/-- One entry of a directory: the line, and the child. -/
def entryLine (name : List UInt8) (block : Block) (slot : Fin direntsPerBlock) :
    Except Failure (List (Line × (List UInt8 × Nat))) := do
  if (block.dirent slot).valid then
    let label ← decode (block.dirent slot)
    .ok [(.entry slot label (block.dirent slot).inode.toNat,
      (name ++ slash :: label, (block.dirent slot).inode.toNat))]
  else
    .ok []

def dirLines (img : Image) (name : List UInt8) (inode : Inode) (i : Nat) :
    Except Failure (List Line × List (List UInt8 × Nat)) := do
  let dblk ← ptr inode i
  let marked ← img.marked dblk
  let block ← img.blk dblk
  let entries ← (List.finRange direntsPerBlock).mapM (entryLine name block)
  .ok (.block dblk marked :: entries.flatten.map Prod.fst, entries.flatten.map Prod.snd)

/-- `iter` up to its last loop: the lines, and `children`. -/
def visit (img : Image) (node : List UInt8 × Nat) : Except Failure (List Line × List (List UInt8 × Nat)) := do
  let (name, inum) := node
  if ¬inum < img.nblks then
    .error .assertion
  else
    let inode := Inode.ofBlock (img.blks inum)
    let marked ← img.marked inum
    let head := Line.inode inum (if name = [] then [slash] else name) inode.uid inode.gid inode.mode inode.size.toInt marked
    if S_ISREG inode.mode then
      let lines ← (List.range (xblks inode)).mapM (fileLine img inode)
      .ok (head :: lines, [])
    else if S_ISDIR inode.mode then
      let parts ← (List.range (xblks inode)).mapM (dirLines img name inode)
      .ok (head :: parts.flatMap Prod.fst, parts.flatMap Prod.snd)
    else
      .ok ([head, .badMode inode.mode], [])

/-- `iter`, where `depth` calls fit into each other. -/
def iter (img : Image) (depth : Nat) (name : List UInt8) (inum : Nat) : Except Failure (List Line) :=
  walk (visit img) .recursion depth (name, inum)

structure Report where
  badMagic : Bool
  badSize : Bool
  used : List Nat
  found : List Nat
  lines : List Line

/-- The inode that a line is about. -/
def Line.inum? : Line → Option Nat
  | .inode inum _ _ _ _ _ _ => some inum
  | _ => none

/-- The program. It calls `iter` twice, the first time for `inodes` only. -/
def readImg (img : Image) (depth : Nat) : Except Failure Report := do
  if img.nbytes % 4096 ≠ 0 then
    .error .badLength
  else
    let sb ← img.blk 0
    let _ ← img.blk 1
    let marks ← (List.range img.nblks).mapM img.marked
    let lines ← iter img depth [] 2
    .ok {
      badMagic := decide (Words.le32 sb.byte 0 ≠ fsMagic)
      badSize := decide (Words.le32 sb.byte 4 ≠ img.nblks)
      used := (List.range img.nblks).filter fun i => marks.getD i false
      found := (List.range img.nblks).filter fun i => decide (i ∈ lines.filterMap Line.inum?)
      lines := lines }

end Fs5600.ReadImg
