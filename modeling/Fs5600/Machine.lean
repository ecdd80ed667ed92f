import Fs5600.Base.Command
import Fs5600.Base.Replay
import Fs5600.Bitmap

/-! The state of a mounted file system and the commands its code is made of: reads and writes of whole
blocks, which may fail, and changes of the bitmap in memory.

A call runs on a `Machine`, which counts its block accesses and records what it did, in order. The
record is what a crash in the middle of the call leaves behind. Undefined behaviour of C (an index
outside its array, a failed assertion) is a stop of its own, `Stop.fault`, which is no return code. -/

namespace Fs5600

/-- The error codes the file system returns. -/
inductive Errno
  | EIO | ENOENT | ENOTDIR | EISDIR | EEXIST | ENOSPC | EINVAL | ENOTEMPTY | EOPNOTSUPP
  deriving DecidableEq, Repr

/-- Why a call stops early: it returns the negative of an error code, or its behaviour is undefined. -/
inductive Stop
  | errno (code : Errno)
  | fault
  deriving DecidableEq, Repr

/-- A mounted file system: the size field of the superblock, the bitmap in memory and the disk. -/
structure Fs where
  diskSize : Nat
  bitmap : Block
  disk : Nat → Block

/-- What a call does to the bitmap in memory and to the disk. -/
inductive Event
  | bitSet (i : Nat)
  | bitClear (i : Nat)
  | blockWrite (lba : Nat) (block : Block)

def Fs.apply (fs : Fs) : Event → Fs
  | .bitSet i => { fs with bitmap := Fs5600.bitSet fs.bitmap i }
  | .bitClear i => { fs with bitmap := Fs5600.bitClear fs.bitmap i }
  | .blockWrite lba block => { fs with disk := Function.update fs.disk lba block }

abbrev Fs.replay (fs : Fs) (trace : List Event) : Fs := Replay.replay Fs.apply fs trace

section Replay

variable (fs : Fs)

@[simp] theorem Fs.replay_nil : fs.replay [] = fs := rfl

@[simp] theorem Fs.replay_cons (event : Event) (trace : List Event) :
    fs.replay (event :: trace) = (fs.apply event).replay trace := rfl

theorem Fs.replay_append (first second : List Event) :
    fs.replay (first ++ second) = (fs.replay first).replay second := Replay.replay_append _ _ _ _

/-- The disk after a trace depends on the disk before it only. -/
theorem Fs.replay_disk_congr {fs fs' : Fs} (h : fs'.disk = fs.disk) (trace : List Event) :
    (fs'.replay trace).disk = (fs.replay trace).disk := by
  induction trace generalizing fs fs' with
  | nil => exact h
  | cons event trace ih =>
      apply ih
      cases event with
      | bitSet i => exact h
      | bitClear i => exact h
      | blockWrite lba block => simp only [Fs.apply, h]

end Replay

/-- The declared lengths of two local arrays, `parent_stack` in `translate` and `parent_path` in the
operations on a parent directory. -/
structure Limits where
  parentStack : Nat
  parentPath : Nat
  deriving DecidableEq

/-- The lengths in the source: `MAX_PATH_LEN` and 256. -/
def Limits.declared : Limits := ⟨maxPathLen, 256⟩

/-- What a call gets from outside: which of its block accesses fail (by their number in the call and
the block), the user of the request, and the clock. -/
structure Env where
  readFails : Nat → Nat → Bool
  writeFails : Nat → Nat → Bool
  uid : UInt32
  gid : UInt32
  time : UInt32
  limits : Limits

/-- All block I/O succeeds. -/
def Env.Quiet (env : Env) : Prop :=
  (∀ count lba, env.readFails count lba = false) ∧ ∀ count lba, env.writeFails count lba = false

/-- A call in progress: the file system, the numbers of block accesses so far, and the record. -/
structure Machine where
  fs : Fs
  reads : Nat
  writes : Nat
  trace : List Event

def Machine.start (fs : Fs) : Machine := ⟨fs, 0, 0, []⟩

/-- Do an event and record it. -/
def Machine.emit (m : Machine) (event : Event) : Machine :=
  { m with fs := m.fs.apply event, trace := m.trace ++ [event] }

/-- A piece of the C code. -/
abbrev Call (α : Type) : Type := Command Env Machine Stop α

open Command

def err {α : Type} (code : Errno) : Call α := stop (.errno code)

def fault {α : Type} : Call α := stop .fault

/-- `block_read`, with its failure passed on as `-EIO`. -/
def blockRead (lba : Nat) : Call Block := fun env m =>
  (if env.readFails m.reads lba then .error (.errno Errno.EIO) else .ok (m.fs.disk lba),
    { m with reads := m.reads + 1 })

/-- `block_write(block, lba, 1) == 0`. The block number is an `int`, and the assertion `lba > 0` of
`block_write` ends the program. -/
def tryBlockWrite (lba : Nat) (block : Block) : Call Bool := fun env m =>
  if lba = 0 ∨ 2 ^ 31 ≤ lba then (.error .fault, m)
  else if env.writeFails m.writes lba then (.ok false, { m with writes := m.writes + 1 })
  else (.ok true, { m.emit (.blockWrite lba block) with writes := m.writes + 1 })

/-- `block_write`, with its failure passed on as `-EIO`. -/
def blockWrite (lba : Nat) (block : Block) : Call Unit := do
  if ← tryBlockWrite lba block then pure () else err Errno.EIO

def getBitmap : Call Block := do
  return (← get).fs.bitmap

def getDiskSize : Call Nat := do
  return (← get).fs.diskSize

/-- `bit_set(bitmap, i)`; the bitmap has `bitmapBits` bits. -/
def bitmapSet (i : Nat) : Call Unit := fun _ m =>
  if i < bitmapBits then (.ok (), m.emit (.bitSet i)) else (.error .fault, m)

def bitmapClear (i : Nat) : Call Unit := fun _ m =>
  if i < bitmapBits then (.ok (), m.emit (.bitClear i)) else (.error .fault, m)

/-- `block_write(bitmap, 1, 1)`, with its failure passed on as `-EIO`. -/
def bitmapWrite : Call Unit := do
  blockWrite 1 (← getBitmap)

end Fs5600
