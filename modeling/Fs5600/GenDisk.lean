import Fs5600.OpsCreate

/-! `gen-disk.py` and `diskfmt.py`: a description of a disk, once it is parsed, and the image that is written for it.
All numbers of a description are below 400, the length of the list `blocks`, so no index is out of range. -/

namespace Fs5600.GenDisk

/-- `class bitmap`: 1024 words of 32 bits. -/
structure Bitmap where
  vals : Nat → Nat

namespace Bitmap

def empty : Bitmap := ⟨fun _ => 0⟩

def get (map : Bitmap) (i : Nat) : Bool :=
  let n := map.vals (i / 32)
  let mask := 1 <<< (i % 32)
  n &&& mask != 0

/-- `bitmap.set`. The words are `c_uint`. -/
def set (map : Bitmap) (i : Nat) (val : Bool) : Bitmap :=
  let mask := 1 <<< (i % 32)
  let n := map.vals (i / 32)
  let n := if val then n ||| mask else n &&& (mask ^^^ 0xffffffff)
  ⟨Function.update map.vals (i / 32) (n % 2 ^ 32)⟩

def toBlock (map : Bitmap) : Block := Block.ofBytes fun offset => Words.byteOf (map.vals (offset / 4)) (offset % 4)

theorem get_eq_testBit (map : Bitmap) (i : Nat) : map.get i = (map.vals (i / 32)).testBit (i % 32) := by
  have hmask : 1 <<< (i % 32) = 2 ^ (i % 32) := Nat.one_shiftLeft _
  rw [get, hmask, Nat.and_two_pow]
  cases (map.vals (i / 32)).testBit (i % 32)
  · simp
  · simp

@[simp] theorem get_empty (i : Nat) : empty.get i = false := by
  rw [get_eq_testBit, empty, Nat.zero_testBit]

/-- After a bit is set it is set, and the others are as before. -/
theorem get_set (map : Bitmap) (i j : Nat) : (map.set i true).get j = (decide (j = i) || map.get j) := by
  have hlt : j % 32 < 32 := Nat.mod_lt _ (by omega)
  rw [get_eq_testBit, get_eq_testBit, set]
  by_cases hword : j / 32 = i / 32
  · have hbit : decide (i % 32 = j % 32) = decide (j = i) := decide_eq_decide.mpr (by omega)
    dsimp only
    rw [hword, Function.update_self, if_pos rfl, Nat.testBit_mod_two_pow, Nat.testBit_or, Nat.one_shiftLeft,
      Nat.testBit_two_pow, decide_eq_true hlt, Bool.true_and, hbit, Bool.or_comm]
  · have hne : j ≠ i := fun h => hword (h ▸ rfl)
    dsimp only
    rw [Function.update_of_ne hword, decide_eq_false hne, Bool.false_or]

/-- The words of 32 bits, written as bytes, hold the bits at the places where `bit_test` looks. -/
theorem bitTest_toBlock (map : Bitmap) {i : Nat} (hi : i < bitmapBits) : bitTest map.toBlock i = map.get i := by
  simp only [bitmapBits] at hi
  have hbyte : i / 8 < fsBlockSize := by
    simp only [fsBlockSize]
    omega
  have hword : i / 8 / 4 = i / 32 := by omega
  have hplace : 8 * (i / 8 % 4) + i % 8 = i % 32 := by omega
  have hpow : (2 ^ 8) ^ (i / 8 % 4) = 2 ^ (8 * (i / 8 % 4)) := (pow_mul 2 8 _).symm
  have hlt : i % 8 < 8 := Nat.mod_lt _ (by omega)
  rw [bitTest_eq_getLsbD, toBlock, Block.byte_ofBytes _ hbyte, get_eq_testBit, ← BitVec.testBit_toNat,
    UInt8.toNat_toBitVec, Words.toNat_byteOf, show 256 = 2 ^ 8 from rfl, Nat.testBit_mod_two_pow, hword,
    decide_eq_true hlt, Bool.true_and, hpow,
    Nat.testBit_div_two_pow, Nat.add_comm, hplace]

end Bitmap

/-- An entry of a directory; a line marks an invalid one with `-`. The name is in ASCII. -/
structure Entry where
  valid : Bool
  name : CStr
  num : Int

/-- `class file`. The fields are Python integers. -/
structure File where
  inum : Nat
  uid : Int
  gid : Int
  mode : Int
  ctime : Int
  mtime : Int
  size : Int
  blocks : List Nat

structure Dir extends File where
  entries : List Entry

/-- A line of the description. -/
inductive Item
  | file (f : File)
  | dir (d : Dir)

/-- What the two classes have in common. -/
def Item.common : Item → File
  | .file f => f
  | .dir d => d.toFile

/-- The numbers of a line: that of the inode and those of the data blocks. -/
def Item.numbers (item : Item) : List Nat := item.common.inum :: item.common.blocks

structure Description where
  nblocks : Nat
  files : List File
  dirs : List Dir
  below : ∀ item ∈ files.map Item.file ++ dirs.map Item.dir, ∀ b ∈ item.numbers, b < 400

def Description.items (d : Description) : List Item := d.files.map .file ++ d.dirs.map .dir

/-- What stands in the list `blocks`: the inode of a line, or one of its data blocks. -/
inductive Slot
  | inode (item : Item)
  | data (item : Item) (offset : Nat)

/-- The loop that places the blocks: the bitmap, the list `blocks`, and the numbers it reports. -/
structure Placing where
  blockmap : Bitmap
  blocks : Nat → Option Slot
  errors : List Nat

/-- The bitmap with the superblock and the bitmap marked. -/
def Placing.start : Placing := ⟨(Bitmap.empty.set 0 true).set 1 true, fun _ => none, []⟩

/-- The inner loop: the data blocks of a line, from an index on. -/
def placeBlocks (item : Item) : Nat → List Nat → Placing → Placing
  | _, [], st => st
  | i, b :: rest, st =>
      let errors := if st.blockmap.get b then st.errors ++ [b] else st.errors
      placeBlocks item (i + 1) rest
        ⟨st.blockmap.set b true, Function.update st.blocks b (some (.data item i)), errors⟩

/-- One turn of the outer loop. -/
def placeItem (st : Placing) (item : Item) : Placing :=
  placeBlocks item 0 item.common.blocks
    ⟨st.blockmap.set item.common.inum true, Function.update st.blocks item.common.inum (some (.inode item)), st.errors⟩

def Description.placing (d : Description) : Placing := d.items.foldl placeItem .start

/-! ### The image -/

/-- An assignment to the field `name`, of type `c_char * 28`: the bytes and a NUL, where there is space for one. The
bytes behind it stay. -/
def setName (field : Fin nameLen → UInt8) (name : CStr) : Fin nameLen → UInt8 := fun i =>
  if i.val < name.bytes.length then name.bytes.getD i 0 else if i.val = name.bytes.length then 0 else field i

/-- `de.valid, de.inode, de.name = val, num, name` -/
def assign (de : Dirent) (entry : Entry) : Dirent :=
  ⟨entry.valid, BitVec.ofInt 31 entry.num, setName de.name entry.name⟩

/-- The loop of `dir.block` over some entries, from a slot on. All of them go through one record. -/
def fillSlots : List Entry → Nat → Dirent → Block → Block
  | [], _, _, data => data
  | entry :: rest, j, de, data =>
      let de := assign de entry
      fillSlots rest (j + 1) de (data.setDirent (Fin.ofNat direntsPerBlock j) de)

def Dir.block (dir : Dir) (offset : Nat) : Block :=
  fillSlots ((dir.entries.drop (offset * 128)).take 128) 0 ⟨false, 0, fun _ => 0⟩ Block.zero

/-- `inode` of both classes. Values are cut to the widths of the fields. -/
def File.inode (f : File) : Inode where
  uid := UInt16.ofInt f.uid
  gid := UInt16.ofInt f.gid
  mode := UInt32.ofInt f.mode
  ctime := UInt32.ofInt f.ctime
  mtime := UInt32.ofInt f.mtime
  size := Int32.ofInt f.size
  ptrs j := UInt32.ofNat (f.blocks.getD j 0)

/-- `block` of both classes. `letters` are those that `random` draws for a seed. -/
def Item.block (letters : Nat → Block) : Item → Nat → Block
  | .file f, offset => letters (f.inum * 1000 + offset)
  | .dir d, offset => d.block offset

def superblock (nblocks : Nat) : Block :=
  Block.ofBytes fun offset =>
    if offset < 4 then Words.byteOf fsMagic offset
    else if offset < 8 then Words.byteOf nblocks (offset - 4)
    else 0

/-- What the image holds in a block behind the bitmap. -/
def Description.written (d : Description) (letters : Nat → Block) (i : Nat) : Block :=
  match d.placing.blocks i with
  | none => Block.zero
  | some (.inode item) => item.common.inode.toBlock
  | some (.data item offset) => item.block letters offset

/-- The image, block after block. -/
def Description.image (d : Description) (letters : Nat → Block) : Nat → Block := fun lba =>
  if lba = 0 then superblock d.nblocks
  else if lba = 1 then d.placing.blockmap.toBlock
  else if lba < d.nblocks then d.written letters lba
  else Block.zero

end Fs5600.GenDisk
