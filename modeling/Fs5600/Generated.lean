import Fs5600.Check
import Fs5600.DoubleCounted

/-! The image of a description, read with the structures of the file system: the two programs agree on the layout of
inodes, entries and the bitmap. -/

namespace Fs5600.GenDisk

/-! ### Directory blocks -/

/-- The valid entries of a block, in order: names and inode numbers. -/
def scanBlock (block : Block) : List (List UInt8 × Nat) :=
  (List.finRange direntsPerBlock).filterMap fun s => (block.dirent s).edge

/-- The valid entries of a directory, its blocks in order. -/
def scan (disk : Nat → Block) (inode : Inode) : List (List UInt8 × Nat) :=
  (List.range inode.dirBlocks).flatMap fun i => scanBlock (disk (inode.block i))

/-- What an entry of the description reads as. -/
def Entry.read (entry : Entry) : Option (List UInt8 × Nat) :=
  if entry.valid then some (entry.name.bytes, (BitVec.ofInt 31 entry.num).toNat) else none

section Lists

variable {α β : Type}

theorem filterMap_finRange (f : α → Option β) (l : List α) {n : Nat} (h : l.length ≤ n) :
    (List.finRange n).filterMap (fun s => l[s.val]?.bind f) = l.filterMap f := by
  induction l generalizing n with
  | nil => simp
  | cons a l ih =>
      obtain ⟨m, rfl⟩ : ∃ m, n = m + 1 := ⟨n - 1, by simp only [List.length_cons] at h; omega⟩
      have hrest := ih (n := m) (by simpa using h)
      rw [List.finRange_succ, List.filterMap_cons, List.filterMap_map, List.filterMap_cons, ← hrest]
      rfl

/-- The parts of a list, of `m` elements each, are the list. -/
theorem flatMap_slices (f : α → Option β) (l : List α) (m : Nat) {k : Nat} (h : l.length ≤ m * k) :
    ((List.range k).flatMap fun i => ((l.drop (i * m)).take m).filterMap f) = l.filterMap f := by
  induction k generalizing l with
  | zero =>
      obtain rfl : l = [] := List.length_eq_zero_iff.mp (by omega)
      rfl
  | succ k ih =>
      have hrest := ih (l.drop m) (by rw [List.length_drop, Nat.mul_succ] at *; omega)
      rw [List.range_succ_eq_map, List.flatMap_cons, List.flatMap_map, Nat.zero_mul, List.drop_zero]
      have hshift : ∀ i, (l.drop (i.succ * m)).take m = ((l.drop m).drop (i * m)).take m := fun i => by
        rw [List.drop_drop, Nat.succ_mul, Nat.add_comm]
      simp only [hshift]
      rw [hrest, ← List.filterMap_append, List.take_append_drop]

end Lists

section Blocks

variable {entry : Entry} {de : Dirent} {data : Block}

theorem storedName_setName (valid : Bool) (inode : BitVec 31) (field : Fin nameLen → UInt8) {name : CStr}
    (hlength : name.bytes.length < nameLen) : (Dirent.mk valid inode (setName field name)).storedName = name.bytes := by
  apply storedName_eq hlength name.nulFree
  · intro i hi
    calc _ = name.bytes.getD i 0 := if_pos hi
      _ = name.bytes[i] := List.getD_eq_getElem _ _ hi
  · exact (if_neg (Nat.lt_irrefl _)).trans (if_pos rfl)

/-- An entry that is assigned to a record, whatever the record held before. -/
theorem edge_assign (hname : entry.name.bytes.length < nameLen) : (assign de entry).edge = entry.read := by
  rw [Dirent.edge, Entry.read, assign, storedName_setName _ _ _ hname]

/-- The slots that the loop fills, and the others. -/
theorem edge_fillSlots {entries : List Entry} (hnames : ∀ entry ∈ entries, entry.name.bytes.length < nameLen) {j : Nat}
    (hroom : j + entries.length ≤ direntsPerBlock) (s : Fin direntsPerBlock) :
    ((fillSlots entries j de data).dirent s).edge =
      if j ≤ s.val then (entries[s.val - j]?).elim (data.dirent s).edge Entry.read else (data.dirent s).edge := by
  induction entries generalizing j de data with
  | nil => simp [fillSlots]
  | cons entry rest ih =>
      rw [List.length_cons] at hroom
      obtain ⟨hname, hrest⟩ := List.forall_mem_cons.mp hnames
      have hslot : (Fin.ofNat direntsPerBlock j).val = j := Nat.mod_eq_of_lt (by omega)
      rw [fillSlots, ih hrest (by omega), Block.dirent_setDirent]
      rcases Nat.lt_trichotomy s.val j with hlt | heq | hgt
      · have hne : s ≠ Fin.ofNat direntsPerBlock j := fun h => by
          rw [h, hslot] at hlt
          exact Nat.lt_irrefl j hlt
        rw [if_neg hne, if_neg (show ¬j + 1 ≤ s.val by omega), if_neg (show ¬j ≤ s.val by omega)]
      · have hself : s = Fin.ofNat direntsPerBlock j := Fin.ext (heq.trans hslot.symm)
        rw [if_pos hself, if_neg (show ¬j + 1 ≤ s.val by omega), if_pos (show j ≤ s.val by omega), edge_assign hname,
          heq, Nat.sub_self]
        rfl
      · have hne : s ≠ Fin.ofNat direntsPerBlock j := fun h => by
          rw [h, hslot] at hgt
          exact Nat.lt_irrefl j hgt
        have hindex : s.val - j = (s.val - (j + 1)) + 1 := by omega
        rw [if_neg hne, if_pos (show j + 1 ≤ s.val by omega), if_pos (show j ≤ s.val by omega), hindex,
          List.getElem?_cons_succ]

/-- A block of a directory reads as the entries that were put there. -/
theorem scanBlock_fillSlots {entries : List Entry} (hnames : ∀ entry ∈ entries, entry.name.bytes.length < nameLen)
    (hroom : entries.length ≤ direntsPerBlock) :
    scanBlock (fillSlots entries 0 de Block.zero) = entries.filterMap Entry.read := by
  rw [scanBlock, ← filterMap_finRange Entry.read entries hroom]
  refine List.filterMap_congr fun s _ => ?_
  have hzero : (Block.zero.dirent s).edge = none := by
    rw [Dirent.edge, Block.valid_dirent_zero, if_neg Bool.false_ne_true]
  rw [edge_fillSlots hnames (by omega), if_pos (Nat.zero_le _), hzero, Nat.sub_zero]
  cases entries[s.val]? <;> rfl

end Blocks

/-! ### Inodes -/

/-- The fields of an inode, with some of its block pointers, in the form of a line. -/
def readFile (inum count : Nat) (inode : Inode) : File :=
  ⟨inum, inode.uid.toNat, inode.gid.toNat, inode.mode.toNat, inode.ctime.toNat, inode.mtime.toNat, inode.size.toInt,
    (List.range count).map inode.block⟩

/-- A line with its values cut to the widths of the fields. -/
def File.cut (f : File) : File :=
  { f with
    uid := f.uid % 2 ^ 16
    gid := f.gid % 2 ^ 16
    mode := f.mode % 2 ^ 32
    ctime := f.ctime % 2 ^ 32
    mtime := f.mtime % 2 ^ 32
    size := f.size.bmod (2 ^ 32) }

section Inodes

variable {f : File}

theorem toNat_ofInt16 (x : Int) : ((UInt16.ofInt x).toNat : Int) = x % 2 ^ 16 := by
  rw [UInt16.ofInt, UInt16.toNat_ofNat_of_lt' (by simp only [UInt16.size]; omega)]
  omega

theorem toNat_ofInt32 (x : Int) : ((UInt32.ofInt x).toNat : Int) = x % 2 ^ 32 := by
  rw [UInt32.ofInt, UInt32.toNat_ofNat_of_lt' (by simp only [UInt32.size]; omega)]
  omega

theorem block_inode (hlength : f.blocks.length ≤ numPtrs) (hbelow : ∀ b ∈ f.blocks, b < 400) {i : Nat}
    (hi : i < f.blocks.length) : f.inode.block i = f.blocks[i] := by
  have hb := hbelow f.blocks[i] (List.getElem_mem hi)
  rw [Inode.block, dif_pos (hi.trans_le hlength), File.inode]
  dsimp only
  rw [List.getD_eq_getElem _ _ hi, UInt32.toNat_ofNat_of_lt' (by simp only [UInt32.size]; omega)]

theorem readFile_inode (hlength : f.blocks.length ≤ numPtrs) (hbelow : ∀ b ∈ f.blocks, b < 400) :
    readFile f.inum f.blocks.length f.inode = f.cut := by
  have hblocks : (List.range f.blocks.length).map f.inode.block = f.blocks := by
    refine List.ext_getElem (by rw [List.length_map, List.length_range]) fun i hi hi' => ?_
    rw [List.getElem_map, List.getElem_range, block_inode hlength hbelow hi']
  rw [readFile, File.cut, hblocks]
  simp only [File.inode, toNat_ofInt16, toNat_ofInt32, Int32.toInt_ofInt]
  rfl

end Inodes

/-! ### The whole image -/

/-- The descriptions that the image is written for. -/
structure Regular (d : Description) : Prop where
  nblocks_le : d.nblocks ≤ 400
  nodup : d.numbers.Nodup
  range : ∀ b ∈ d.numbers, 2 ≤ b ∧ b < d.nblocks
  lengths : ∀ item ∈ d.items, item.common.blocks.length ≤ numPtrs
  size : ∀ dir ∈ d.dirs, dir.size = 4096 * (dir.blocks.length : Int)
  entries : ∀ dir ∈ d.dirs, dir.entries.length ≤ 128 * dir.blocks.length
  names : ∀ dir ∈ d.dirs, ∀ entry ∈ dir.entries, entry.name.bytes.length ≤ 27

def Description.Ascii (d : Description) : Prop :=
  ∀ dir ∈ d.dirs, ∀ entry ∈ dir.entries, ∀ c ∈ entry.name.bytes, c < 128

instance (d : Description) : Decidable d.Ascii :=
  inferInstanceAs (Decidable (∀ dir ∈ d.dirs, ∀ entry ∈ dir.entries, ∀ c ∈ entry.name.bytes, c < 128))

/-- The file system that is mounted from the image. -/
def Description.fs (d : Description) (letters : Nat → Block) : Fs :=
  ⟨d.nblocks, d.placing.blockmap.toBlock, d.image letters⟩

/-- The mounted image reads as the description, values of its lines being read as `line` and inode numbers of its
entries as `num`. -/
structure ReadsBack (env : Env) (d : Description) (letters : Nat → Block) (line : File → File) (num : Int → Int) :
    Prop where
  mounts : fsInit env (d.image letters) = some (d.fs letters)
  inodes : ∀ item ∈ d.items, ∃ inode, (readInode item.common.inum env (.start (d.fs letters))).1 = .ok inode ∧
    readFile item.common.inum item.common.blocks.length inode = line item.common
  entries : ∀ dir ∈ d.dirs, ∃ inode, (readInode dir.inum env (.start (d.fs letters))).1 = .ok inode ∧
    (scan (d.fs letters).disk inode).map (fun entry => (entry.1, (entry.2 : Int))) =
      (dir.entries.filter Entry.valid).map fun entry => (entry.name.bytes, num entry.num)
  bits : ∀ i < d.nblocks, bitTest (d.fs letters).bitmap i = true ↔ i = 0 ∨ i = 1 ∨ i ∈ d.numbers

section Image

variable {env : Env} {d : Description} {letters : Nat → Block} {item : Item} {dir : Dir}

theorem get_foldl {st : Placing} {seen : List Nat} {items : List Item}
    (hseen : ∀ j, st.blockmap.get j = decide (j ∈ seen)) (j : Nat) :
    (items.foldl placeItem st).blockmap.get j = true ↔ j ∈ items.flatMap Item.numbers ∨ j ∈ seen := by
  induction items generalizing st seen with
  | nil => simp [hseen]
  | cons item rest ih =>
      rw [List.foldl_cons, ih (get_placeItem item hseen), List.flatMap_cons, List.mem_append, List.mem_append,
        or_left_comm, or_assoc]

theorem mem_numbers (hitem : item ∈ d.items) {b : Nat} (hb : b ∈ item.numbers) : b ∈ d.numbers :=
  List.mem_flatMap.mpr ⟨item, hitem, hb⟩

theorem mem_items (hdir : dir ∈ d.dirs) : Item.dir dir ∈ d.items :=
  List.mem_append_right _ (List.mem_map_of_mem hdir)

theorem mem_items_cases (hitem : item ∈ d.items) :
    (∃ f ∈ d.files, item = .file f) ∨ ∃ dir ∈ d.dirs, item = .dir dir := by
  rcases List.mem_append.mp hitem with hfile | hdir
  · obtain ⟨f, hf, rfl⟩ := List.mem_map.mp hfile
    exact Or.inl ⟨f, hf, rfl⟩
  · obtain ⟨dir, hd, rfl⟩ := List.mem_map.mp hdir
    exact Or.inr ⟨dir, hd, rfl⟩

theorem image_of_mem (hd : Regular d) {b : Nat} (hb : b ∈ d.numbers) : d.image letters b = d.written letters b := by
  have hrange := hd.range b hb
  rw [Description.image, if_neg (by omega), if_neg (by omega), if_pos hrange.2]

theorem image_inum (hd : Regular d) (hitem : item ∈ d.items) :
    d.image letters item.common.inum = item.common.inode.toBlock := by
  have hplace : d.placing.blocks item.common.inum = _ := (blocks_foldl hd.nodup .start hitem).1
  rw [image_of_mem hd (mem_numbers hitem List.mem_cons_self), Description.written, hplace]

theorem image_data (hd : Regular d) (hitem : item ∈ d.items) {i : Nat} (hi : i < item.common.blocks.length) :
    d.image letters item.common.blocks[i] = item.block letters i := by
  have hplace : d.placing.blocks item.common.blocks[i] = _ := (blocks_foldl hd.nodup .start hitem).2 i hi
  rw [image_of_mem hd (mem_numbers hitem (List.mem_cons_of_mem _ (List.getElem_mem hi))), Description.written, hplace]

theorem readInode_image (hd : Regular d) (hquiet : env.Quiet) (hitem : item ∈ d.items) :
    (readInode item.common.inum env (.start (d.fs letters))).1 = .ok item.common.inode := by
  rw [(run_of_does (reads_readInode _) hquiet).1, inodeAt]
  dsimp only [Description.fs]
  rw [image_inum hd hitem, Inode.ofBlock_toBlock]

theorem scan_image (hd : Regular d) (hdir : dir ∈ d.dirs) :
    scan (d.image letters) dir.inode = dir.entries.filterMap Entry.read := by
  have hitem := mem_items hdir
  have hlength : dir.blocks.length ≤ numPtrs := hd.lengths _ hitem
  have hcount : dir.inode.dirBlocks = dir.blocks.length := by
    simp only [numPtrs] at hlength
    rw [Inode.dirBlocks, File.inode, hd.size dir hdir, Int32.toInt_ofInt_of_le (by omega) (by omega)]
    simp only [fsBlockSize]
    omega
  have hnames : ∀ entry ∈ dir.entries, entry.name.bytes.length < nameLen := fun entry hentry =>
    Nat.lt_succ_of_le (hd.names dir hdir entry hentry)
  have hblock : ∀ i ∈ List.range dir.blocks.length, scanBlock (d.image letters (dir.inode.block i)) =
      ((dir.entries.drop (i * 128)).take 128).filterMap Entry.read := by
    intro i hi
    have hi' := List.mem_range.mp hi
    have hdata : d.image letters dir.blocks[i] = dir.block i := image_data hd hitem hi'
    rw [block_inode hlength (fun b hb => d.below _ hitem b (List.mem_cons_of_mem _ hb)) hi', hdata, Dir.block]
    refine scanBlock_fillSlots (fun entry hentry => ?_) (List.length_take_le _ _)
    exact hnames entry (List.mem_of_mem_drop (List.mem_of_mem_take hentry))
  rw [scan, hcount, List.flatMap_congr hblock]
  exact flatMap_slices Entry.read dir.entries 128 (hd.entries dir hdir)

/-- The image of a description is mounted, and reads as the description. -/
theorem image_readsBack (hd : Regular d) (hquiet : env.Quiet) :
    ReadsBack env d letters File.cut fun num => num % 2 ^ 31 := by
  refine ⟨?_, fun item hitem => ⟨_, readInode_image hd hquiet hitem, ?_⟩, fun dir hdir =>
    ⟨_, readInode_image hd hquiet (mem_items hdir), ?_⟩, fun i hi => ?_⟩
  · have hmagic : Words.le32 (superblock d.nblocks).byte 0 = fsMagic := by
      refine Words.le32_of_bytes (by decide) fun i hi => ?_
      rw [superblock, Block.byte_ofBytes _ (show 0 + i < 4096 by omega), if_pos (by omega), Nat.zero_add]
    have hsize : Words.le32 (superblock d.nblocks).byte 4 = d.nblocks := by
      refine Words.le32_of_bytes (hd.nblocks_le.trans_lt (by decide)) fun i hi => ?_
      rw [superblock, Block.byte_ofBytes _ (show 4 + i < 4096 by omega), if_neg (by omega), if_pos (by omega),
        Nat.add_sub_cancel_left]
    have hblock0 : d.image letters 0 = superblock d.nblocks := if_pos rfl
    have hblock1 : d.image letters 1 = d.placing.blockmap.toBlock := rfl
    rw [fsInit, hquiet.1, hquiet.1, hblock0, hblock1, hmagic, hsize]
    simp [Description.fs]
  · exact readFile_inode (hd.lengths item hitem) fun b hb => d.below item hitem b (List.mem_cons_of_mem _ hb)
  · have hscan : scan (d.fs letters).disk dir.inode = _ := scan_image hd hdir
    change (scan (d.fs letters).disk dir.inode).map _ = _
    rw [hscan, List.map_filterMap, ← List.filterMap_eq_map, List.filterMap_filter]
    refine List.filterMap_congr fun entry _ => ?_
    unfold Entry.read
    split
    · have hnum : (((BitVec.ofInt 31 entry.num).toNat : Nat) : Int) = entry.num % 2 ^ 31 := by
        rw [BitVec.toNat_ofInt]
        omega
      rw [Option.map_some, hnum]
      rfl
    · rfl
  · have hbits : i < bitmapBits := by
      have hle := hd.nblocks_le
      simp only [bitmapBits]
      omega
    change bitTest d.placing.blockmap.toBlock i = true ↔ _
    rw [Bitmap.bitTest_toBlock _ hbits, Description.placing, get_foldl get_start, List.mem_cons, List.mem_singleton,
      Description.numbers]
    tauto

end Image

/-- A root directory with an entry for a file, and one that is not valid. -/
def sampleDescription : Description where
  nblocks := 8
  files := [fileOf 4 [5]]
  dirs := [{ fileOf 2 [3] with mode := 0o040777, entries := [⟨true, nameF, 4⟩, ⟨false, nameD, 0⟩] }]
  below := by decide

theorem image_readsBack_sampleDescription :
    ReadsBack (quietEnv 0) sampleDescription (fun _ => Block.zero) File.cut fun num => num % 2 ^ 31 :=
  image_readsBack ⟨by decide, by decide, by decide, by decide, by decide, by decide, by decide⟩ (quiet_quietEnv 0)

/-- A file whose owner does not fit into the field of the inode. -/
def wideOwner : Description := ⟨4, [{ fileOf 2 [3] with uid := 2 ^ 16 }], [], by decide⟩

/-- Not every value is read back as it stands in the line: a user number of 17 bits is cut. -/
theorem readsBack_false :
    ¬∀ env d letters, env.Quiet → Regular d → ReadsBack env d letters (fun f => f) fun num => num := by
  intro h
  have hback := h (quietEnv 0) wideOwner (fun _ => Block.zero) (quiet_quietEnv 0)
    ⟨by decide, by decide, by decide, by decide, by decide, by decide, by decide⟩
  obtain ⟨inode, -, hline⟩ := hback.inodes (.file { fileOf 2 [3] with uid := 2 ^ 16 }) List.mem_cons_self
  have huid : (inode.uid.toNat : Int) = 2 ^ 16 := congrArg File.uid hline
  have hlt := inode.uid.toNat_lt
  omega

end Fs5600.GenDisk
