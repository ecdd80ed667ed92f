import Fs5600.Requests
import Fs5600.Observe

/-! An executable check of a file system: it collects the inodes that valid entries lead to and all their
uses of blocks, and looks whether a block is used twice, lies in a wrong place or is not marked. -/

namespace Fs5600

open Ownership

section Lists

variable (disk : Nat → Block) (n : Nat)

def cellList : List (Fin numPtrs × Nat) :=
  (List.range (inodeAt disk n).numBlocks).filterMap fun i =>
    if h : i < numPtrs then some (⟨i, h⟩, ((inodeAt disk n).ptrs ⟨i, h⟩).toNat) else none

def entryList (block : Block) : List (Fin direntsPerBlock × List UInt8 × Nat) :=
  (List.finRange direntsPerBlock).filterMap fun s => (block.dirent s).edge.map fun entry => (s, entry)

/-- The valid entries of a directory. -/
def edgeList : List (Slot × List UInt8 × Nat) :=
  if S_ISDIR (inodeAt disk n).mode then
    (List.range (inodeAt disk n).dirBlocks).flatMap fun i =>
      if h : i < numPtrs then
        (entryList (disk ((inodeAt disk n).ptrs ⟨i, h⟩).toNat)).map fun entry => ((⟨i, h⟩, entry.1), entry.2)
      else []
  else []

variable {disk n}

theorem mem_cellList {i : Fin numPtrs} {b : Nat} (h : (tree disk).cell n i = some b) : (i, b) ∈ cellList disk n := by
  obtain ⟨hi, rfl⟩ := tree_cell_eq_some.mp h
  exact List.mem_filterMap.mpr ⟨i, List.mem_range.mpr hi, dif_pos i.isLt⟩

theorem mem_edgeList {slot : Slot} {label : List UInt8} {m : Nat} (h : (tree disk).edge n slot = some (label, m)) :
    (slot, label, m) ∈ edgeList disk n := by
  obtain ⟨⟨hmode, hslot⟩, hentry⟩ := tree_edge_eq_some.mp h
  rw [edgeList, if_pos hmode]
  refine List.mem_flatMap.mpr ⟨slot.1, List.mem_range.mpr hslot, ?_⟩
  rw [dif_pos slot.1.isLt]
  refine List.mem_map.mpr ⟨(slot.2, label, m), List.mem_filterMap.mpr ⟨slot.2, List.mem_finRange _, ?_⟩, rfl⟩
  unfold direntAt at hentry
  rw [hentry]
  rfl

end Lists

/-- The inodes that up to `depth` entries lead to, one below the other. -/
def collect (disk : Nat → Block) : Nat → Nat → List Nat
  | 0, n => [n]
  | depth + 1, n => n :: (edgeList disk n).flatMap fun entry => collect disk depth entry.2.2

/-- All uses of blocks by some inodes. -/
def useList (disk : Nat → Block) (nodes : List Nat) : List (Use Nat Slot (Fin numPtrs) × Nat) :=
  (.root, 2) :: nodes.flatMap fun n =>
    (edgeList disk n).map (fun entry => (.edge n entry.1, entry.2.2)) ++
      (cellList disk n).map fun cell => (.cell n cell.1, cell.2)

/-- The inodes have no entries but among themselves. -/
def Closed (disk : Nat → Block) (nodes : List Nat) : Prop :=
  2 ∈ nodes ∧ ∀ n ∈ nodes, ∀ entry ∈ edgeList disk n, entry.2.2 ∈ nodes

instance (disk : Nat → Block) (nodes : List Nat) : Decidable (Closed disk nodes) :=
  inferInstanceAs (Decidable (_ ∧ _))

/-- The check of the blocks: none is used twice, all lie on the disk behind the bitmap and are marked. -/
def fsck (fs : Fs) : Bool :=
  let nodes := collect fs.disk maxPathLen 2
  decide (Closed fs.disk nodes) && decide ((useList fs.disk nodes).map Prod.snd).Nodup &&
    (useList fs.disk nodes).all fun use =>
      decide (2 ≤ use.2) && decide (use.2 < fs.diskSize) && bitTest fs.bitmap use.2

def inodeCheck (P : Inode → Bool) (disk : Nat → Block) : Bool :=
  let nodes := collect disk maxPathLen 2
  decide (Closed disk nodes) && nodes.all fun n => P (inodeAt disk n)

/-- The check of the names: none stands twice in a directory. -/
def nameCheck (disk : Nat → Block) : Bool :=
  let nodes := collect disk maxPathLen 2
  decide (Closed disk nodes) && nodes.all fun n => decide ((edgeList disk n).map fun entry => entry.2.1).Nodup

/-- The check of the name fields: every name ends inside its field. -/
def lengthCheck (disk : Nat → Block) : Bool :=
  let nodes := collect disk maxPathLen 2
  decide (Closed disk nodes) && nodes.all fun n => (edgeList disk n).all fun entry => decide (entry.2.1.length < nameLen)

/-- The check of a file system: its blocks, the sizes of its objects and its names. -/
def wellFormedCheck (fs : Fs) : Bool :=
  fsck fs && inodeCheck (fun inode => decide (inode.numBlocks ≤ numPtrs)) fs.disk && nameCheck fs.disk &&
    lengthCheck fs.disk

section Check

variable {fs : Fs} {disk : Nat → Block} {nodes : List Nat}

theorem Closed.mem_of_reach (h : Closed disk nodes) {n : Nat} (hn : (tree disk).Reach n) : n ∈ nodes := by
  induction hn with
  | root => exact h.1
  | step _ hedge ih => exact h.2 _ ih _ (mem_edgeList hedge)

theorem Closed.mem_useList (h : Closed disk nodes) {use : Use Nat Slot (Fin numPtrs)} {b : Nat}
    (huse : (tree disk).Uses use b) : (use, b) ∈ useList disk nodes := by
  cases huse with
  | root => exact List.mem_cons_self
  | edge hn hedge =>
      refine List.mem_cons_of_mem _ (List.mem_flatMap.mpr ⟨_, h.mem_of_reach hn, List.mem_append_left _ ?_⟩)
      exact List.mem_map.mpr ⟨_, mem_edgeList hedge, rfl⟩
  | cell hn hcell =>
      refine List.mem_cons_of_mem _ (List.mem_flatMap.mpr ⟨_, h.mem_of_reach hn, List.mem_append_right _ ?_⟩)
      exact List.mem_map.mpr ⟨_, mem_cellList hcell, rfl⟩

/-- A file system that passes the check is sound. -/
theorem sound_of_fsck (h : fsck fs = true) : Sound fs := by
  simp only [fsck, Bool.and_eq_true, decide_eq_true_eq, List.all_eq_true] at h
  obtain ⟨⟨hclosed, hnodup⟩, hall⟩ := h
  refine ⟨fun use use' b huse huse' => ?_, fun b ⟨use, huse⟩ => ?_, fun b ⟨use, huse⟩ => ?_⟩
  · have heq := List.inj_on_of_nodup_map hnodup (hclosed.mem_useList huse) (hclosed.mem_useList huse') rfl
    exact congrArg Prod.fst heq
  · exact (hall _ (hclosed.mem_useList huse)).1
  · exact (hall _ (hclosed.mem_useList huse)).2

theorem allInodes_of_inodeCheck {P : Inode → Bool} (h : inodeCheck P disk = true) :
    AllInodes (fun inode => P inode = true) disk := by
  simp only [inodeCheck, Bool.and_eq_true, decide_eq_true_eq, List.all_eq_true] at h
  exact fun n hn => h.2 n (h.1.mem_of_reach hn)

theorem uniqueLabels_of_nameCheck (h : nameCheck disk = true) : (tree disk).UniqueLabels := by
  simp only [nameCheck, Bool.and_eq_true, decide_eq_true_eq, List.all_eq_true] at h
  intro n slot slot' label m m' hn hedge hedge'
  have heq := List.inj_on_of_nodup_map (h.2 n (h.1.mem_of_reach hn)) (mem_edgeList hedge) (mem_edgeList hedge') rfl
  exact congrArg Prod.fst heq

theorem terminated_of_lengthCheck (h : lengthCheck disk = true) : Terminated disk := by
  simp only [lengthCheck, Bool.and_eq_true, decide_eq_true_eq, List.all_eq_true] at h
  exact fun n slot label m hn hedge => h.2 n (h.1.mem_of_reach hn) _ (mem_edgeList hedge)

theorem wellFormed_of_check (h : wellFormedCheck fs = true) : WellFormed fs := by
  simp only [wellFormedCheck, Bool.and_eq_true] at h
  obtain ⟨⟨⟨hblocks, hinodes⟩, hnames⟩, hlengths⟩ := h
  exact ⟨sound_of_fsck hblocks, fun n hn => of_decide_eq_true (allInodes_of_inodeCheck hinodes n hn),
    uniqueLabels_of_nameCheck hnames, terminated_of_lengthCheck hlengths⟩

end Check

/-! ### Images -/

/-- A disk with some blocks, and zero bytes in the others. -/
def diskOf : List (Nat × Block) → Nat → Block
  | [], _ => Block.zero
  | (b, block) :: rest, lba => if lba = b then block else diskOf rest lba

/-- The inode of a directory or a file with some data blocks. -/
def inodeOf (mode : UInt32) (size : Int32) (blocks : List Nat) : Inode :=
  Inode.setPtrs { Inode.zero with mode := mode, size := size } 0 blocks

/-- A block of directory entries, from the first slot on. -/
def entriesOf : List (CStr × Nat) → Block
  | [] => Block.zero
  | (name, inum) :: rest =>
      (entriesOf rest).setDirent (Fin.ofNat direntsPerBlock rest.length)
        ⟨true, BitVec.ofNat 31 inum, copyName (fun _ => 0) name⟩

def superOf (diskSize : Nat) : Block :=
  Block.ofBytes fun offset =>
    if offset < 4 then Words.byteOf fsMagic offset
    else if offset < 8 then Words.byteOf diskSize (offset - 4)
    else 0

/-- The image of a disk with these blocks in use, as it is mounted. -/
def imageOf (diskSize : Nat) (used : List Nat) (blocks : List (Nat × Block)) : Fs where
  diskSize := diskSize
  bitmap := setAll Block.zero (0 :: 1 :: used)
  disk := diskOf ((0, superOf diskSize) :: (1, setAll Block.zero (0 :: 1 :: used)) :: blocks)

def nameD : CStr := ⟨[100], by decide⟩

def nameF : CStr := ⟨[102], by decide⟩

/-- A disk with an empty directory `d` and a file `f` of one block of zero bytes. -/
def sampleImage : Fs :=
  imageOf 16 [2, 3, 4, 5, 6, 7]
    [(2, (inodeOf (S_IFDIR ||| 0o777) 4096 [3]).toBlock), (3, entriesOf [(nameF, 4), (nameD, 6)]),
      (4, (inodeOf (S_IFREG ||| 0o666) 4096 [5]).toBlock), (6, (inodeOf (S_IFDIR ||| 0o777) 4096 [7]).toBlock)]

/-- The same disk, but the directory `d` has no data block, and its `ptrs[0]` still names the data block of
the file `f`. -/
def staleImage : Fs :=
  imageOf 16 [2, 3, 4, 5, 6]
    [(2, (inodeOf (S_IFDIR ||| 0o777) 4096 [3]).toBlock), (3, entriesOf [(nameF, 4), (nameD, 6)]),
      (4, (inodeOf (S_IFREG ||| 0o666) 4096 [5]).toBlock), (6, (inodeOf (S_IFDIR ||| 0o777) 0 [5]).toBlock)]

/-- All block accesses succeed, the arrays have the lengths of the source, and the clock stands still. -/
def quietEnv (time : UInt32) : Env := ⟨fun _ _ => false, fun _ _ => false, 0, 0, time, .declared⟩

theorem quiet_quietEnv (time : UInt32) : (quietEnv time).Quiet := ⟨fun _ _ => rfl, fun _ _ => rfl⟩

/-- The file system is what `fs_init` mounts. -/
def Mounted (fs : Fs) : Prop := fsInit (quietEnv 0) fs.disk = some fs

theorem mounted_of_disk {fs : Fs} (hmagic : Words.le32 (fs.disk 0).byte 0 = fsMagic)
    (hsize : Words.le32 (fs.disk 0).byte 4 = fs.diskSize) (hsaved : fs.disk 1 = fs.bitmap) : Mounted fs := by
  rw [Mounted, fsInit, if_neg (by simp [quietEnv]), if_neg (by simpa using hmagic), if_neg (by simp [quietEnv]),
    hsize, hsaved]

theorem plain_nameD : Plain (joinPath [nameD]) := plain_joinPath (by decide) (by decide) (by decide)

theorem plain_nameF : Plain (joinPath [nameF]) := plain_joinPath (by decide) (by decide) (by decide)

theorem sound_sampleImage : Sound sampleImage := sound_of_fsck (by decide +kernel)

theorem sound_staleImage : Sound staleImage := sound_of_fsck (by decide +kernel)

theorem mounted_sampleImage : Mounted sampleImage := mounted_of_disk (by decide) (by decide) rfl

theorem mounted_staleImage : Mounted staleImage := mounted_of_disk (by decide) (by decide) rfl

theorem wellFormed_sampleImage : WellFormed sampleImage := wellFormed_of_check (by decide +kernel)

theorem roomy_quietEnv (time : UInt32) : Roomy (quietEnv time).limits := roomy_declared

/-- `"/f"` is split into its one name. -/
theorem pathparse_nameF : pathparse (joinPath [nameF]) = [nameF] := pathparse_joinPath (by decide)

theorem translate_sampleImage : (translate (joinPath [nameF]) (quietEnv 0) (.start sampleImage)).1 =
    .ok (4, inodeAt sampleImage.disk 4) :=
  translate_of_descend (quiet_quietEnv 0) plain_nameF (roomy_quietEnv 0)
    (by rw [pathparse_nameF]; decide +kernel)

end Fs5600
