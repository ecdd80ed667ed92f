import Fs5600.Base.Ownership
import Fs5600.Lookup

/-! The directory tree on a disk, as an ownership graph. Inode numbers are nodes, the valid entries of a
directory are its edges, labelled by the stored names, and the data blocks of an inode are its cells. So
a block is in use where it is the inode block or a data block of an object that valid entries lead to,
and the graph is exclusive where no block is used twice. -/

namespace Fs5600

open Ownership

theorem inodeAt_congr {disk disk' : Nat → Block} {inum : Nat} (h : disk' inum = disk inum) :
    inodeAt disk' inum = inodeAt disk inum := congrArg Inode.ofBlock h

/-- A slot of a directory: the block, as an index of `ptrs`, and the slot in it. -/
abbrev Slot : Type := Fin numPtrs × Fin direntsPerBlock

def direntAt (disk : Nat → Block) (dir : Nat) (slot : Slot) : Dirent :=
  (disk ((inodeAt disk dir).ptrs slot.1).toNat).dirent slot.2

/-- A slot of one of the blocks a walk looks through. -/
def HasSlot (disk : Nat → Block) (dir : Nat) (slot : Slot) : Prop :=
  S_ISDIR (inodeAt disk dir).mode = true ∧ slot.1.val < (inodeAt disk dir).dirBlocks

instance (disk : Nat → Block) (dir : Nat) (slot : Slot) : Decidable (HasSlot disk dir slot) :=
  inferInstanceAs (Decidable (_ ∧ _))

/-- The edge an entry stands for. -/
def Dirent.edge (entry : Dirent) : Option (List UInt8 × Nat) :=
  if entry.valid then some (entry.storedName, entry.inode.toNat) else none

/-- The tree of directory entries and data blocks on a disk, from inode 2. -/
def tree (disk : Nat → Block) : Graph Nat Slot (List UInt8) (Fin numPtrs) where
  root := 2
  edge dir slot := if HasSlot disk dir slot then (direntAt disk dir slot).edge else none
  cell inum i :=
    if i.val < (inodeAt disk inum).numBlocks then some ((inodeAt disk inum).ptrs i).toNat else none

section Edges

variable {disk : Nat → Block} {dir inum : Nat} {slot : Slot} {i : Fin numPtrs} {label : List UInt8}

@[simp] theorem tree_root : (tree disk).root = 2 := rfl

theorem Dirent.edge_eq_some {entry : Dirent} :
    entry.edge = some (label, inum) ↔
      entry.valid = true ∧ entry.storedName = label ∧ entry.inode.toNat = inum := by
  unfold Dirent.edge
  split
  · rename_i hvalid
    simp [hvalid]
  · rename_i hvalid
    simp [hvalid]

theorem Dirent.edge_eq_none {entry : Dirent} : entry.edge = none ↔ entry.valid = false := by
  unfold Dirent.edge
  split
  · rename_i hvalid
    simp [hvalid]
  · rename_i hvalid
    simpa using hvalid

theorem tree_edge_of_hasSlot (h : HasSlot disk dir slot) :
    (tree disk).edge dir slot = (direntAt disk dir slot).edge := if_pos h

theorem tree_edge_eq_some :
    (tree disk).edge dir slot = some (label, inum) ↔
      HasSlot disk dir slot ∧ (direntAt disk dir slot).edge = some (label, inum) := by
  by_cases h : HasSlot disk dir slot
  · simp [tree, h]
  · simp [tree, h]

/-- The entry at a slot is an edge where it is valid. -/
theorem edge_of_direntAt (hslot : HasSlot disk dir slot) (hvalid : (direntAt disk dir slot).valid = true) :
    (tree disk).edge dir slot =
      some ((direntAt disk dir slot).storedName, (direntAt disk dir slot).inode.toNat) :=
  (tree_edge_of_hasSlot hslot).trans (Dirent.edge_eq_some.mpr ⟨hvalid, rfl, rfl⟩)

theorem edge_eq_none_iff (hslot : HasSlot disk dir slot) :
    (tree disk).edge dir slot = none ↔ (direntAt disk dir slot).valid = false := by
  rw [tree_edge_of_hasSlot hslot, Dirent.edge_eq_none]

/-- The block of a slot is a data block of its directory. -/
theorem HasSlot.lt_numBlocks (h : HasSlot disk dir slot) : slot.1.val < (inodeAt disk dir).numBlocks :=
  calc slot.1.val < (inodeAt disk dir).dirBlocks := h.2
    _ ≤ (inodeAt disk dir).numBlocks := Inode.dirBlocks_le_numBlocks _

theorem tree_cell_eq_some {b : Nat} :
    (tree disk).cell inum i = some b ↔
      i.val < (inodeAt disk inum).numBlocks ∧ ((inodeAt disk inum).ptrs i).toNat = b := by
  simp only [tree]
  split
  · rename_i hi
    simp [hi]
  · rename_i hi
    simp [hi]

theorem HasSlot.cell (h : HasSlot disk dir slot) :
    (tree disk).cell dir slot.1 = some ((inodeAt disk dir).ptrs slot.1).toNat :=
  tree_cell_eq_some.mpr ⟨h.lt_numBlocks, rfl⟩

/-- Only a directory has edges. -/
theorem tree_edge_of_not_dir (h : S_ISDIR (inodeAt disk inum).mode = false) (slot : Slot) :
    (tree disk).edge inum slot = none :=
  if_neg fun hslot => absurd (hslot.1.symm.trans h) (by decide)

/-- What a node and its cells hold decides its edges. -/
theorem tree_edge_congr {disk' : Nat → Block} (hnode : disk' dir = disk dir)
    (hcells : ∀ i b, (tree disk).cell dir i = some b → disk' b = disk b) :
    (tree disk').edge dir = (tree disk).edge dir := by
  have hinode : inodeAt disk' dir = inodeAt disk dir := by rw [inodeAt, inodeAt, hnode]
  funext slot
  by_cases h : HasSlot disk dir slot
  · have h' : HasSlot disk' dir slot := by rwa [HasSlot, hinode]
    rw [tree_edge_of_hasSlot h, tree_edge_of_hasSlot h', direntAt, direntAt, hinode, hcells _ _ h.cell]
  · have h' : ¬HasSlot disk' dir slot := by rwa [HasSlot, hinode]
    simp only [tree, if_neg h, if_neg h']

theorem tree_cell_congr {disk' : Nat → Block} (hnode : disk' inum = disk inum) :
    (tree disk').cell inum = (tree disk).cell inum := by
  funext i
  simp only [tree, inodeAt_congr hnode]

end Edges

/-! ### What block writes do to the tree -/

section Writes

variable {disk disk' : Nat → Block} {b : Nat}

/-- A data block of a file. -/
def IsData (disk : Nat → Block) (b : Nat) : Prop :=
  ∃ inum i, (tree disk).Reach inum ∧ S_ISDIR (inodeAt disk inum).mode = false ∧ (tree disk).cell inum i = some b

theorem IsData.ne_node (hex : (tree disk).Exclusive) (h : IsData disk b) {inum : Nat}
    (hreach : (tree disk).Reach inum) : inum ≠ b := by
  obtain ⟨n, i, hn, -, hcell⟩ := h
  exact (hex.cell_ne_node hn hcell hreach).symm

/-- A block of a directory is no data block of a file. -/
theorem not_isData_of_dir (hex : (tree disk).Exclusive) {dir : Nat} (hreach : (tree disk).Reach dir)
    (hmode : S_ISDIR (inodeAt disk dir).mode = true) {i : Fin numPtrs}
    (hcell : (tree disk).cell dir i = some b) : ¬IsData disk b := by
  rintro ⟨n, j, hn, hfile, hcell'⟩
  cases hex _ _ _ (.cell hn hcell') (.cell hreach hcell)
  rw [hmode] at hfile
  cases hfile

/-- The second disk agrees with the first on the blocks in use, but for some. -/
def KeepsBut (except : Nat → Prop) (disk disk' : Nat → Block) : Prop :=
  ∀ b, (tree disk).InUse b → ¬except b → disk' b = disk b

theorem KeepsBut.mono {except except' : Nat → Prop} (h : KeepsBut except disk disk')
    (himp : ∀ b, except b → except' b) : KeepsBut except' disk disk' :=
  fun b hb hnot => h b hb fun hexcept => hnot (himp b hexcept)

/-- Other data in files leaves the inodes as they are. -/
theorem KeepsBut.inodeAt (hex : (tree disk).Exclusive) (h : KeepsBut (IsData disk) disk disk') {inum : Nat}
    (hreach : (tree disk).Reach inum) : inodeAt disk' inum = inodeAt disk inum :=
  inodeAt_congr (h inum hreach.inUse fun hdata => hdata.ne_node hex hreach rfl)

/-- Other data in files leaves the entries of all directories as they are. -/
theorem KeepsBut.edge (hex : (tree disk).Exclusive) (h : KeepsBut (IsData disk) disk disk') {inum : Nat}
    (hreach : (tree disk).Reach inum) : (tree disk').edge inum = (tree disk).edge inum := by
  have hinode := h.inodeAt hex hreach
  cases hmode : S_ISDIR (Fs5600.inodeAt disk inum).mode with
  | false =>
      funext slot
      rw [tree_edge_of_not_dir hmode, tree_edge_of_not_dir (by rwa [hinode])]
  | true =>
      apply tree_edge_congr (h inum hreach.inUse fun hdata => hdata.ne_node hex hreach rfl)
      exact fun i b hcell => h b (Graph.Uses.cell hreach hcell).inUse (not_isData_of_dir hex hreach hmode hcell)

/-- Other data in files leaves the tree as it is. -/
theorem KeepsBut.agrees (hex : (tree disk).Exclusive) (h : KeepsBut (IsData disk) disk disk') :
    (tree disk).Agrees (tree disk') where
  root := rfl
  edge _ hn := h.edge hex hn
  cell n hn := tree_cell_congr (h n hn.inUse fun hdata => hdata.ne_node hex hn rfl)

/-- Another inode block, and other data in files. -/
theorem changesCells_of_inode (hex : (tree disk).Exclusive) {inum : Nat} (hreach : (tree disk).Reach inum)
    {inode : Inode} (hwritten : disk' inum = inode.toBlock)
    (hkeep : KeepsBut (fun b => b = inum ∨ IsData disk b) disk disk')
    (hdir : S_ISDIR inode.mode = S_ISDIR (inodeAt disk inum).mode)
    (hblocks : S_ISDIR inode.mode = true → inode.dirBlocks = (inodeAt disk inum).dirBlocks ∧
      inode.ptrs = (inodeAt disk inum).ptrs) :
    (tree disk).ChangesCells (tree disk') inum where
  root := rfl
  edge n hn := by
    have hcells : S_ISDIR (inodeAt disk n).mode = true → ∀ j b, (tree disk).cell n j = some b →
        disk' b = disk b := fun hmode j b hj => by
      refine hkeep b (Graph.Uses.cell hn hj).inUse ?_
      rintro (rfl | hdata)
      · exact hex.cell_ne_node hn hj hreach rfl
      · exact not_isData_of_dir hex hn hmode hj hdata
    have hnew : inodeAt disk' inum = inode := by rw [inodeAt, hwritten, Inode.ofBlock_toBlock]
    have hother : n ≠ inum → disk' n = disk n := fun hne =>
      hkeep n hn.inUse fun h => h.elim hne fun hdata => hdata.ne_node hex hn rfl
    cases hmode : S_ISDIR (inodeAt disk n).mode with
    | false =>
        have hmode' : S_ISDIR (inodeAt disk' n).mode = false := by
          by_cases hne : n = inum
          · subst hne
            rw [hnew, hdir, hmode]
          · rw [inodeAt_congr (hother hne), hmode]
        funext slot
        rw [tree_edge_of_not_dir hmode, tree_edge_of_not_dir hmode']
    | true =>
        by_cases hne : n = inum
        · subst hne
          obtain ⟨hcount, hptrs⟩ := hblocks (hdir.trans hmode)
          funext slot
          have hiff : HasSlot disk' n slot ↔ HasSlot disk n slot := by
            rw [HasSlot, HasSlot, hnew, hcount, hdir]
          by_cases hslot : HasSlot disk n slot
          · rw [tree_edge_of_hasSlot hslot, tree_edge_of_hasSlot (hiff.mpr hslot), direntAt, direntAt, hnew,
              hptrs, hcells hmode _ _ hslot.cell]
          · simp only [tree, if_neg hslot, if_neg (mt hiff.mp hslot)]
        · exact tree_edge_congr (hother hne) (hcells hmode)
  cell n hn hne := tree_cell_congr
    (hkeep n hn.inUse fun h => h.elim hne fun hdata => hdata.ne_node hex hn rfl)

theorem tree_cell_of_inode {inum : Nat} {inode : Inode} (hwritten : disk' inum = inode.toBlock)
    (i : Fin numPtrs) :
    (tree disk').cell inum i = if i.val < inode.numBlocks then some (inode.ptrs i).toNat else none := by
  simp only [tree, inodeAt, hwritten, Inode.ofBlock_toBlock]

/-- Another inode block with the same size and the same blocks leaves the tree as it is. -/
theorem agrees_of_inode (hex : (tree disk).Exclusive) {inum : Nat} (hreach : (tree disk).Reach inum)
    {inode : Inode} (hwritten : disk' inum = inode.toBlock)
    (hkeep : KeepsBut (fun b => b = inum ∨ IsData disk b) disk disk')
    (hdir : S_ISDIR inode.mode = S_ISDIR (inodeAt disk inum).mode)
    (hsize : inode.size = (inodeAt disk inum).size) (hptrs : inode.ptrs = (inodeAt disk inum).ptrs) :
    (tree disk).Agrees (tree disk') := by
  have hchanges := changesCells_of_inode hex hreach hwritten hkeep hdir
    fun _ => ⟨by rw [Inode.dirBlocks, hsize, Inode.dirBlocks], hptrs⟩
  refine ⟨rfl, hchanges.edge, fun n hn => ?_⟩
  by_cases hne : n = inum
  · subst hne
    funext i
    rw [tree_cell_of_inode hwritten, Inode.numBlocks, hsize, hptrs]
    rfl
  · exact hchanges.cell n hn hne

/-- The second disk differs from the first in one entry of a directory. -/
structure ChangesEntry (disk disk' : Nat → Block) (dir : Nat) (slot : Slot) (entry : Dirent) : Prop where
  here : (tree disk').edge dir slot = entry.edge
  edge : ∀ n s, (tree disk).Reach n → ¬(n = dir ∧ s = slot) → (tree disk').edge n s = (tree disk).edge n s
  inode : ∀ n, (tree disk).Reach n → inodeAt disk' n = inodeAt disk n

theorem ChangesEntry.cell {dir : Nat} {slot : Slot} {entry : Dirent}
    (h : ChangesEntry disk disk' dir slot entry) {n : Nat} (hn : (tree disk).Reach n) :
    (tree disk').cell n = (tree disk).cell n := by
  funext i
  simp only [tree, h.inode n hn]

/-- Another entry in one slot of a directory. -/
theorem changesEntry_of_slot (hex : (tree disk).Exclusive) {dir : Nat} (hreach : (tree disk).Reach dir)
    {slot : Slot} (hslot : HasSlot disk dir slot) (hb : ((inodeAt disk dir).ptrs slot.1).toNat = b)
    {entry : Dirent} (hwritten : disk' b = (disk b).setDirent slot.2 entry)
    (hkeep : KeepsBut (fun b' => b' = b) disk disk') : ChangesEntry disk disk' dir slot entry := by
  have hcell : (tree disk).cell dir slot.1 = some b := hb ▸ hslot.cell
  have hinode : ∀ n, (tree disk).Reach n → inodeAt disk' n = inodeAt disk n := fun n hn =>
    inodeAt_congr (hkeep n hn.inUse (hex.cell_ne_node hreach hcell hn).symm)
  refine ⟨?_, ?_, hinode⟩
  · have hslot' : HasSlot disk' dir slot := by rwa [HasSlot, hinode dir hreach]
    rw [tree_edge_of_hasSlot hslot', direntAt, hinode dir hreach, hb, hwritten, Block.dirent_setDirent_self]
  · intro n s hn hne
    have hiff : HasSlot disk' n s ↔ HasSlot disk n s := by rw [HasSlot, HasSlot, hinode n hn]
    by_cases hs : HasSlot disk n s
    · rw [tree_edge_of_hasSlot hs, tree_edge_of_hasSlot (hiff.mpr hs), direntAt, direntAt, hinode n hn]
      by_cases hblock : ((inodeAt disk n).ptrs s.1).toNat = b
      · have huse := hex _ _ _ (.cell hn (hblock ▸ hs.cell)) (.cell hreach hcell)
        simp only [Use.cell.injEq] at huse
        have hslots : s.2 ≠ slot.2 := fun heq => hne ⟨huse.1, Prod.ext huse.2 heq⟩
        rw [hblock, hwritten, Block.dirent_setDirent_ne _ _ hslots]
      · rw [hkeep _ (Graph.Uses.cell hn hs.cell).inUse hblock]
    · simp only [tree, if_neg hs, if_neg (mt hiff.mp hs)]

theorem ChangesEntry.removesEdge {dir : Nat} {slot : Slot} {entry : Dirent}
    (h : ChangesEntry disk disk' dir slot entry) (hvalid : entry.valid = false) :
    (tree disk).RemovesEdge (tree disk') dir slot where
  root := rfl
  gone := h.here.trans (Dirent.edge_eq_none.mpr hvalid)
  edge := h.edge
  cell _ hn := h.cell hn

theorem ChangesEntry.addsLeaf {dir : Nat} {slot : Slot} {entry : Dirent}
    (h : ChangesEntry disk disk' dir slot entry) (hparent : (tree disk).Reach dir)
    (hfree : (tree disk).edge dir slot = none) (hvalid : entry.valid = true) {inum : Nat}
    (hinum : entry.inode.toNat = inum) (hfresh : ¬(tree disk).InUse inum)
    (hleaf : ∀ s, (tree disk').edge inum s = none)
    (hcell : ∀ i b, (tree disk').cell inum i = some b → ¬(tree disk).InUse b ∧ b ≠ inum)
    (hinj : ∀ i j b, (tree disk').cell inum i = some b → (tree disk').cell inum j = some b → i = j) :
    (tree disk).AddsLeaf (tree disk') dir slot entry.storedName inum where
  root := rfl
  parent := hparent
  free := hfree
  added := h.here.trans (Dirent.edge_eq_some.mpr ⟨hvalid, rfl, hinum⟩)
  edge := h.edge
  cell _ hn := h.cell hn
  fresh := hfresh
  leaf := hleaf
  freshCell := hcell
  injCell := hinj

theorem ChangesEntry.relabels {dir : Nat} {slot : Slot} {entry : Dirent}
    (h : ChangesEntry disk disk' dir slot entry) (hvalid : entry.valid = true) {label : List UInt8}
    (hold : (tree disk).edge dir slot = some (label, entry.inode.toNat)) :
    (tree disk).Relabels (tree disk') where
  root := rfl
  edge n s m hn := by
    by_cases hns : n = dir ∧ s = slot
    · obtain ⟨rfl, rfl⟩ := hns
      rw [h.here, hold]
      simp [Dirent.edge, hvalid]
    · rw [h.edge n s hn hns]
  cell _ hn := h.cell hn

end Writes

/-! ### Sound file systems -/

/-- No block is used twice, the blocks in use lie behind the bitmap and on the disk, and all of them are
marked in the bitmap in memory. -/
structure Sound (fs : Fs) : Prop where
  exclusive : (tree fs.disk).Exclusive
  range : ∀ b, (tree fs.disk).InUse b → 2 ≤ b ∧ b < fs.diskSize
  marked : ∀ b, (tree fs.disk).InUse b → bitTest fs.bitmap b = true

namespace Sound

variable {fs : Fs}

/-- A block with a clear bit is not in use. -/
theorem not_inUse (h : Sound fs) {b : Nat} (hclear : bitTest fs.bitmap b = false) :
    ¬(tree fs.disk).InUse b := fun hb => by simp [h.marked b hb] at hclear

/-- An inode on a disk of at most 1020 blocks has fewer blocks than pointers. -/
theorem numBlocks_lt (h : Sound fs) (hsize : fs.diskSize ≤ 1020) {inum : Nat}
    (hreach : (tree fs.disk).Reach inum) : (inodeAt fs.disk inum).numBlocks < 1018 := by
  by_contra hge
  have hcell : ∀ i : Fin 1018, ∀ hi : i.val < numPtrs, (tree fs.disk).cell inum ⟨i, hi⟩ =
      some ((inodeAt fs.disk inum).ptrs ⟨i, hi⟩).toNat := fun i hi =>
    tree_cell_eq_some.mpr ⟨by have := i.isLt; show i.val < _; omega, rfl⟩
  have hlt : ∀ i : Fin 1018, i.val < numPtrs := fun i => i.isLt.trans (by decide)
  let block : Fin 1018 → Nat := fun i => ((inodeAt fs.disk inum).ptrs ⟨i, hlt i⟩).toNat
  have hmaps : ∀ i ∈ Finset.univ, block i ∈ (Finset.Ico 2 1020).erase inum := by
    intro i _
    have hin := h.range _ (Graph.Uses.cell hreach (hcell i (hlt i))).inUse
    refine Finset.mem_erase.mpr ⟨h.exclusive.cell_ne_node hreach (hcell i (hlt i)) hreach, ?_⟩
    exact Finset.mem_Ico.mpr ⟨hin.1, hin.2.trans_le hsize⟩
  have hinj : ∀ i ∈ Finset.univ, ∀ j ∈ Finset.univ, block i = block j → i = j := by
    intro i _ j _ hij
    have hj : (tree fs.disk).cell inum ⟨j, hlt j⟩ = some (block i) := by rw [hij]; exact hcell j (hlt j)
    have huse := h.exclusive _ _ _ (.cell hreach (hcell i (hlt i))) (.cell hreach hj)
    simpa [Fin.ext_iff] using huse
  have hcard := Finset.card_le_card_of_injOn block hmaps hinj
  have hroot := h.range inum hreach.inUse
  rw [Finset.card_univ, Fintype.card_fin, Finset.card_erase_of_mem
    (Finset.mem_Ico.mpr ⟨hroot.1, hroot.2.trans_le hsize⟩), Nat.card_Ico] at hcard
  omega

end Sound

end Fs5600
