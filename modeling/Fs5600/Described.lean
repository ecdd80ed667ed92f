import Fs5600.Generated
import Fs5600.CheckedRuns

/-! The images of descriptions that are trees. What `gen-disk.py` writes for them is what the file system starts from:
`fs_init` mounts it, no block is used twice, and its hierarchy is the one the lines describe. A line may give a file more
blocks than its size needs, as one of `disk1.in` does; without such a line the bits are exact. -/

namespace Fs5600.GenDisk

open Ownership

/-! ### Trees of lines -/

/-- The entries of a line of a directory that are read. -/
def Dir.reads (dir : Dir) : List (List UInt8 × Nat) := dir.entries.filterMap Entry.read

def Description.targets (d : Description) : List Nat := d.dirs.flatMap fun dir => dir.reads.map Prod.snd

/-- The numbers of a line that its inode needs: its own, and those of the blocks that the size goes to. -/
def Item.needed (item : Item) : List Nat := item.common.inum :: item.common.blocks.take item.common.inode.numBlocks

theorem Item.needed_sublist (item : Item) : item.needed.Sublist item.numbers := (List.take_sublist _ _).cons_cons _

inductive Description.Leads (d : Description) : List (List UInt8) → Nat → Prop
  | root : Leads d [] 2
  | entry {dir : Dir} {ls : List (List UInt8)} {l : List UInt8} {m : Nat} (h : Leads d ls dir.inum) (hdir : dir ∈ d.dirs)
      (hread : (l, m) ∈ dir.reads) : Leads d (ls ++ [l]) m

/-- The lines are a tree from line 2: files and directories, each but the root named by one entry. Files have blocks for
all their bytes. -/
structure TreeLike (d : Description) : Prop extends Regular d where
  root : ∃ dir ∈ d.dirs, dir.inum = 2
  dirMode : ∀ dir ∈ d.dirs, S_ISDIR dir.inode.mode = true
  fileMode : ∀ f ∈ d.files, S_ISREG f.inode.mode = true
  fileSize : ∀ f ∈ d.files, 0 ≤ f.inode.size.toInt ∧ f.inode.numBlocks ≤ f.blocks.length
  once : d.targets.Nodup ∧ 2 ∉ d.targets
  lines : ∀ m ∈ d.targets, ∃ item ∈ d.items, item.common.inum = m
  labels : ∀ dir ∈ d.dirs, (dir.reads.map Prod.fst).Nodup
  reached : ∀ item ∈ d.items, ∃ ls, d.Leads ls item.common.inum

section Lists

variable {α β : Type}

/-- A list without duplicates that is put together of parts says which part an element comes from. -/
theorem eq_of_nodup_flatMap {l : List α} {f : α → List β} (h : (l.flatMap f).Nodup) {a a' : α} {b : β} (ha : a ∈ l)
    (ha' : a' ∈ l) (hb : b ∈ f a) (hb' : b ∈ f a') : a = a' := by
  by_contra hne
  have hpairs := (List.nodup_flatMap.mp h).2
  have hsymm : Std.Symm (Function.onFun (@List.Disjoint β) f) := ⟨fun _ _ hdisjoint => hdisjoint.symm⟩
  exact hpairs.forall ha ha' hne hb hb'

end Lists

section Scan

variable {disk : Nat → Block} {n : Nat} {slot slot' : Fs5600.Slot} {entry entry' : List UInt8 × Nat}

/-- The entries that a scan reads are the edges. -/
theorem edge_iff_scanned (hmode : S_ISDIR (inodeAt disk n).mode = true) :
    (tree disk).edge n slot = some entry ↔ slot.1.val < (inodeAt disk n).dirBlocks ∧
      ((disk ((inodeAt disk n).block slot.1)).dirent slot.2).edge = some entry := by
  rw [tree_edge_eq_some, HasSlot, and_iff_right hmode, direntAt, Inode.block, dif_pos slot.1.isLt]

theorem mem_scan_iff (hmode : S_ISDIR (inodeAt disk n).mode = true) (hfits : (inodeAt disk n).dirBlocks ≤ numPtrs) :
    entry ∈ scan disk (inodeAt disk n) ↔ ∃ slot, (tree disk).edge n slot = some entry := by
  rw [scan, List.mem_flatMap]
  constructor
  · rintro ⟨i, hi, hentry⟩
    obtain ⟨s, -, hedge⟩ := List.mem_filterMap.mp hentry
    have hlt := List.mem_range.mp hi
    exact ⟨(⟨i, hlt.trans_le hfits⟩, s), (edge_iff_scanned hmode).mpr ⟨hlt, hedge⟩⟩
  · rintro ⟨slot, hslot⟩
    obtain ⟨hlt, hedge⟩ := (edge_iff_scanned hmode).mp hslot
    exact ⟨slot.1, List.mem_range.mpr hlt, List.mem_filterMap.mpr ⟨slot.2, List.mem_finRange _, hedge⟩⟩

/-- Where a scan reads something once, it reads it in one slot. -/
theorem slot_unique {γ : Type} {part : List UInt8 × Nat → γ} (hmode : S_ISDIR (inodeAt disk n).mode = true)
    (hnodup : ((scan disk (inodeAt disk n)).map part).Nodup) (hslot : (tree disk).edge n slot = some entry)
    (hslot' : (tree disk).edge n slot' = some entry') (heq : part entry = part entry') : slot = slot' := by
  obtain ⟨hlt, hedge⟩ := (edge_iff_scanned hmode).mp hslot
  obtain ⟨hlt', hedge'⟩ := (edge_iff_scanned hmode).mp hslot'
  rw [scan, List.map_flatMap] at hnodup
  have hread : ∀ {i s e}, ((disk ((inodeAt disk n).block i)).dirent s).edge = some e →
      part e ∈ (scanBlock (disk ((inodeAt disk n).block i))).map part := fun hedge =>
    List.mem_map_of_mem (List.mem_filterMap.mpr ⟨_, List.mem_finRange _, hedge⟩)
  have hindex : slot.1.val = slot'.1.val := eq_of_nodup_flatMap hnodup (List.mem_range.mpr hlt) (List.mem_range.mpr hlt')
    (hread hedge) (heq ▸ hread hedge')
  have hblock := (List.nodup_flatMap.mp hnodup).1 slot.1.val (List.mem_range.mpr hlt)
  rw [scanBlock, List.map_filterMap, List.filterMap_eq_flatMap_toList] at hblock
  rw [← hindex] at hedge'
  refine Prod.ext (Fin.ext hindex) (eq_of_nodup_flatMap hblock (List.mem_finRange _) (List.mem_finRange _)
    (show part entry ∈ _ from ?_) (show part entry ∈ _ from ?_))
  · rw [hedge]
    exact List.mem_singleton_self _
  · rw [hedge', heq]
    exact List.mem_singleton_self _

end Scan

section Lines

variable {d : Description} {letters : Nat → Block} {item item' : Item} {dir : Dir} {f : File}

theorem mem_targets (hdir : dir ∈ d.dirs) {l : List UInt8} {m : Nat} (hread : (l, m) ∈ dir.reads) : m ∈ d.targets :=
  List.mem_flatMap.mpr ⟨dir, hdir, List.mem_map.mpr ⟨_, hread, rfl⟩⟩

namespace TreeLike

variable (h : TreeLike d)
include h

theorem item_unique (hitem : item ∈ d.items) (hitem' : item' ∈ d.items) {b : Nat} (hb : b ∈ item.numbers)
    (hb' : b ∈ item'.numbers) : item = item' := eq_of_nodup_flatMap h.nodup hitem hitem' hb hb'

theorem numbers_nodup (hitem : item ∈ d.items) : item.numbers.Nodup := (List.nodup_flatMap.mp h.nodup).1 item hitem

/-- The inode of a line is where the image has it. -/
theorem inodeAt_image (hitem : item ∈ d.items) : inodeAt (d.image letters) item.common.inum = item.common.inode := by
  rw [inodeAt, image_inum h.toRegular hitem, Inode.ofBlock_toBlock]

theorem dirBlocks (hdir : dir ∈ d.dirs) :
    dir.inode.dirBlocks = dir.blocks.length ∧ dir.inode.numBlocks = dir.blocks.length := by
  have hlength : dir.blocks.length ≤ numPtrs := h.lengths _ (mem_items hdir)
  simp only [numPtrs] at hlength
  have hsize : dir.inode.size.toInt = 4096 * (dir.blocks.length : Int) := by
    rw [File.inode, h.size dir hdir, Int32.toInt_ofInt_of_le (by omega) (by omega)]
  constructor
  · rw [Inode.dirBlocks, hsize]
    simp only [fsBlockSize]
    omega
  · rw [Inode.numBlocks, hsize]
    simp only [fsBlockSize]
    omega

theorem numBlocks_le (hitem : item ∈ d.items) : item.common.inode.numBlocks ≤ item.common.blocks.length := by
  rcases mem_items_cases hitem with ⟨f, hf, rfl⟩ | ⟨dir, hdir, rfl⟩
  · exact (h.fileSize f hf).2
  · exact (h.dirBlocks hdir).2.le

/-- The data blocks of an inode are the first of its line. -/
theorem cell_image (hitem : item ∈ d.items) {i : Fin numPtrs} {b : Nat} :
    (tree (d.image letters)).cell item.common.inum i = some b ↔ i.val < item.common.inode.numBlocks ∧
      ∃ hi : i.val < item.common.blocks.length, item.common.blocks[i.val] = b := by
  rw [tree_cell_eq_some, h.inodeAt_image hitem]
  have hptr : ∀ hi : i.val < item.common.blocks.length, (item.common.inode.ptrs i).toNat = item.common.blocks[i.val] := by
    intro hi
    have hblock := block_inode (h.lengths item hitem) (fun b hb => d.below item hitem b (List.mem_cons_of_mem _ hb)) hi
    rwa [Inode.block, dif_pos i.isLt] at hblock
  constructor
  · rintro ⟨hcount, hb⟩
    have hi := hcount.trans_le (h.numBlocks_le hitem)
    exact ⟨hcount, hi, (hptr hi).symm.trans hb⟩
  · rintro ⟨hcount, hi, hb⟩
    exact ⟨hcount, (hptr hi).trans hb⟩

theorem mode_image (hdir : dir ∈ d.dirs) : S_ISDIR (inodeAt (d.image letters) dir.inum).mode = true := by
  have hinode : inodeAt (d.image letters) dir.inum = dir.inode := h.inodeAt_image (mem_items hdir)
  rw [hinode, h.dirMode dir hdir]

/-- What a scan of a directory reads is what stands in its line. -/
theorem scan_reads (hdir : dir ∈ d.dirs) : scan (d.image letters) (inodeAt (d.image letters) dir.inum) = dir.reads := by
  have hinode : inodeAt (d.image letters) dir.inum = dir.inode := h.inodeAt_image (mem_items hdir)
  rw [hinode, scan_image h.toRegular hdir]
  rfl

theorem edge_image (hdir : dir ∈ d.dirs) {entry : List UInt8 × Nat} :
    entry ∈ dir.reads ↔ ∃ slot, (tree (d.image letters)).edge dir.inum slot = some entry := by
  have hinode : inodeAt (d.image letters) dir.inum = dir.inode := h.inodeAt_image (mem_items hdir)
  have hfits : (inodeAt (d.image letters) dir.inum).dirBlocks ≤ numPtrs := by
    rw [hinode, (h.dirBlocks hdir).1]
    exact h.lengths _ (mem_items hdir)
  rw [← mem_scan_iff (h.mode_image hdir) hfits, h.scan_reads hdir]

/-- Only directories have entries. -/
theorem dir_of_edge (hitem : item ∈ d.items) {slot : Fs5600.Slot} {entry : List UInt8 × Nat}
    (hedge : (tree (d.image letters)).edge item.common.inum slot = some entry) : ∃ dir ∈ d.dirs, item = .dir dir := by
  rcases mem_items_cases hitem with ⟨f, hf, rfl⟩ | hdir
  · have hmode := (tree_edge_eq_some.mp hedge).1.1
    rw [h.inodeAt_image hitem] at hmode
    cases (S_ISDIR_eq_false_of_isReg (h.fileMode f hf)).symm.trans hmode
  · exact hdir

/-- What is reached is a line. -/
theorem line_of_reach {n : Nat} (hn : (tree (d.image letters)).Reach n) : ∃ item ∈ d.items, item.common.inum = n := by
  induction hn with
  | root =>
      obtain ⟨dir, hdir, hroot⟩ := h.root
      exact ⟨_, mem_items hdir, hroot⟩
  | step _ hedge ih =>
      obtain ⟨item, hitem, rfl⟩ := ih
      obtain ⟨dir, hdir, rfl⟩ := h.dir_of_edge hitem hedge
      exact h.lines _ (mem_targets hdir ((h.edge_image hdir).mpr ⟨_, hedge⟩))

/-- Two entries for one object are the same entry. -/
theorem edge_unique {n n' m : Nat} {slot slot' : Fs5600.Slot} {l l' : List UInt8} (hn : (tree (d.image letters)).Reach n)
    (hn' : (tree (d.image letters)).Reach n') (hedge : (tree (d.image letters)).edge n slot = some (l, m))
    (hedge' : (tree (d.image letters)).edge n' slot' = some (l', m)) : n = n' ∧ slot = slot' := by
  obtain ⟨item, hitem, rfl⟩ := h.line_of_reach hn
  obtain ⟨dir, hdir, rfl⟩ := h.dir_of_edge hitem hedge
  obtain ⟨item', hitem', rfl⟩ := h.line_of_reach hn'
  obtain ⟨dir', hdir', rfl⟩ := h.dir_of_edge hitem' hedge'
  have hread := (h.edge_image hdir).mpr ⟨slot, hedge⟩
  have hread' := (h.edge_image hdir').mpr ⟨slot', hedge'⟩
  obtain rfl : dir = dir' := eq_of_nodup_flatMap h.once.1 hdir hdir' (List.mem_map.mpr ⟨_, hread, rfl⟩)
    (List.mem_map.mpr ⟨_, hread', rfl⟩)
  refine ⟨rfl, ?_⟩
  have hnodup := (List.nodup_flatMap.mp h.once.1).1 dir hdir
  rw [← h.scan_reads hdir] at hnodup
  exact slot_unique (h.mode_image hdir) hnodup hedge hedge' rfl

/-- No block of the image is used twice. -/
theorem exclusive : (tree (d.image letters)).Exclusive := by
  have hroot : ∀ {n slot l}, (tree (d.image letters)).Reach n → (tree (d.image letters)).edge n slot ≠ some (l, 2) := by
    intro n slot l hn hedge
    obtain ⟨item, hitem, rfl⟩ := h.line_of_reach hn
    obtain ⟨dir, hdir, rfl⟩ := h.dir_of_edge hitem hedge
    exact h.once.2 (mem_targets hdir ((h.edge_image hdir).mpr ⟨slot, hedge⟩))
  -- an inode number is no data block of a line
  have hcell : ∀ {n i b}, (tree (d.image letters)).Reach n → (tree (d.image letters)).cell n i = some b →
      (tree (d.image letters)).Reach b → False := by
    intro n i b hn hcell hb
    obtain ⟨item, hitem, rfl⟩ := h.line_of_reach hn
    obtain ⟨-, hi, rfl⟩ := (h.cell_image hitem).mp hcell
    obtain ⟨item', hitem', heq⟩ := h.line_of_reach hb
    have hmem := List.getElem_mem hi
    obtain rfl := h.item_unique hitem hitem' (List.mem_cons_of_mem _ hmem) (heq ▸ List.mem_cons_self)
    exact (List.nodup_cons.mp (h.numbers_nodup hitem)).1 (heq ▸ hmem)
  intro use use' b huse huse'
  cases huse with
  | root =>
      cases huse' with
      | root => rfl
      | edge hn hedge => exact absurd hedge (hroot hn)
      | cell hn hc => exact (hcell hn hc .root).elim
  | edge hn hedge =>
      cases huse' with
      | root => exact absurd hedge (hroot hn)
      | edge hn' hedge' =>
          obtain ⟨rfl, rfl⟩ := h.edge_unique hn hn' hedge hedge'
          rfl
      | cell hn' hc => exact (hcell hn' hc (hn.step hedge)).elim
  | cell hn hc =>
      cases huse' with
      | root => exact (hcell hn hc .root).elim
      | edge hn' hedge => exact (hcell hn hc (hn'.step hedge)).elim
      | cell hn' hc' =>
          obtain ⟨item, hitem, rfl⟩ := h.line_of_reach hn
          obtain ⟨item', hitem', rfl⟩ := h.line_of_reach hn'
          obtain ⟨-, hi, rfl⟩ := (h.cell_image hitem).mp hc
          obtain ⟨-, hi', heq⟩ := (h.cell_image hitem').mp hc'
          obtain rfl := h.item_unique hitem hitem' (List.mem_cons_of_mem _ (List.getElem_mem hi))
            (List.mem_cons_of_mem _ (heq ▸ List.getElem_mem hi'))
          obtain rfl := Fin.ext ((List.nodup_cons.mp (h.numbers_nodup hitem)).2.getElem_inj_iff.mp heq)
          rfl

/-- The paths of the image are those of the lines. -/
theorem leads_iff {ls : List (List UInt8)} {n : Nat} : (tree (d.image letters)).Leads 2 ls n ↔ d.Leads ls n := by
  constructor
  · intro hleads
    induction ls using List.reverseRecOn generalizing n with
    | nil =>
        obtain rfl : 2 = n := hleads
        exact .root
    | append_singleton ls l ih =>
        obtain ⟨p, slot, hp, hedge⟩ := Graph.leads_snoc.mp hleads
        obtain ⟨item, hitem, rfl⟩ := h.line_of_reach (hp.reach .root)
        obtain ⟨dir, hdir, rfl⟩ := h.dir_of_edge hitem hedge
        exact .entry (ih hp) hdir ((h.edge_image hdir).mpr ⟨slot, hedge⟩)
  · intro hleads
    induction hleads with
    | root => rfl
    | entry _ hdir hread ih =>
        obtain ⟨slot, hedge⟩ := (h.edge_image hdir).mp hread
        exact Graph.leads_snoc.mpr ⟨_, slot, ih, hedge⟩

/-- The objects of the image are the lines. -/
theorem reach_iff {n : Nat} : (tree (d.image letters)).Reach n ↔ ∃ item ∈ d.items, item.common.inum = n := by
  refine ⟨h.line_of_reach, ?_⟩
  rintro ⟨item, hitem, rfl⟩
  obtain ⟨ls, hleads⟩ := h.reached item hitem
  exact (h.leads_iff.mpr hleads).reach .root

/-- The blocks in use are the inodes of the lines, and of their blocks those that the sizes need. -/
theorem inUse_iff {b : Nat} : (tree (d.image letters)).InUse b ↔ ∃ item ∈ d.items, b ∈ item.needed := by
  have hnode : ∀ {n}, (tree (d.image letters)).Reach n → ∃ item ∈ d.items, n ∈ item.needed := fun hn => by
    obtain ⟨item, hitem, rfl⟩ := h.line_of_reach hn
    exact ⟨item, hitem, List.mem_cons_self⟩
  constructor
  · rintro ⟨use, huse⟩
    cases huse with
    | root => exact hnode .root
    | edge hn hedge => exact hnode (hn.step hedge)
    | @cell n i b hn hc =>
        obtain ⟨item, hitem, rfl⟩ := h.line_of_reach hn
        obtain ⟨hcount, hi, rfl⟩ := (h.cell_image hitem).mp hc
        exact ⟨item, hitem, List.mem_cons_of_mem _ (List.mem_take_iff_getElem.mpr ⟨i, lt_min hcount hi, rfl⟩)⟩
  · rintro ⟨item, hitem, hb⟩
    have hreach : (tree (d.image letters)).Reach item.common.inum := h.reach_iff.mpr ⟨item, hitem, rfl⟩
    rcases List.mem_cons.mp hb with rfl | hb
    · exact hreach.inUse
    · obtain ⟨i, hi, rfl⟩ := List.mem_take_iff_getElem.mp hb
      obtain ⟨hcount, hlength⟩ := lt_min_iff.mp hi
      have hlt := hlength.trans_le (h.lengths item hitem)
      have hcell := (@TreeLike.cell_image d letters item h hitem ⟨i, hlt⟩ _).mpr ⟨hcount, hlength, rfl⟩
      exact (Graph.Uses.cell hreach hcell).inUse

/-- The blocks in use are numbers of lines. -/
theorem mem_numbers_of_inUse {b : Nat} (hb : (tree (d.image letters)).InUse b) : b ∈ d.numbers := by
  obtain ⟨item, hitem, hneeded⟩ := h.inUse_iff.mp hb
  exact mem_numbers hitem (item.needed_sublist.subset hneeded)

/-- All numbers are blocks in use where no line has a block too many. -/
theorem numbers_inUse_iff :
    (∀ b ∈ d.numbers, (tree (d.image letters)).InUse b) ↔ ∀ f ∈ d.files, f.inode.numBlocks = f.blocks.length := by
  constructor
  · intro hall f hf
    have hitem : Item.file f ∈ d.items := List.mem_append_left _ (List.mem_map_of_mem hf)
    by_contra hne
    -- the first block behind the size
    have hlt : f.inode.numBlocks < f.blocks.length := lt_of_le_of_ne (h.fileSize f hf).2 hne
    have hnumber : f.blocks[f.inode.numBlocks] ∈ (Item.file f).numbers := List.mem_cons_of_mem _ (List.getElem_mem hlt)
    obtain ⟨item, hitem', hneeded⟩ := h.inUse_iff.mp (hall _ (mem_numbers hitem hnumber))
    obtain rfl := h.item_unique hitem' hitem (item.needed_sublist.subset hneeded) hnumber
    obtain ⟨hinum, hnodup⟩ := List.nodup_cons.mp (h.numbers_nodup hitem)
    rcases List.mem_cons.mp hneeded with heq | hneeded
    · exact hinum (heq ▸ List.getElem_mem hlt)
    · obtain ⟨i, hi, heq⟩ := List.mem_take_iff_getElem.mp hneeded
      have hindex : i = f.inode.numBlocks := hnodup.getElem_inj_iff.mp heq
      exact (lt_min_iff.mp hi).1.ne hindex
  · intro hall b hb
    obtain ⟨item, hitem, hb⟩ := List.mem_flatMap.mp hb
    have hcount : item.common.inode.numBlocks = item.common.blocks.length := by
      rcases mem_items_cases hitem with ⟨f, hf, rfl⟩ | ⟨dir, hdir, rfl⟩
      · exact hall f hf
      · exact (h.dirBlocks hdir).2
    refine h.inUse_iff.mpr ⟨item, hitem, ?_⟩
    rwa [Item.needed, hcount, List.take_length]

/-- The bits of the image. -/
theorem bitTest_image {b : Nat} (hb : b < d.nblocks) :
    bitTest d.placing.blockmap.toBlock b = true ↔ b < 2 ∨ b ∈ d.numbers := by
  have hbits : b < bitmapBits := by
    have hle := h.nblocks_le
    simp only [bitmapBits]
    omega
  have hplaced := @get_foldl .start [0, 1] d.items get_start b
  rw [Bitmap.bitTest_toBlock _ hbits, Description.placing, hplaced, or_comm, Description.numbers, List.mem_cons,
    List.mem_singleton]
  refine or_congr_left ?_
  omega

theorem fits : Fits (d.image letters) := by
  intro n hn
  obtain ⟨item, hitem, rfl⟩ := h.line_of_reach hn
  rw [h.inodeAt_image hitem]
  exact (h.numBlocks_le hitem).trans (h.lengths item hitem)

theorem sound : Sound (d.fs letters) where
  exclusive := h.exclusive
  range b hb := h.range b (h.mem_numbers_of_inUse hb)
  marked b hb := by
    have hmem := h.mem_numbers_of_inUse hb
    exact (h.bitTest_image (h.range b hmem).2).mpr (Or.inr hmem)

/-- The labels of the image are names of entries. -/
theorem label_of_edge {n m : Nat} {slot : Fs5600.Slot} {l : List UInt8} (hn : (tree (d.image letters)).Reach n)
    (hedge : (tree (d.image letters)).edge n slot = some (l, m)) :
    ∃ dir ∈ d.dirs, ∃ entry ∈ dir.entries, entry.name.bytes = l := by
  obtain ⟨item, hitem, rfl⟩ := h.line_of_reach hn
  obtain ⟨dir, hdir, rfl⟩ := h.dir_of_edge hitem hedge
  obtain ⟨entry, hentry, hread⟩ := List.mem_filterMap.mp ((h.edge_image hdir).mpr ⟨slot, hedge⟩)
  rw [Entry.read] at hread
  split_ifs at hread
  exact ⟨dir, hdir, entry, hentry, (Prod.mk.inj (Option.some.inj hread)).1⟩

theorem wellFormed : WellFormed (d.fs letters) where
  toSound := h.sound
  fits := h.fits
  unique n slot slot' l m m' hn hedge hedge' := by
    obtain ⟨item, hitem, rfl⟩ := h.line_of_reach hn
    obtain ⟨dir, hdir, rfl⟩ := h.dir_of_edge hitem hedge
    have hnodup := h.labels dir hdir
    rw [← @TreeLike.scan_reads d letters dir h hdir] at hnodup
    exact slot_unique (h.mode_image hdir) hnodup hedge hedge' rfl
  terminated n slot l m hn hedge := by
    obtain ⟨dir, hdir, entry, hentry, rfl⟩ := h.label_of_edge hn hedge
    exact Nat.lt_succ_of_le (h.names dir hdir entry hentry)

end TreeLike

end Lines

/-! ### What is mounted -/

/-- The bytes of a file: the letters of its blocks, as far as the size goes. -/
def File.bytes (letters : Nat → Block) (f : File) : List UInt8 :=
  (List.range f.inode.size.toInt.toNat).map fun x => (letters (f.inum * 1000 + x / 4096)).byte (x % 4096)

/-- What a line stands for. -/
def Item.node (letters : Nat → Block) : Item → Node
  | .file f => ⟨setstat f.inode, f.bytes letters⟩
  | .dir line => ⟨setstat line.inode, []⟩

section Mounted

variable {d : Description} {letters : Nat → Block} {item : Item}

theorem TreeLike.nodeAt_image (h : TreeLike d) (hitem : item ∈ d.items) :
    nodeAt (d.image letters) item.common.inum = item.node letters := by
  rw [nodeAt, h.inodeAt_image hitem]
  rcases mem_items_cases hitem with ⟨f, hf, rfl⟩ | ⟨dir, hdir, rfl⟩
  · have hfile : S_ISDIR f.inode.mode = false := S_ISDIR_eq_false_of_isReg (h.fileMode f hf)
    obtain ⟨hsize, hcount⟩ := h.fileSize f hf
    have hbytes : f.inode.contents (d.image letters) = f.bytes letters := by
      refine List.map_congr_left fun x hx => ?_
      have hlt : x / fsBlockSize < f.blocks.length := by
        have hxlt := List.mem_range.mp hx
        refine lt_of_lt_of_le ?_ hcount
        rw [Inode.numBlocks]
        simp only [fsBlockSize]
        omega
      have hblock := block_inode (h.lengths _ hitem) (fun b hb => d.below _ hitem b (List.mem_cons_of_mem _ hb)) hlt
      have hdata : d.image letters f.blocks[x / fsBlockSize] = letters (f.inum * 1000 + x / fsBlockSize) :=
        image_data h.toRegular hitem hlt
      rw [Inode.fileByte, show f.inode.block (x / fsBlockSize) = f.blocks[x / fsBlockSize] from hblock, hdata]
    change (⟨setstat f.inode, if S_ISDIR f.inode.mode = true then [] else f.inode.contents (d.image letters)⟩ : Node) = _
    rw [if_neg (by simp [hfile]), hbytes]
    rfl
  · change (⟨setstat dir.inode, if S_ISDIR dir.inode.mode = true then [] else _⟩ : Node) = _
    rw [if_pos (h.dirMode dir hdir)]
    rfl

/-- The superblock of the image. -/
theorem superblock_image (d : Description) (letters : Nat → Block) (hlt : d.nblocks < 2 ^ 32) :
    Words.le32 (d.image letters 0).byte 0 = fsMagic ∧ Words.le32 (d.image letters 0).byte 4 = d.nblocks := by
  have hblock0 : d.image letters 0 = superblock d.nblocks := if_pos rfl
  rw [hblock0]
  constructor
  · refine Words.le32_of_bytes (by decide) fun i hi => ?_
    rw [superblock, Block.byte_ofBytes _ (show 0 + i < 4096 by omega), if_pos (by omega), Nat.zero_add]
  · refine Words.le32_of_bytes hlt fun i hi => ?_
    rw [superblock, Block.byte_ofBytes _ (show 4 + i < 4096 by omega), if_neg (by omega), if_pos (by omega),
      Nat.add_sub_cancel_left]

theorem TreeLike.mounted (h : TreeLike d) : Mounted (d.fs letters) := by
  have hle := h.nblocks_le
  obtain ⟨hmagic, hsize⟩ := superblock_image d letters (by omega)
  exact mounted_of_disk hmagic hsize rfl

/-- The bits of the image are exact where no line has a block too many. -/
theorem TreeLike.exact_iff (h : TreeLike d) :
    Exact (d.fs letters) ↔ ∀ f ∈ d.files, f.inode.numBlocks = f.blocks.length := by
  rw [← @TreeLike.numbers_inUse_iff d letters h]
  constructor
  · intro hexact b hb
    have hrange := h.range b hb
    have hbit := (h.bitTest_image hrange.2).mpr (Or.inr hb)
    exact ((hexact.counted b hrange.2).mp hbit).resolve_left (by omega)
  · intro hall
    refine ⟨h.mounted, fun b hb => (h.bitTest_image hb).trans (or_congr_right ?_)⟩
    exact ⟨hall b, h.mem_numbers_of_inUse⟩

/-- The image of a description that is a tree is mounted as a well-formed file system. At every path stands what the lines
describe, and the bits are exact where no line has a block too many. -/
theorem fsInit_image (h : TreeLike d) (letters : Nat → Block) (env : Env) (hquiet : env.Quiet) :
    fsInit env (d.image letters) = some (d.fs letters) ∧ WellFormed (d.fs letters) ∧
      (Exact (d.fs letters) ↔ ∀ f ∈ d.files, f.inode.numBlocks = f.blocks.length) ∧
      ∀ ls node, hierarchyOf (d.image letters) ls = some node ↔
        ∃ item ∈ d.items, d.Leads ls item.common.inum ∧ item.node letters = node := by
  refine ⟨h.mounted.remount (hquiet.1 0 0) (hquiet.1 1 1), h.wellFormed, h.exact_iff, fun ls node => ?_⟩
  have hshows : ShowsTree (d.image letters) (hierarchyOf (d.image letters)) := Graph.shows_shown h.wellFormed.unique
  rw [hshows ls node]
  constructor
  · rintro ⟨n, hleads, rfl⟩
    obtain ⟨item, hitem, rfl⟩ := h.line_of_reach (hleads.reach .root)
    exact ⟨item, hitem, h.leads_iff.mp hleads, (h.nodeAt_image hitem).symm⟩
  · rintro ⟨item, hitem, hleads, rfl⟩
    exact ⟨item.common.inum, h.leads_iff.mpr hleads, h.nodeAt_image hitem⟩

end Mounted

/-- Lines are reached where every directory but the root stands behind a directory with an entry for it, and every file
has an entry. -/
theorem reached_of_order {d : Description}
    (hdirs : ∀ i : Fin d.dirs.length, d.dirs[i].inum = 2 ∨ ∃ j : Fin d.dirs.length, j < i ∧
      d.dirs[i].inum ∈ d.dirs[j].reads.map Prod.snd)
    (hfiles : ∀ f ∈ d.files, f.inum ∈ d.targets) : ∀ item ∈ d.items, ∃ ls, d.Leads ls item.common.inum := by
  have hbelow : ∀ {dir : Dir} {m : Nat}, dir ∈ d.dirs → (∃ ls, d.Leads ls dir.inum) → m ∈ dir.reads.map Prod.snd →
      ∃ ls, d.Leads ls m := by
    rintro dir m hdir ⟨ls, hleads⟩ hm
    obtain ⟨⟨l, m⟩, hread, rfl⟩ := List.mem_map.mp hm
    exact ⟨ls ++ [l], .entry hleads hdir hread⟩
  have hdir : ∀ i : Fin d.dirs.length, ∃ ls, d.Leads ls d.dirs[i].inum := by
    intro i
    induction i using WellFoundedLT.induction with
    | ind i ih =>
        rcases hdirs i with hroot | ⟨j, hlt, hentry⟩
        · exact ⟨[], hroot ▸ .root⟩
        · exact hbelow (List.getElem_mem j.isLt) (ih j hlt) hentry
  have hall : ∀ dir ∈ d.dirs, ∃ ls, d.Leads ls dir.inum := fun dir hmem => by
    obtain ⟨i, hi, rfl⟩ := List.mem_iff_getElem.mp hmem
    exact hdir ⟨i, hi⟩
  intro item hitem
  rcases mem_items_cases hitem with ⟨f, hf, rfl⟩ | ⟨dir, hmem, rfl⟩
  · obtain ⟨dir, hmem, hentry⟩ := List.mem_flatMap.mp (hfiles f hf)
    exact hbelow hmem (hall dir hmem) hentry
  · exact hall dir hmem

/-- The lines of `disk1.in`. -/
def disk1 : Description where
  nblocks := 400
  files := [
    ⟨389, 500, 500, 0o100666, 1565283152, 1565283152, 1000, [365]⟩,
    ⟨268, 500, 500, 0o100666, 1565283152, 1565283167, 10, [122]⟩,
    ⟨59, 500, 500, 0o100666, 1565283152, 1565283167, 8195, [65, 363, 326]⟩,
    ⟨327, 0, 500, 0o100666, 1565283152, 1565283167, 12289, [233, 116, 311, 109]⟩,
    ⟨55, 500, 500, 0o100666, 1565283152, 1565283167, 1000, [189]⟩,
    ⟨139, 500, 500, 0o100777, 1565283152, 1565283167, 4098, [295, 229]⟩,
    ⟨146, 0, 500, 0o100777, 1565283152, 1565283167, 12287, [22, 85, 266, 26]⟩,
    ⟨188, 500, 500, 0o100666, 1565283152, 1565283167, 4095, [51]⟩,
    ⟨21, 500, 500, 0o100666, 1565283152, 1565283167, 8190, [102, 297]⟩,
    ⟨71, 500, 500, 0o100666, 1565283152, 1565283167, 12288, [332, 151, 283]⟩]
  dirs := [
    ⟨⟨2, 0, 0, 0o40777, 1565283152, 1565283167, 4096, [399]⟩, [
      ⟨false, ⟨"nothing".toUTF8.toList, by decide +kernel⟩, 0⟩,
      ⟨false, ⟨"nothing".toUTF8.toList, by decide +kernel⟩, 0⟩,
      ⟨true, ⟨"file.1k".toUTF8.toList, by decide +kernel⟩, 389⟩,
      ⟨true, ⟨"file.10".toUTF8.toList, by decide +kernel⟩, 268⟩,
      ⟨true, ⟨"dir-with-long-name".toUTF8.toList, by decide +kernel⟩, 253⟩,
      ⟨true, ⟨"dir2".toUTF8.toList, by decide +kernel⟩, 213⟩,
      ⟨true, ⟨"dir3".toUTF8.toList, by decide +kernel⟩, 238⟩,
      ⟨true, ⟨"file.8k+".toUTF8.toList, by decide +kernel⟩, 59⟩]⟩,
    ⟨⟨253, 0, 0, 0o40777, 1565283152, 1565283167, 4096, [29]⟩, [
      ⟨true, ⟨"file.12k+".toUTF8.toList, by decide +kernel⟩, 327⟩,
      ⟨false, ⟨"nothing".toUTF8.toList, by decide +kernel⟩, 0⟩,
      ⟨false, ⟨"nothing".toUTF8.toList, by decide +kernel⟩, 0⟩]⟩,
    ⟨⟨213, 500, 500, 0o40777, 1565283152, 1565283167, 8192, [270, 244]⟩, [
      ⟨true, ⟨"twenty-seven-byte-file-name".toUTF8.toList, by decide +kernel⟩, 55⟩,
      ⟨true, ⟨"file.4k+".toUTF8.toList, by decide +kernel⟩, 139⟩]⟩,
    ⟨⟨238, 0, 500, 0o40777, 1565283152, 1565283167, 4096, [136]⟩, [
      ⟨true, ⟨"subdir".toUTF8.toList, by decide +kernel⟩, 338⟩,
      ⟨true, ⟨"file.12k-".toUTF8.toList, by decide +kernel⟩, 146⟩]⟩,
    ⟨⟨338, 0, 500, 0o40777, 1565283152, 1565283167, 4096, [339]⟩, [
      ⟨true, ⟨"file.4k-".toUTF8.toList, by decide +kernel⟩, 188⟩,
      ⟨true, ⟨"file.8k-".toUTF8.toList, by decide +kernel⟩, 21⟩,
      ⟨true, ⟨"file.12k".toUTF8.toList, by decide +kernel⟩, 71⟩]⟩]
  below := by decide

theorem treeLike_disk1 : TreeLike disk1 where
  toRegular := ⟨by decide, by decide +kernel, by decide +kernel, by decide +kernel, by decide +kernel, by decide +kernel,
    by decide +kernel⟩
  root := ⟨_, List.mem_cons_self, rfl⟩
  dirMode := by decide +kernel
  fileMode := by decide +kernel
  fileSize := by decide +kernel
  once := by decide +kernel
  lines := by decide +kernel
  labels := by decide +kernel
  reached := reached_of_order (by decide +kernel) (by decide +kernel)

/-- The bits of this image are not exact: `/dir3/file.12k-` has four blocks, of which its 12287 bytes need three. -/
theorem fsInit_image_disk1 :
    fsInit (quietEnv 0) (disk1.image fun _ => Block.zero) = some (disk1.fs fun _ => Block.zero) ∧
      WellFormed (disk1.fs fun _ => Block.zero) ∧ ¬Exact (disk1.fs fun _ => Block.zero) ∧
      ∀ ls node, hierarchyOf (disk1.image fun _ => Block.zero) ls = some node ↔
        ∃ item ∈ disk1.items, disk1.Leads ls item.common.inum ∧ item.node (fun _ => Block.zero) = node := by
  obtain ⟨hinit, hform, hexact, hhierarchy⟩ :=
    fsInit_image treeLike_disk1 (fun _ => Block.zero) (quietEnv 0) (quiet_quietEnv 0)
  exact ⟨hinit, hform, fun h => absurd (hexact.mp h) (by decide +kernel), hhierarchy⟩

/-! ### What is printed -/

/-- The line that `read-img.py` prints for a line of a description, at a path. -/
def Item.printed (item : Item) (ls : List (List UInt8)) : ReadImg.Line :=
  .inode item.common.inum (if ls = [] then [slash] else ReadImg.pathText ls) item.common.inode.uid item.common.inode.gid
    item.common.inode.mode item.common.inode.size.toInt true

structure Repeats (d : Description) (report : ReadImg.Report) : Prop where
  clean : report.Clean
  used : ∀ b, b ∈ report.used ↔ b < 2 ∨ b ∈ d.numbers
  found : ∀ n, n ∈ report.found ↔ ∃ item ∈ d.items, item.common.inum = n
  objects : ∀ line n, line ∈ report.lines ∧ line.inum? = some n ↔
    ∃ ls, ∃ item ∈ d.items, d.Leads ls n ∧ item.common.inum = n ∧ line = item.printed ls

section Printed

open ReadImg

variable {d : Description} {letters : Nat → Block} {depth : Nat}

theorem TreeLike.readable (h : TreeLike d) (hascii : d.Ascii) : Readable (imageFile (d.fs letters)) where
  length := Nat.mul_mod_left _ _
  bits := by
    rw [nblks_imageFile]
    exact h.nblocks_le.trans (by decide)
  exclusive := h.exclusive
  range b hb := by
    rw [nblks_imageFile]
    exact (h.sound.range b hb).2
  inodes n hn := by
    obtain ⟨item, hitem, rfl⟩ := h.line_of_reach hn
    have hfits : item.common.inode.numBlocks ≤ numPtrs := (h.numBlocks_le hitem).trans (h.lengths item hitem)
    change Legible (inodeAt (d.image letters) item.common.inum)
    rw [h.inodeAt_image hitem]
    rcases mem_items_cases hitem with ⟨f, hf, rfl⟩ | ⟨dir, hdir, rfl⟩
    · have hreg := h.fileMode f hf
      refine ⟨Or.inl hreg, hfits, fun hmode => ?_⟩
      cases (S_ISDIR_eq_false_of_isReg hreg).symm.trans hmode
    · obtain ⟨hdirBlocks, hnumBlocks⟩ := h.dirBlocks hdir
      exact ⟨Or.inr (h.dirMode dir hdir), hfits, fun _ => hnumBlocks.trans hdirBlocks.symm⟩
  ascii n slot l m hn hedge := by
    obtain ⟨dir, hdir, entry, hentry, rfl⟩ := h.label_of_edge hn hedge
    exact hascii dir hdir entry hentry

/-- What `read-img.py` prints of the image of a description that is a tree. -/
theorem TreeLike.repeats (h : TreeLike d) {report : Report} (hshown : Shown (imageFile (d.fs letters)) report) :
    Repeats d report := by
  have hcovers : Covers (d.image letters 1) (d.image letters) := (@TreeLike.sound d letters h).covers
  have hprinted : ∀ {item ls}, item ∈ d.items →
      objectLine (imageFile (d.fs letters)) (pathText ls) item.common.inum = item.printed ls := by
    intro item ls hitem
    have hinode : inodeAt (imageFile (d.fs letters)).blks item.common.inum = item.common.inode := h.inodeAt_image hitem
    have hbit : bitTest ((imageFile (d.fs letters)).blks 1) item.common.inum = true :=
      hcovers _ (h.inUse_iff.mpr ⟨item, hitem, List.mem_cons_self⟩)
    rw [objectLine, hinode, hbit, if_congr pathText_eq_nil rfl rfl, Item.printed]
  refine ⟨?_, fun b => ?_, fun n => (hshown.found n).trans h.reach_iff, fun line n => (hshown.objects line n).trans ?_⟩
  · obtain ⟨hmagic, hsize⟩ := superblock_image d letters (h.nblocks_le.trans_lt (by decide))
    exact hshown.clean_iff.mpr ⟨hmagic, hsize.trans (nblks_imageFile (d.fs letters)).symm, hcovers⟩
  · rw [hshown.used, nblks_imageFile]
    constructor
    · rintro ⟨hlt, hbit⟩
      exact (h.bitTest_image hlt).mp hbit
    · intro hb
      obtain ⟨root, hroot, hinum⟩ := h.root
      have htwo : 2 < d.nblocks := (h.range 2 (hinum ▸ mem_numbers (mem_items hroot) List.mem_cons_self)).2
      have hlt : b < d.nblocks := hb.elim (fun hb => hb.trans htwo) fun hb => (h.range b hb).2
      exact ⟨hlt, (h.bitTest_image hlt).mpr hb⟩
  · constructor
    · rintro ⟨ls, hleads, rfl⟩
      obtain ⟨item, hitem, rfl⟩ := h.line_of_reach (hleads.reach .root)
      exact ⟨ls, item, hitem, h.leads_iff.mp hleads, rfl, hprinted hitem⟩
    · rintro ⟨ls, item, hitem, hleads, rfl, rfl⟩
      exact ⟨ls, h.leads_iff.mpr hleads, (hprinted hitem).symm⟩

/-- `read-img.py` ends on the image of a description that is a tree. It finds nothing wrong, and prints the lines of
the description again, under their paths, and as used the numbers in it. -/
theorem readImg_image (h : TreeLike d) (hascii : d.Ascii) (letters : Nat → Block) (hdepth : d.nblocks ≤ depth) :
    ∃ report, readImg (imageFile (d.fs letters)) depth = .ok report ∧ Repeats d report := by
  have hreadable : Readable (imageFile (d.fs letters)) := h.readable hascii
  obtain ⟨report, hreport⟩ := hreadable.reports ((nblks_imageFile _).le.trans hdepth)
  exact ⟨report, hreport, h.repeats (hreadable.shown (reported_of_readImg hreport))⟩

end Printed

theorem readImg_image_disk1 : ∃ report,
    ReadImg.readImg (ReadImg.imageFile (disk1.fs fun _ => Block.zero)) 400 = .ok report ∧ Repeats disk1 report :=
  readImg_image treeLike_disk1 (by decide +kernel) (fun _ => Block.zero) (by decide)

end Fs5600.GenDisk
