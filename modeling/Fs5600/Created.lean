import Fs5600.Create

/-! What `fs_create` and `fs_mkdir` do to the tree: their last write takes effect and adds one object; the
events before it leave the tree alone. -/

namespace Fs5600

open Ownership Command

/-! ### Objects that appear -/

/-- The second state has one more object: an inode without entries, and the blocks it owns, all of them
claimed before. -/
structure Created (fs fs' : Fs) (dir : Nat) (slot : Slot) (name : CStr) (inum : Nat) (inode : Inode)
    (claimed : List Nat) : Prop where
  adds : (tree fs.disk).AddsLeaf (tree fs'.disk) dir slot (name.bytes.take 26) inum
  mode : S_ISDIR (inodeAt fs.disk dir).mode = true
  inodes : ∀ n, (tree fs.disk).Reach n → inodeAt fs'.disk n = inodeAt fs.disk n
  new : inodeAt fs'.disk inum = inode
  disk : KeepsBut (fun b => b = ((inodeAt fs.disk dir).ptrs slot.1).toNat) fs.disk fs'.disk
  claimable : Claimable fs claimed
  claimed_iff : ∀ b, b ∈ claimed ↔ b = inum ∨ ∃ i, (tree fs'.disk).cell inum i = some b
  bitmap : fs'.bitmap = setAll fs.bitmap claimed
  saved : fs'.disk 1 = fs'.bitmap
  superblock : fs'.disk 0 = fs.disk 0
  diskSize : fs'.diskSize = fs.diskSize

section Created

variable {fs fs' : Fs} {dir inum : Nat} {slot : Slot} {name : CStr} {inode : Inode} {claimed : List Nat}

theorem Created.inUse_iff (h : Created fs fs' dir slot name inum inode claimed) (b : Nat) :
    (tree fs'.disk).InUse b ↔ (tree fs.disk).InUse b ∨ b ∈ claimed := by
  rw [h.adds.inUse_iff, h.claimed_iff]

theorem Created.bitTest (h : Created fs fs' dir slot name inum inode claimed) (i : Nat) :
    bitTest fs'.bitmap i = (decide (i ∈ claimed) || bitTest fs.bitmap i) := by
  rw [h.bitmap, bitTest_setAll fun b hb => (h.claimable.range b hb).2.2]

theorem Created.sound (h : Created fs fs' dir slot name inum inode claimed) (hsound : Sound fs) :
    Sound fs' where
  exclusive := h.adds.exclusive hsound.exclusive
  range b hb := by
    rw [h.diskSize]
    rcases (h.inUse_iff b).mp hb with hb | hb
    · exact hsound.range b hb
    · exact ⟨(h.claimable.range b hb).1, (h.claimable.range b hb).2.1⟩
  marked b hb := by
    rw [h.bitTest]
    rcases (h.inUse_iff b).mp hb with hb | hb
    · rw [hsound.marked b hb, Bool.or_true]
    · rw [decide_eq_true hb, Bool.true_or]

/-- The last write of `fs_create` and `fs_mkdir` takes effect: the claimed blocks, written before, become
an object of the tree. -/
theorem created_of_entry (h : Sound fs) {limits : Limits} {path : CStr}
    (hat : CreateAt limits fs path name dir) {hit : Hit}
    (hsearch : searchDirIn isUnused (inodeAt fs.disk dir) fs.disk = .ok (some hit)) {first : List Event}
    (hundone : Undone fs first) (hclaim : Claimable fs claimed) (hinum : inum ∈ claimed)
    (hbitmap : (fs.replay first).bitmap = setAll fs.bitmap claimed)
    (hsaved : (fs.replay first).disk 1 = setAll fs.bitmap claimed)
    (hsuper : (fs.replay first).disk 0 = fs.disk 0) (hinode : (fs.replay first).disk inum = inode.toBlock)
    (hleaf : ∀ s, (tree (fs.replay first).disk).edge inum s = none)
    (hcells : ∀ b, b ∈ claimed ↔
      b = inum ∨ ∃ i : Fin numPtrs, i.val < inode.numBlocks ∧ (inode.ptrs i).toNat = b)
    (hne : ∀ i : Fin numPtrs, i.val < inode.numBlocks → (inode.ptrs i).toNat ≠ inum)
    (hinj : ∀ i j : Fin numPtrs, i.val < inode.numBlocks → j.val < inode.numBlocks →
      (inode.ptrs i).toNat = (inode.ptrs j).toNat → i = j) :
    Created fs (fs.replay (first ++ [Event.blockWrite ((inodeAt fs.disk dir).ptrs hit.index).toNat
      (hit.block.setDirent hit.slot (hit.entry.fill inum name))])) dir (hit.index, hit.slot) name inum inode
      claimed := by
  obtain ⟨-, hblock, htest⟩ := searchDirIn_eq_some hsearch
  obtain ⟨hslot, hslotEntry⟩ := hit_slot hat.mode hsearch
  have hkeeps : Keeps (fun _ => False) fs (fs.replay first) := keeps_replay hundone.silent
  rw [Fs.replay_append, Fs.replay_cons, Fs.replay_nil]
  set mid := fs.replay first
  set ptr := ((inodeAt fs.disk dir).ptrs hit.index).toNat with hptr
  have huse : (tree fs.disk).InUse ptr := (Graph.Uses.cell hat.reach hslot.cell).inUse
  have hfresh : ∀ b ∈ claimed, b ≠ ptr := fun b hb heq => hclaim.not_inUse h hb (by rwa [heq])
  have hptr2 := (h.range ptr huse).1
  set disk' := Function.update mid.disk ptr (hit.block.setDirent hit.slot (hit.entry.fill inum name)) with hdisk'
  have hold : ∀ b, b ≠ ptr → disk' b = mid.disk b := fun b hb => Function.update_of_ne hb _ _
  have hkeep : KeepsBut (fun b => b = ptr) fs.disk disk' := fun b hb hne =>
    (hold b hne).trans (hkeeps.disk b hb id)
  have hwritten : disk' ptr = (fs.disk ptr).setDirent hit.slot (hit.entry.fill inum name) := by
    rw [hdisk', Function.update_self, hblock]
  have hnew : disk' inum = inode.toBlock := (hold inum (hfresh inum hinum)).trans hinode
  have hcell : ∀ {i b}, (tree disk').cell inum i = some b ↔ i.val < inode.numBlocks ∧ (inode.ptrs i).toNat = b := by
    intro i b
    rw [tree_cell_of_inode hnew]
    split
    · rename_i hi
      simp [hi]
    · rename_i hi
      simp [hi]
  have hclaimed : ∀ b, b ∈ claimed ↔ b = inum ∨ ∃ i, (tree disk').cell inum i = some b := by
    simpa only [hcell] using hcells
  have hleaf' : ∀ s, (tree disk').edge inum s = none := fun s => by
    rw [tree_edge_congr (hold inum (hfresh inum hinum)), hleaf]
    intro i b hi
    rw [tree_cell_of_inode hinode, ← tree_cell_of_inode hnew] at hi
    exact hold b (hfresh b ((hclaimed b).mpr (Or.inr ⟨i, hi⟩)))
  have hchanges := changesEntry_of_slot h.exclusive hat.reach hslot rfl hwritten hkeep
  have hfree : (tree fs.disk).edge dir (hit.index, hit.slot) = none := by
    rw [tree_edge_of_hasSlot hslot, hslotEntry]
    exact Dirent.edge_eq_none.mpr (by simpa [isUnused] using htest)
  have hname : (hit.entry.fill inum name).storedName = name.bytes.take 26 := storedName_copyName _ _ _ _
  refine ⟨?_, hat.mode, hchanges.inode, by rw [inodeAt]; exact (congrArg _ hnew).trans (Inode.ofBlock_toBlock _),
    hkeep, hclaim, hclaimed, hbitmap, ?_, ?_, hkeeps.diskSize⟩
  · rw [← hname]
    refine hchanges.addsLeaf hat.reach hfree rfl (inode_fill (hclaim.range inum hinum).2.2)
      (hclaim.not_inUse h hinum) hleaf' (fun i b hi => ⟨?_, ?_⟩) fun i j b hi hj => ?_
    · exact hclaim.not_inUse h ((hclaimed b).mpr (Or.inr ⟨i, hi⟩))
    · exact (hcell.mp hi).2 ▸ hne i (hcell.mp hi).1
    · exact hinj i j (hcell.mp hi).1 (hcell.mp hj).1 ((hcell.mp hi).2.trans (hcell.mp hj).2.symm)
  · calc disk' 1 = mid.disk 1 := hold 1 (by omega)
      _ = setAll fs.bitmap claimed := hsaved
      _ = mid.bitmap := hbitmap.symm
  · exact (hold 0 (by omega)).trans hsuper

end Created

/-- A write of the bitmap block in the trace drops no mark. -/
def KeepsMarks (fs : Fs) (plan : List Event) : Prop :=
  ∀ block, .blockWrite 1 block ∈ plan → ∀ b, bitTest fs.bitmap b = true → bitTest block b = true

/-- How `fs_create` and `fs_mkdir` end: with the tree as it was, or with one more object whose inode
satisfies `isNew`, put there by the last write. -/
inductive Creates (isNew : Inode → Prop) (limits : Limits) (fs : Fs) (path : CStr) :
    Except Stop Int → List Event → Prop
  | stops {reason : Stop} {plan : List Event} (hundone : Undone fs plan) (hmarks : KeepsMarks fs plan) :
      Creates isNew limits fs path (.error reason) plan
  | done {first : List Event} {lba : Nat} {block : Block} {dir inum : Nat} {slot : Slot} {name : CStr} {inode : Inode}
      {claimed : List Nat} (hundone : Undone fs first) (hmarks : KeepsMarks fs first)
      (hat : CreateAt limits fs path name dir) (hnew : isNew inode) (hcount : claimed.length = inode.numBlocks + 1)
      (hcreated : Created fs (fs.replay (first ++ [.blockWrite lba block])) dir slot name inum inode claimed) :
      Creates isNew limits fs path (.ok 0) (first ++ [.blockWrite lba block])

section Creates

variable {env : Env} {fs : Fs} {path : CStr} {mode : UInt32} {value : Except Stop Int} {plan : List Event}

theorem size_newInode : (newInode env mode).size.toInt = 0 := by
  change (0 : Int32).toInt = 0
  decide

theorem size_newDirInode {block : Nat} : (newDirInode env mode block).size.toInt = 4096 := by
  change (4096 : Int32).toInt = 4096
  decide

theorem numBlocks_newInode : (newInode env mode).numBlocks = 0 := by
  rw [Inode.numBlocks, size_newInode]
  rfl

theorem numBlocks_newDirInode {block : Nat} : (newDirInode env mode block).numBlocks = 1 := by
  rw [Inode.numBlocks, size_newDirInode]
  rfl

theorem keepsMarks_setAll {first : List Event} (claimed : List Nat) (hbits : ∀ b ∈ claimed, b < bitmapBits)
    (hfirst : ∀ block, .blockWrite 1 block ∈ first → block = setAll fs.bitmap claimed) :
    KeepsMarks fs first := by
  intro block hblock b hb
  rw [hfirst block hblock, bitTest_setAll hbits, hb, Bool.or_true]

theorem creates_of_create (h : Sound fs) (hcreate : Create env fs path mode value plan) :
    Creates (· = newInode env mode) env.limits fs path value plan := by
  cases hcreate with
  | stops reason => exact .stops (by simp [Undone]) (by simp [KeepsMarks])
  | @marked dir inum name value last hat hclear hlast =>
      have hclaim := claimable_of_clearBit hclear
      have hrange := hclaim.range inum List.mem_cons_self
      have hfree : ¬(tree fs.disk).InUse inum := hclaim.not_inUse h List.mem_cons_self
      set first : List Event := [.bitSet inum, .blockWrite 1 (bitSet fs.bitmap inum),
        .blockWrite inum (newInode env mode).toBlock] with hfirst
      have hundone : Undone fs first := by
        simp only [hfirst, Undone, List.forall_mem_cons, List.not_mem_nil, false_imp_iff, implies_true, and_true]
        exact ⟨⟨hrange.2.2, trivial⟩, ⟨silent_bitmapWrite h _, trivial⟩, fun huse => absurd huse hfree, trivial⟩
      have hmarks : KeepsMarks fs first := by
        refine keepsMarks_setAll [inum] (by simpa using hrange.2.2) fun block hblock => ?_
        simp only [hfirst, List.mem_cons, reduceCtorEq, Event.blockWrite.injEq, List.not_mem_nil, or_false,
          false_or, true_and] at hblock
        rcases hblock with rfl | ⟨hone, -⟩
        · rfl
        · omega
      cases hlast with
      | full reason => exact .stops hundone hmarks
      | @done hit hsearch =>
          have hdisk : (fs.replay first).disk = Function.update (Function.update fs.disk 1
              (setAll fs.bitmap [inum])) inum (newInode env mode).toBlock := rfl
          have hinode : (fs.replay first).disk inum = (newInode env mode).toBlock := by
            rw [hdisk, Function.update_self]
          refine .done hundone hmarks hat rfl (by rw [numBlocks_newInode]; rfl) (created_of_entry h hat hsearch hundone hclaim
            List.mem_cons_self rfl ?_ ?_ hinode (fun s => ?_) ?_ ?_ ?_)
          · rw [hdisk, Function.update_of_ne (by omega), Function.update_self]
          · rw [hdisk, Function.update_of_ne (by omega), Function.update_of_ne (by omega)]
          · refine if_neg fun hslot => ?_
            have hlt := hslot.lt_numBlocks
            rw [inodeAt, hinode, Inode.ofBlock_toBlock, numBlocks_newInode] at hlt
            exact Nat.not_lt_zero _ hlt
          · simp [numBlocks_newInode]
          · simp [numBlocks_newInode]
          · simp [numBlocks_newInode]

theorem creates_of_mkdir (h : Sound fs) (hmkdir : Mkdir env fs path mode value plan) :
    Creates (fun inode => ∃ block, inode = newDirInode env mode block) env.limits fs path value plan := by
  cases hmkdir with
  | stops reason => exact .stops (by simp [Undone]) (by simp [KeepsMarks])
  | @marked dir inum block name value last hat hclaim hlast =>
      have hinumRange := hclaim.range inum List.mem_cons_self
      have hblockRange := hclaim.range block (List.mem_cons_of_mem _ List.mem_cons_self)
      have hfree : ∀ b ∈ [inum, block], ¬(tree fs.disk).InUse b := fun b => hclaim.not_inUse h
      have hne : inum ≠ block := by simpa using hclaim.nodup
      set first : List Event := [.bitSet inum, .bitSet block, .blockWrite 1 (setAll fs.bitmap [inum, block]),
        .blockWrite inum (newDirInode env mode block).toBlock, .blockWrite block Block.zero] with hfirst
      have hundone : Undone fs first := by
        simp only [hfirst, Undone, List.forall_mem_cons, List.not_mem_nil, false_imp_iff, implies_true, and_true]
        exact ⟨⟨hinumRange.2.2, trivial⟩, ⟨hblockRange.2.2, trivial⟩, ⟨silent_bitmapWrite h _, trivial⟩,
          ⟨fun huse => absurd huse (hfree inum (by simp)), trivial⟩,
          fun huse => absurd huse (hfree block (by simp)), trivial⟩
      have hmarks : KeepsMarks fs first := by
        refine keepsMarks_setAll [inum, block] (by simpa using ⟨hinumRange.2.2, hblockRange.2.2⟩) fun contents hcontents => ?_
        simp only [hfirst, List.mem_cons, reduceCtorEq, Event.blockWrite.injEq, List.not_mem_nil, or_false,
          false_or, true_and] at hcontents
        rcases hcontents with rfl | ⟨hone, -⟩ | ⟨hone, -⟩
        · rfl
        · omega
        · omega
      cases hlast with
      | full reason => exact .stops hundone hmarks
      | @done hit hsearch =>
          have hdisk : (fs.replay first).disk = Function.update (Function.update (Function.update fs.disk 1
              (setAll fs.bitmap [inum, block])) inum (newDirInode env mode block).toBlock) block Block.zero := rfl
          have hinode : (fs.replay first).disk inum = (newDirInode env mode block).toBlock := by
            rw [hdisk, Function.update_of_ne hne, Function.update_self]
          have hptr : ((newDirInode env mode block).ptrs 0).toNat = block := by
            have hlt : block < UInt32.size := hblockRange.2.2.trans (by decide)
            exact UInt32.toNat_ofNat_of_lt' hlt
          have hzero : ∀ i : Fin numPtrs, i.val < (newDirInode env mode block).numBlocks → i = 0 := fun i hi => by
            rw [numBlocks_newDirInode] at hi
            exact Fin.ext (by simpa using hi)
          refine .done hundone hmarks hat ⟨block, rfl⟩ (by rw [numBlocks_newDirInode]; rfl) (created_of_entry h hat hsearch hundone hclaim
            List.mem_cons_self rfl ?_ ?_ hinode (fun s => ?_) (fun b => ?_) ?_ ?_)
          · rw [hdisk, Function.update_of_ne (by omega), Function.update_of_ne (by omega), Function.update_self]
          · rw [hdisk, Function.update_of_ne (by omega), Function.update_of_ne (by omega),
              Function.update_of_ne (by omega)]
          · by_cases hslot : HasSlot (fs.replay first).disk inum s
            · have hlt := hslot.lt_numBlocks
              have hat0 : inodeAt (fs.replay first).disk inum = newDirInode env mode block := by
                rw [inodeAt, hinode, Inode.ofBlock_toBlock]
              rw [tree_edge_of_hasSlot hslot, direntAt, hat0, hzero s.1 (hat0 ▸ hlt), hptr, hdisk,
                Function.update_self]
              exact Dirent.edge_eq_none.mpr (Block.valid_dirent_zero _)
            · exact if_neg hslot
          · simp only [List.mem_cons, List.not_mem_nil, or_false]
            refine or_congr_right ⟨?_, ?_⟩
            · rintro rfl
              exact ⟨0, by rw [numBlocks_newDirInode]; decide, hptr⟩
            · rintro ⟨i, hi, rfl⟩
              rw [hzero i hi, hptr]
          · intro i hi
            rw [hzero i hi, hptr]
            exact hne.symm
          · intro i j hi hj _
            rw [hzero i hi, hzero j hj]

end Creates

end Fs5600
