import Fs5600.Removed
import Fs5600.Write

/-! What `fs_chmod`, `fs_utime`, `fs_truncate` and `fs_write` do to the tree: one inode changes. The first
two leave its size and its blocks, the last two leave all directories. -/

namespace Fs5600

open Ownership Command

/-! ### Attributes -/

/-- The second state differs in one inode, which keeps its type, its size and its blocks. -/
structure Reset (fs fs' : Fs) (inum : Nat) (inode : Inode) : Prop where
  reach : (tree fs.disk).Reach inum
  agrees : (tree fs.disk).Agrees (tree fs'.disk)
  dir : S_ISDIR inode.mode = S_ISDIR (inodeAt fs.disk inum).mode
  size : inode.size = (inodeAt fs.disk inum).size
  ptrs : inode.ptrs = (inodeAt fs.disk inum).ptrs
  new : inodeAt fs'.disk inum = inode
  disk : KeepsBut (fun b => b = inum) fs.disk fs'.disk
  bitmap : fs'.bitmap = fs.bitmap
  reserved : ∀ b < 2, fs'.disk b = fs.disk b
  diskSize : fs'.diskSize = fs.diskSize

section Reset

variable {fs fs' : Fs} {inum : Nat} {inode : Inode}

theorem Reset.sound (h : Reset fs fs' inum inode) (hsound : Sound fs) : Sound fs' where
  exclusive := h.agrees.exclusive hsound.exclusive
  range b hb := h.diskSize ▸ hsound.range b (h.agrees.inUse_iff.mp hb)
  marked b hb := h.bitmap ▸ hsound.marked b (h.agrees.inUse_iff.mp hb)

theorem reset_of_write (h : Sound fs) (hreach : (tree fs.disk).Reach inum)
    (hdir : S_ISDIR inode.mode = S_ISDIR (inodeAt fs.disk inum).mode)
    (hsize : inode.size = (inodeAt fs.disk inum).size) (hptrs : inode.ptrs = (inodeAt fs.disk inum).ptrs) :
    Reset fs (fs.replay [.blockWrite inum inode.toBlock]) inum inode := by
  have hkeep : KeepsBut (fun b => b = inum) fs.disk (Function.update fs.disk inum inode.toBlock) :=
    fun b _ hne => Function.update_of_ne hne _ _
  have hrange := (h.range inum hreach.inUse).1
  have hwritten : Function.update fs.disk inum inode.toBlock inum = inode.toBlock := Function.update_self _ _ _
  refine ⟨hreach, agrees_of_inode h.exclusive hreach hwritten (hkeep.mono fun b hb => Or.inl hb) hdir hsize hptrs,
    hdir, hsize, hptrs, ?_, hkeep, rfl, fun b hb => Function.update_of_ne (by omega) _ _, rfl⟩
  calc Inode.ofBlock (Function.update fs.disk inum inode.toBlock inum) = Inode.ofBlock inode.toBlock := by rw [hwritten]
    _ = inode := Inode.ofBlock_toBlock _

/-- The bits of a mode that `fs_chmod` leaves are those of the file type. -/
theorem type_chmod (old new : UInt32) : ((old &&& S_IFMT) ||| (new &&& 0o777)) &&& S_IFMT = old &&& S_IFMT := by
  have hbits : (0o777 : UInt32) &&& S_IFMT = 0 := by decide
  have hdistrib : ((old &&& S_IFMT) ||| (new &&& 0o777)) &&& S_IFMT =
      (old &&& S_IFMT &&& S_IFMT) ||| (new &&& 0o777 &&& S_IFMT) := by
    rw [← UInt32.toBitVec_inj]
    simp only [UInt32.toBitVec_and, UInt32.toBitVec_or]
    exact BitVec.and_or_distrib_right
  calc ((old &&& S_IFMT) ||| (new &&& 0o777)) &&& S_IFMT
      = (old &&& S_IFMT &&& S_IFMT) ||| (new &&& 0o777 &&& S_IFMT) := hdistrib
    _ = (old &&& S_IFMT) ||| (new &&& 0) := by rw [UInt32.and_assoc, UInt32.and_self, UInt32.and_assoc, hbits]
    _ = old &&& S_IFMT := by rw [UInt32.and_zero, UInt32.or_zero]

theorem isDir_chmod (mode : UInt32) (inode : Inode) : S_ISDIR (inode.chmod mode).mode = S_ISDIR inode.mode := by
  rw [S_ISDIR, S_ISDIR, Inode.chmod, type_chmod]

theorem isReg_chmod (mode : UInt32) (inode : Inode) : S_ISREG (inode.chmod mode).mode = S_ISREG inode.mode := by
  rw [S_ISREG, S_ISREG, Inode.chmod, type_chmod]

end Reset

/-! ### Sizes -/

/-- The blocks of one file: its inode block and its data blocks. -/
def Owned (disk : Nat → Block) (inum b : Nat) : Prop := b = inum ∨ ∃ i, (tree disk).cell inum i = some b

/-- The second state differs in the inode and in the data of one file. -/
structure Resized (fs fs' : Fs) (inum : Nat) (inode : Inode) : Prop where
  reach : (tree fs.disk).Reach inum
  file : S_ISDIR (inodeAt fs.disk inum).mode = false
  mode : inode.mode = (inodeAt fs.disk inum).mode
  changes : (tree fs.disk).ChangesCells (tree fs'.disk) inum
  exclusive : (tree fs'.disk).Exclusive
  new : inodeAt fs'.disk inum = inode
  disk : KeepsBut (Owned fs.disk inum) fs.disk fs'.disk
  superblock : fs'.disk 0 = fs.disk 0
  diskSize : fs'.diskSize = fs.diskSize

section Resized

variable {fs fs' : Fs} {inum : Nat} {inode : Inode}

theorem Owned.isData (hreach : (tree fs.disk).Reach inum) (hfile : S_ISDIR (inodeAt fs.disk inum).mode = false)
    {b : Nat} (h : Owned fs.disk inum b) : b = inum ∨ IsData fs.disk b :=
  h.imp_right fun ⟨i, hcell⟩ => ⟨inum, i, hreach, hfile, hcell⟩

/-- The blocks of another object are not those of the file. -/
theorem Owned.eq_of_cell (hex : (tree fs.disk).Exclusive) (hreach : (tree fs.disk).Reach inum) {n b : Nat}
    {i : Fin numPtrs} (hn : (tree fs.disk).Reach n) (hcell : (tree fs.disk).cell n i = some b)
    (h : Owned fs.disk inum b) : n = inum := by
  rcases h with rfl | ⟨j, hcell'⟩
  · exact absurd rfl (hex.cell_ne_node hn hcell hreach)
  · cases hex _ _ _ (.cell hn hcell) (.cell hreach hcell')
    rfl

theorem Owned.eq_of_node (hex : (tree fs.disk).Exclusive) (hreach : (tree fs.disk).Reach inum) {n : Nat}
    (hn : (tree fs.disk).Reach n) (h : Owned fs.disk inum n) : n = inum :=
  h.elim id fun ⟨_, hcell⟩ => absurd rfl (hex.cell_ne_node hreach hcell hn)

theorem Resized.inodes (h : Resized fs fs' inum inode) (hex : (tree fs.disk).Exclusive) {n : Nat}
    (hn : (tree fs.disk).Reach n) (hne : n ≠ inum) : inodeAt fs'.disk n = inodeAt fs.disk n :=
  inodeAt_congr (h.disk n hn.inUse fun howned => hne (howned.eq_of_node hex h.reach hn))

/-- A new inode in its block, and changes to the blocks the file owned. -/
theorem resized_of_disk (h : Sound fs) (hreach : (tree fs.disk).Reach inum)
    (hfile : S_ISDIR (inodeAt fs.disk inum).mode = false) (hmode : inode.mode = (inodeAt fs.disk inum).mode)
    (hwritten : fs'.disk inum = inode.toBlock) (hkeep : KeepsBut (Owned fs.disk inum) fs.disk fs'.disk)
    (hcell : ∀ i : Fin numPtrs, i.val < inode.numBlocks →
      (tree fs.disk).cell inum i = some (inode.ptrs i).toNat ∨ ¬(tree fs.disk).InUse (inode.ptrs i).toNat)
    (hinj : ∀ i j : Fin numPtrs, i.val < inode.numBlocks → j.val < inode.numBlocks →
      (inode.ptrs i).toNat = (inode.ptrs j).toNat → i = j)
    (hsuper : fs'.disk 0 = fs.disk 0) (hsize : fs'.diskSize = fs.diskSize) : Resized fs fs' inum inode := by
  have hchanges : (tree fs.disk).ChangesCells (tree fs'.disk) inum :=
    changesCells_of_inode h.exclusive hreach hwritten (hkeep.mono fun b hb => hb.isData hreach hfile)
      (by rw [hmode]) fun hdir => by rw [hmode, hfile] at hdir; cases hdir
  have hcells : ∀ {i b}, (tree fs'.disk).cell inum i = some b → i.val < inode.numBlocks ∧ (inode.ptrs i).toNat = b := by
    intro i b hi
    rw [tree_cell_of_inode hwritten] at hi
    split at hi
    · exact ⟨‹_›, Option.some.inj hi⟩
    · cases hi
  refine ⟨hreach, hfile, hmode, hchanges, hchanges.exclusive h.exclusive ?_ ?_, ?_, hkeep, hsuper, hsize⟩
  · intro i b hi
    obtain ⟨hlt, rfl⟩ := hcells hi
    exact hcell i hlt
  · intro i j b hi hj
    exact hinj i j (hcells hi).1 (hcells hj).1 ((hcells hi).2.trans (hcells hj).2.symm)
  · rw [inodeAt, hwritten, Inode.ofBlock_toBlock]

end Resized

/-! ### `fs_truncate` -/

/-- The second state has one file emptied, and the bits of its blocks cleared. -/
structure Truncated (fs fs' : Fs) (inum : Nat) (time : UInt32) : Prop extends
    Resized fs fs' inum ((inodeAt fs.disk inum).truncate time) where
  bitmap : ∀ b, bitTest fs'.bitmap b = true ↔
    bitTest fs.bitmap b = true ∧ ¬∃ i, (tree fs.disk).cell inum i = some b
  saved : fs'.disk 1 = fs'.bitmap

section Truncated

variable {fs fs' : Fs} {inum : Nat} {time : UInt32}

theorem numBlocks_truncate (inode : Inode) : (inode.truncate time).numBlocks = 0 := by
  have hsize : (0 : Int32).toInt = 0 := by decide
  rw [Inode.numBlocks, Inode.truncate, hsize]
  rfl

/-- What is in use after a file is emptied is what was in use before, less its data blocks. -/
theorem Resized.inUse_truncate (h : Resized fs fs' inum ((inodeAt fs.disk inum).truncate time))
    (hex : (tree fs.disk).Exclusive) (b : Nat) :
    (tree fs'.disk).InUse b ↔ (tree fs.disk).InUse b ∧ ¬∃ i, (tree fs.disk).cell inum i = some b := by
  have hnone : ∀ i, (tree fs'.disk).cell inum i = none := fun i => by
    simp only [tree, h.new, numBlocks_truncate, Nat.not_lt_zero, if_false]
  constructor
  · rintro ⟨use, huse⟩
    rcases h.changes.uses_iff.mp huse with ⟨huse, hne⟩ | ⟨i, -, -, hi⟩
    · refine ⟨huse.inUse, ?_⟩
      rintro ⟨i, hcell⟩
      exact hne i (hex _ _ _ huse (.cell h.reach hcell))
    · rw [hnone] at hi
      cases hi
  · rintro ⟨⟨use, huse⟩, hfree⟩
    refine ⟨use, h.changes.uses_iff.mpr (Or.inl ⟨huse, ?_⟩)⟩
    rintro i rfl
    cases huse with
    | cell _ hcell => exact hfree ⟨i, hcell⟩

theorem mem_freed_iff (h : Sound fs) (hfits : Fits fs.disk) (hreach : (tree fs.disk).Reach inum) {b : Nat} :
    b ∈ freed (inodeAt fs.disk inum) (inodeAt fs.disk inum).numBlocks 0 ↔
      ∃ i, (tree fs.disk).cell inum i = some b := by
  rw [mem_freed]
  constructor
  · rintro ⟨-, i, -, hi, rfl⟩
    have hlt : i < numPtrs := by have := hfits inum hreach; omega
    exact ⟨⟨i, hlt⟩, tree_cell_eq_some.mpr ⟨by simpa using hi, by rw [Inode.block, dif_pos hlt]⟩⟩
  · rintro ⟨i, hcell⟩
    obtain ⟨hi, hb⟩ := tree_cell_eq_some.mp hcell
    refine ⟨ne_zero_of_inUse h (Graph.Uses.cell hreach hcell).inUse, i, Nat.zero_le _, by omega, ?_⟩
    rw [Inode.block_val, hb]

theorem resized_of_truncate (h : Sound fs) (hreach : (tree fs.disk).Reach inum)
    (hfile : S_ISDIR (inodeAt fs.disk inum).mode = false)
    (hwritten : fs'.disk inum = ((inodeAt fs.disk inum).truncate time).toBlock)
    (hkeep : KeepsBut (fun b => b = inum) fs.disk fs'.disk) (hsuper : fs'.disk 0 = fs.disk 0)
    (hsize : fs'.diskSize = fs.diskSize) : Resized fs fs' inum ((inodeAt fs.disk inum).truncate time) :=
  resized_of_disk h hreach hfile rfl hwritten (hkeep.mono fun _ hb => Or.inl hb)
    (fun i hi => by simp [numBlocks_truncate] at hi) (fun i j hi => by simp [numBlocks_truncate] at hi) hsuper hsize

theorem truncated_of_plan (h : Sound fs) (hfits : Fits fs.disk) (hreach : (tree fs.disk).Reach inum)
    (hfile : S_ISDIR (inodeAt fs.disk inum).mode = false) :
    Truncated fs (fs.replay ((freed (inodeAt fs.disk inum) (inodeAt fs.disk inum).numBlocks 0).map Event.bitClear ++
      [Event.blockWrite inum ((inodeAt fs.disk inum).truncate time).toBlock,
        .blockWrite 1 (clearAll fs.bitmap (freed (inodeAt fs.disk inum) (inodeAt fs.disk inum).numBlocks 0))]))
      inum time := by
  have hrange := (h.range inum hreach.inUse).1
  have hmem := fun b => @mem_freed_iff fs inum h hfits hreach b
  set bits := freed (inodeAt fs.disk inum) (inodeAt fs.disk inum).numBlocks 0
  set block := ((inodeAt fs.disk inum).truncate time).toBlock
  rw [Fs.replay_append, replay_bitClears]
  set fs' := Fs.replay { fs with bitmap := clearAll fs.bitmap bits }
    [.blockWrite inum block, .blockWrite 1 (clearAll fs.bitmap bits)] with hfs'
  have hdisk : fs'.disk = Function.update (Function.update fs.disk inum block) 1 (clearAll fs.bitmap bits) := rfl
  have hbitmap : fs'.bitmap = clearAll fs.bitmap bits := rfl
  refine ⟨resized_of_truncate h hreach hfile ?_ (fun b hb hne => ?_) ?_ rfl, fun b => ?_, ?_⟩
  · rw [hdisk, Function.update_of_ne (by omega), Function.update_self]
  · have hb2 := (h.range b hb).1
    rw [hdisk, Function.update_of_ne (by omega), Function.update_of_ne hne]
  · rw [hdisk, Function.update_of_ne (by omega), Function.update_of_ne (by omega)]
  · rw [hbitmap, bitTest_clearAll, ← hmem, Bool.and_eq_true, Bool.not_eq_true', decide_eq_false_iff_not, and_comm]
  · rw [hdisk, hbitmap, Function.update_self]

end Truncated

/-! ### `fs_write` -/

/-- The second state has bytes of one file written, with blocks claimed for it where it grew. -/
structure Written (fs fs' : Fs) (inum : Nat) (buf : List UInt8) (offset : Nat) (claimed : List Nat)
    (inode : Inode) : Prop extends Resized fs fs' inum inode where
  claimable : Claimable fs claimed
  inUse_iff : ∀ b, (tree fs'.disk).InUse b ↔ (tree fs.disk).InUse b ∨ b ∈ claimed
  bitmap : fs'.bitmap = setAll fs.bitmap claimed
  blocks : inode.numBlocks = (inodeAt fs.disk inum).numBlocks + claimed.length
  fits : inode.numBlocks ≤ numPtrs
  size : inode.size.toInt = max (inodeAt fs.disk inum).size.toInt.toNat (offset + buf.length)
  bytes : ∀ x < inode.size.toInt.toNat, inode.fileByte fs'.disk x =
    if offset ≤ x ∧ x < offset + buf.length then buf.getD (x - offset) 0
    else (inodeAt fs.disk inum).fileByte fs.disk x

section Written

variable {env : Env} {fs fs' : Fs} {path : CStr} {buf : List UInt8} {offset inum : Nat} {claimed : List Nat}
  {inode : Inode}

theorem Written.bitTest (h : Written fs fs' inum buf offset claimed inode) (i : Nat) :
    bitTest fs'.bitmap i = (decide (i ∈ claimed) || bitTest fs.bitmap i) := by
  rw [h.bitmap, bitTest_setAll fun b hb => (h.claimable.range b hb).2.2]

theorem Written.sound (h : Written fs fs' inum buf offset claimed inode) (hsound : Sound fs) : Sound fs' where
  exclusive := h.exclusive
  range b hb := by
    rw [h.diskSize]
    rcases (h.inUse_iff b).mp hb with hb | hb
    · exact hsound.range b hb
    · exact ⟨(h.claimable.range b hb).1, (h.claimable.range b hb).2.1⟩
  marked b hb := by
    rw [h.bitTest]
    rcases (h.inUse_iff b).mp hb with hb | hb
    · rw [hsound.marked b hb, Bool.or_true]
    · rw [decide_eq_true hb, Bool.true_or]

/-- The uses of blocks in a file that grew: the old ones, and the claimed blocks. -/
theorem inUse_of_grow (hreach : (tree fs.disk).Reach inum) (hclaim : Claimable fs claimed)
    (hfits : (inodeAt fs.disk inum).numBlocks + claimed.length ≤ numPtrs)
    (hresized : Resized fs fs' inum inode)
    (hblocks : inode.numBlocks = (inodeAt fs.disk inum).numBlocks + claimed.length)
    (hptr : ∀ q, inode.block q = ((inodeAt fs.disk inum).setPtrs (inodeAt fs.disk inum).numBlocks claimed).block q)
    (b : Nat) : (tree fs'.disk).InUse b ↔ (tree fs.disk).InUse b ∨ b ∈ claimed := by
  have hcell : ∀ {i b}, (tree fs'.disk).cell inum i = some b ↔ i.val < inode.numBlocks ∧ inode.block i = b := by
    intro i b
    rw [tree_cell_eq_some, hresized.new, Inode.block_val]
  constructor
  · rintro ⟨use, huse⟩
    rcases hresized.changes.uses_iff.mp huse with ⟨huse, -⟩ | ⟨i, -, -, hi⟩
    · exact Or.inl huse.inUse
    · obtain ⟨hlt, rfl⟩ := hcell.mp hi
      rw [hptr]
      rcases block_setPtrs_cases hfits hclaim (hblocks ▸ hlt) with ⟨j, -, -, hj⟩ | ⟨k, hk, -, hb⟩
      · exact Or.inl (Graph.Uses.cell hreach hj).inUse
      · exact Or.inr (hb ▸ List.getElem_mem hk)
  · have hnew : ∀ i : Fin numPtrs, i.val < inode.numBlocks → (tree fs'.disk).InUse (inode.block i) := fun i hi =>
      (Graph.Uses.cell (hresized.changes.reach_iff.mpr hreach) (hcell.mpr ⟨hi, rfl⟩)).inUse
    rintro (⟨use, huse⟩ | hb)
    · by_cases hown : ∃ i, use = .cell inum i
      · obtain ⟨i, rfl⟩ := hown
        cases huse with
        | cell _ hi =>
            obtain ⟨hlt, rfl⟩ := tree_cell_eq_some.mp hi
            have hsame := hptr i
            rw [Inode.block_setPtrs_of_lt _ _ hlt, Inode.block_val (inodeAt fs.disk inum)] at hsame
            rw [← hsame]
            exact hnew i (by omega)
      · exact ⟨use, hresized.changes.uses_iff.mpr (Or.inl ⟨huse, fun i heq => hown ⟨i, heq⟩⟩)⟩
    · obtain ⟨k, hk, rfl⟩ := List.getElem_of_mem hb
      have hlt : (inodeAt fs.disk inum).numBlocks + k < numPtrs := by omega
      have hin := hnew ⟨_, hlt⟩ (by rw [hblocks]; exact Nat.add_lt_add_left hk _)
      rwa [hptr, Inode.block_setPtrs hk hfits fun b hb => (hclaim.range b hb).2.2] at hin

/-- The inode write of `fs_write` takes effect: from then on the tree has the new data. -/
theorem written_of_disk (h : Sound fs) (hat : WriteAt env.limits fs path buf offset inum claimed)
    (hlen : offset + buf.length < 2 ^ 31)
    (hblocks : (offset + buf.length + 4095) / 4096 = (inodeAt fs.disk inum).numBlocks + claimed.length)
    (hfits : (inodeAt fs.disk inum).numBlocks + claimed.length ≤ numPtrs) {data : List Event}
    (hwrites : WritesTo (fun b => ∃ q, Touches offset (offset + buf.length) q ∧
      ((inodeAt fs.disk inum).setPtrs (inodeAt fs.disk inum).numBlocks claimed).block q = b) data)
    (hbytes : ∀ q, Touches offset (offset + buf.length) q → ∀ x < fsBlockSize,
      ((fs.replay data).disk
        (((inodeAt fs.disk inum).setPtrs (inodeAt fs.disk inum).numBlocks claimed).block q)).byte x =
      patched (fs.disk (((inodeAt fs.disk inum).setPtrs (inodeAt fs.disk inum).numBlocks claimed).block q))
        q buf offset 0 x)
    (hbitmap : fs'.bitmap = setAll fs.bitmap claimed) (hsize : fs'.diskSize = fs.diskSize)
    (hinode : fs'.disk inum = ((inodeAt fs.disk inum).grow claimed (offset + buf.length) env.time).toBlock)
    (hrest : ∀ b, b ≠ inum → b ≠ 1 → fs'.disk b = (fs.replay data).disk b) :
    Written fs fs' inum buf offset claimed ((inodeAt fs.disk inum).grow claimed (offset + buf.length) env.time) := by
  have hreach := (reach_of_translateIn hat.translate).1
  have hgrown := @Inode.numBlocks_grow (inodeAt fs.disk inum) claimed _ env.time hlen hblocks
  have hcases := fun {q} => @block_setPtrs_cases fs inum claimed hfits hat.claimable q
  have hinj := fun {q q'} => @block_setPtrs_inj fs inum claimed h hreach hfits hat.claimable q q'
  set inode' := (inodeAt fs.disk inum).grow claimed (offset + buf.length) env.time with hinode'
  have hblock : ∀ q, inode'.block q =
    ((inodeAt fs.disk inum).setPtrs (inodeAt fs.disk inum).numBlocks claimed).block q := fun q => rfl
  simp only [← hblock] at hwrites hbytes hcases hinj
  have htouch : ∀ q, Touches offset (offset + buf.length) q →
      q < (inodeAt fs.disk inum).numBlocks + claimed.length := fun q hq => hblocks ▸ lt_of_touches hq
  -- a block in use that the loop writes is one of the file
  have hwritten : ∀ b, (tree fs.disk).InUse b →
      (∃ q, Touches offset (offset + buf.length) q ∧ inode'.block q = b) → ∃ i, (tree fs.disk).cell inum i = some b := by
    rintro b hb ⟨q, hq, rfl⟩
    rcases hcases (htouch q hq) with ⟨i, -, -, hi⟩ | ⟨k, hk, -, heq⟩
    · exact ⟨i, hi⟩
    · exact absurd hb (heq ▸ h.not_inUse (hat.claimable.clear _ (List.getElem_mem hk)))
  have hkeep : KeepsBut (Owned fs.disk inum) fs.disk fs'.disk := by
    intro b hb hnot
    have hb2 := (h.range b hb).1
    rw [hrest b (fun heq => hnot (Or.inl heq)) (by omega)]
    exact hwrites.disk fun hex => hnot (Or.inr (hwritten b hb hex))
  have hsuper : fs'.disk 0 = fs.disk 0 := by
    have hinum := (h.range inum hreach.inUse).1
    rw [hrest 0 (by omega) (by omega)]
    apply hwrites.disk
    rintro ⟨q, hq, hzero⟩
    rcases hcases (htouch q hq) with ⟨i, -, -, hi⟩ | ⟨k, hk, -, heq⟩
    · rw [hzero] at hi
      exact ne_zero_of_inUse h (Graph.Uses.cell hreach hi).inUse rfl
    · have := (hat.claimable.range _ (List.getElem_mem hk)).1
      omega
  have hresized : Resized fs fs' inum inode' := by
    refine resized_of_disk h hreach hat.file rfl hinode hkeep (fun i hi => ?_) (fun i j hi hj heq => ?_) hsuper hsize
    · rw [← Inode.block_val]
      rcases hcases (hgrown ▸ hi) with ⟨j, hj, -, hcell⟩ | ⟨k, hk, -, heq⟩
      · exact Or.inl (Fin.ext hj ▸ hcell)
      · exact Or.inr (heq ▸ h.not_inUse (hat.claimable.clear _ (List.getElem_mem hk)))
    · rw [← Inode.block_val, ← Inode.block_val] at heq
      exact Fin.ext (hinj (hgrown ▸ hi) (hgrown ▸ hj) heq)
  have hnewSize : inode'.size.toInt = max (inodeAt fs.disk inum).size.toInt.toNat (offset + buf.length) :=
    Inode.size_grow hlen
  refine ⟨hresized, hat.claimable, inUse_of_grow hreach hat.claimable hfits hresized hgrown hblock, hbitmap,
    hgrown, hgrown.trans_le hfits, hnewSize, fun x hx => ?_⟩
  set q := x / fsBlockSize with hq
  have hlt : q < (inodeAt fs.disk inum).numBlocks + claimed.length := by
    rw [← hgrown, Inode.numBlocks, hq]
    simp only [fsBlockSize]
    omega
  have hplace : fsBlockSize * q + x % fsBlockSize = x := Nat.div_add_mod x fsBlockSize
  have hne : inode'.block q ≠ inum ∧ inode'.block q ≠ 1 := by
    rcases hcases hlt with ⟨i, -, -, hi⟩ | ⟨k, hk, -, heq⟩
    · have hrange := (h.range _ (Graph.Uses.cell hreach hi).inUse).1
      exact ⟨h.exclusive.cell_ne_node hreach hi hreach, by omega⟩
    · have hrange := (hat.claimable.range _ (List.getElem_mem hk)).1
      refine ⟨fun hinum => ?_, by omega⟩
      exact h.not_inUse (hat.claimable.clear _ (List.getElem_mem hk)) (heq ▸ hinum ▸ hreach.inUse)
  -- outside of the range that is written the file has the byte it had
  have hold : ¬(offset ≤ x ∧ x < offset + buf.length) →
      (fs.disk (inode'.block q)).byte (x % fsBlockSize) = (inodeAt fs.disk inum).fileByte fs.disk x := by
    intro hout
    have hle := hat.offset_le
    have hlt' : q < (inodeAt fs.disk inum).numBlocks := by
      rw [Inode.numBlocks, hq]
      simp only [fsBlockSize]
      omega
    rw [hblock, Inode.block_setPtrs_of_lt _ _ hlt', Inode.fileByte]
  rw [Inode.fileByte, ← hq, hrest _ hne.1 hne.2]
  by_cases htouches : Touches offset (offset + buf.length) q
  · rw [hbytes q htouches _ (Nat.mod_lt _ (by decide)), patched, hplace, Nat.add_zero]
    split
    · rfl
    · exact hold ‹_›
  · have hout : ¬(offset ≤ x ∧ x < offset + buf.length) := fun hin => htouches ⟨x, hin.1, hin.2, rfl⟩
    rw [if_neg hout, ← hold hout]
    refine congrArg (fun block : Block => block.byte (x % fsBlockSize)) (hwrites.disk ?_)
    rintro ⟨q', hq', heq⟩
    exact htouches (hinj (htouch q' hq') hlt heq ▸ hq')

/-- The events of `fs_write` up to its inode write. -/
theorem written_of_plan (h : Sound fs) (hat : WriteAt env.limits fs path buf offset inum claimed)
    (hlen : offset + buf.length < 2 ^ 31)
    (hblocks : (offset + buf.length + 4095) / 4096 = (inodeAt fs.disk inum).numBlocks + claimed.length)
    (hfits : (inodeAt fs.disk inum).numBlocks + claimed.length ≤ numPtrs) {data : List Event}
    (hwrites : WritesTo (fun b => ∃ q, Touches offset (offset + buf.length) q ∧
      ((inodeAt fs.disk inum).setPtrs (inodeAt fs.disk inum).numBlocks claimed).block q = b) data)
    (hbytes : ∀ q, Touches offset (offset + buf.length) q → ∀ x < fsBlockSize,
      ((fs.replay data).disk
        (((inodeAt fs.disk inum).setPtrs (inodeAt fs.disk inum).numBlocks claimed).block q)).byte x =
      patched (fs.disk (((inodeAt fs.disk inum).setPtrs (inodeAt fs.disk inum).numBlocks claimed).block q))
        q buf offset 0 x) :
    (∀ e ∈ claimed.map Event.bitSet ++ data, Silent fs.disk (IsData fs.disk) e ∧ e.Spares) ∧
      (∀ map, .blockWrite 1 map ∉ claimed.map Event.bitSet ++ data) ∧
      Written fs (fs.replay (claimed.map Event.bitSet ++ data ++
        [Event.blockWrite inum ((inodeAt fs.disk inum).grow claimed (offset + buf.length) env.time).toBlock]))
        inum buf offset claimed ((inodeAt fs.disk inum).grow claimed (offset + buf.length) env.time) ∧
      (fs.replay (claimed.map Event.bitSet ++ data ++
        [Event.blockWrite inum ((inodeAt fs.disk inum).grow claimed (offset + buf.length) env.time).toBlock])).disk 1 =
        fs.disk 1 := by
  have hreach := (reach_of_translateIn hat.translate).1
  have hrange := (h.range _ hreach.inUse).1
  set block := ((inodeAt fs.disk inum).grow claimed (offset + buf.length) env.time).toBlock with hblock
  set first := claimed.map Event.bitSet ++ data with hfirst
  have hdisk : (fs.replay first).disk = (fs.replay data).disk := by
    rw [hfirst, Fs.replay_append, replay_bitSets]
    exact Fs.replay_disk_congr (by rfl) data
  have hmid : fs.replay (first ++ [Event.blockWrite inum block]) =
      { fs.replay first with disk := Function.update (fs.replay data).disk inum block } := by
    rw [Fs.replay_append, Fs.replay_cons, Fs.replay_nil, Fs.apply, hdisk]
  have hbitmap : (fs.replay first).bitmap = setAll fs.bitmap claimed := by
    rw [hfirst, Fs.replay_append, hwrites.bitmap, replay_bitSets]
  have hsize : (fs.replay first).diskSize = fs.diskSize := by
    rw [hfirst, Fs.replay_append, hwrites.diskSize, replay_bitSets]
  have htarget : ∀ b, (∃ q, Touches offset (offset + buf.length) q ∧
      ((inodeAt fs.disk inum).setPtrs (inodeAt fs.disk inum).numBlocks claimed).block q = b) →
      2 ≤ b ∧ ((tree fs.disk).InUse b → IsData fs.disk b) := by
    rintro b ⟨q, hq, rfl⟩
    rcases block_setPtrs_cases hfits hat.claimable (hblocks ▸ lt_of_touches hq) with
      ⟨i, -, -, hi⟩ | ⟨k, hk, -, heq⟩
    · exact ⟨(h.range _ (Graph.Uses.cell hreach hi).inUse).1, fun _ => ⟨inum, i, hreach, hat.file, hi⟩⟩
    · have hmem := List.getElem_mem hk
      rw [heq]
      exact ⟨(hat.claimable.range _ hmem).1, fun huse => absurd huse (h.not_inUse (hat.claimable.clear _ hmem))⟩
  refine ⟨fun e he => ?_, fun map hmap => ?_, ?_, ?_⟩
  · rcases List.mem_append.mp he with he | he
    · obtain ⟨b, hb, rfl⟩ := List.mem_map.mp he
      exact ⟨(hat.claimable.range b hb).2.2, trivial⟩
    · obtain ⟨b, contents, hb, rfl⟩ := hwrites e he
      exact ⟨(htarget b hb).2, trivial⟩
  · rcases List.mem_append.mp hmap with hmap | hmap
    · simp at hmap
    · obtain ⟨b, contents, hb, heq⟩ := hwrites _ hmap
      obtain ⟨rfl, -⟩ := Event.blockWrite.inj heq
      have := (htarget 1 hb).1
      omega
  · exact written_of_disk h hat hlen hblocks hfits hwrites hbytes
      (show (fs.replay (first ++ [Event.blockWrite inum block])).bitmap = _ by rw [hmid]; exact hbitmap)
      (by rw [hmid]; exact hsize) (by rw [hmid]; exact Function.update_self _ _ _)
      (fun b hb _ => by rw [hmid]; exact Function.update_of_ne hb _ _)
  · rw [hmid]
    refine (Function.update_of_ne (by omega) _ _).trans (hwrites.disk fun hex => ?_)
    have := (htarget 1 hex).1
    omega

end Written

end Fs5600
