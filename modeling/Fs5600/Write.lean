import Fs5600.Update

/-! What `fs_write` does in a sound file system: it claims blocks, writes the data, writes the inode, and
writes the bitmap where the file grew. -/

namespace Fs5600

open Ownership Command

def Inode.grow (inode : Inode) (claimed : List Nat) (newSize : Nat) (time : UInt32) : Inode :=
  { inode.setPtrs inode.numBlocks claimed with
    size := Int32.ofNat (max inode.size.toInt.toNat newSize)
    mtime := time }

section Grow

variable {inode : Inode} {claimed : List Nat} {newSize : Nat} {time : UInt32}

theorem Inode.size_grow (hsize : newSize < 2 ^ 31) :
    (inode.grow claimed newSize time).size.toInt = max inode.size.toInt.toNat newSize := by
  have hle := inode.size.toInt_le
  have hmax : Int32.maxValue.toInt = 2147483647 := by decide
  rw [grow, Int32.toInt_ofNat_of_lt (by omega)]

/-- The size and the blocks of a file that grew fit together. -/
theorem Inode.numBlocks_grow (hsize : newSize < 2 ^ 31)
    (hblocks : (newSize + 4095) / 4096 = inode.numBlocks + claimed.length) :
    (inode.grow claimed newSize time).numBlocks = inode.numBlocks + claimed.length := by
  rw [numBlocks, size_grow hsize]
  rw [numBlocks] at hblocks ⊢
  simp only [fsBlockSize] at hblocks ⊢
  omega

end Grow

/-- What a write to a file needs, and the blocks it claims. -/
structure WriteAt (limits : Limits) (fs : Fs) (path : CStr) (buf : List UInt8) (offset inum : Nat)
    (claimed : List Nat) : Prop where
  translate : translateIn limits fs.disk path = .ok (inum, inodeAt fs.disk inum)
  file : S_ISDIR (inodeAt fs.disk inum).mode = false
  offset_le : (offset : Int) ≤ (inodeAt fs.disk inum).size.toInt
  claimable : Claimable fs claimed

/-- The number of blocks that `fs_write` tries to claim. -/
def blocksNeeded (inode : Inode) (newSize : Nat) : Nat :=
  ((newSize + 4095) / 4096 + 2 ^ 32 - inode.numBlocks) % 2 ^ 32

/-- How `fs_write` ends: early, with some blocks claimed in memory only, or with the data, the inode and,
where the file grew, the bitmap written. -/
inductive Write (env : Env) (fs : Fs) (path : CStr) (buf : List UInt8) (offset : Nat) :
    Except Stop Int → List Event → Prop
  | stops (reason : Stop) (hnot : ∀ inum claimed, ¬WriteAt env.limits fs path buf offset inum claimed) :
      Write env fs path buf offset (.error reason) []
  | noSpace {inum : Nat} {claimed : List Nat} {reason : Stop}
      (hat : WriteAt env.limits fs path buf offset inum claimed)
      (halloc : Allocates fs (inodeAt fs.disk inum) (inodeAt fs.disk inum).numBlocks
        (blocksNeeded (inodeAt fs.disk inum) (offset + buf.length)) claimed (.error reason)) :
      Write env fs path buf offset (.error reason) (claimed.map .bitSet)
  | done {inum : Nat} {claimed : List Nat} {data : List Event}
      (hat : WriteAt env.limits fs path buf offset inum claimed)
      (hblocks : (offset + buf.length + 4095) / 4096 = (inodeAt fs.disk inum).numBlocks + claimed.length)
      (hfits : (inodeAt fs.disk inum).numBlocks + claimed.length ≤ numPtrs)
      (hwrites : WritesTo (fun b => ∃ q, Touches offset (offset + buf.length) q ∧
        ((inodeAt fs.disk inum).setPtrs (inodeAt fs.disk inum).numBlocks claimed).block q = b) data)
      (hbytes : ∀ q, Touches offset (offset + buf.length) q → ∀ x < fsBlockSize,
        ((fs.replay data).disk
          (((inodeAt fs.disk inum).setPtrs (inodeAt fs.disk inum).numBlocks claimed).block q)).byte x =
        patched (fs.disk (((inodeAt fs.disk inum).setPtrs (inodeAt fs.disk inum).numBlocks claimed).block q))
          q buf offset 0 x) :
      Write env fs path buf offset (.ok buf.length) (claimed.map .bitSet ++ (data ++
        (.blockWrite inum ((inodeAt fs.disk inum).grow claimed (offset + buf.length) env.time).toBlock ::
          if claimed = [] then [] else [.blockWrite 1 (setAll fs.bitmap claimed)])))

section Blocks

variable {fs : Fs} {inum : Nat} {claimed : List Nat}

/-- A block of the file that grew is one of its old blocks or a claimed one. -/
theorem block_setPtrs_cases (hfits : (inodeAt fs.disk inum).numBlocks + claimed.length ≤ numPtrs)
    (hclaim : Claimable fs claimed) {q : Nat} (hq : q < (inodeAt fs.disk inum).numBlocks + claimed.length) :
    (∃ i : Fin numPtrs, i.val = q ∧ q < (inodeAt fs.disk inum).numBlocks ∧ (tree fs.disk).cell inum i =
        some (((inodeAt fs.disk inum).setPtrs (inodeAt fs.disk inum).numBlocks claimed).block q)) ∨
      ∃ k, ∃ hk : k < claimed.length, q = (inodeAt fs.disk inum).numBlocks + k ∧
        ((inodeAt fs.disk inum).setPtrs (inodeAt fs.disk inum).numBlocks claimed).block q = claimed[k] := by
  by_cases hold : q < (inodeAt fs.disk inum).numBlocks
  · refine Or.inl ⟨⟨q, by omega⟩, rfl, hold, tree_cell_eq_some.mpr ⟨hold, ?_⟩⟩
    rw [Inode.block_setPtrs_of_lt _ _ hold, Inode.block, dif_pos]
  · obtain ⟨k, rfl⟩ := Nat.exists_eq_add_of_le (not_lt.mp hold)
    have hk : k < claimed.length := by omega
    exact Or.inr ⟨k, hk, rfl, Inode.block_setPtrs hk hfits fun b hb => (hclaim.range b hb).2.2⟩

/-- Different indices of the file that grew have different blocks. -/
theorem block_setPtrs_inj (h : Sound fs) (hreach : (tree fs.disk).Reach inum)
    (hfits : (inodeAt fs.disk inum).numBlocks + claimed.length ≤ numPtrs) (hclaim : Claimable fs claimed)
    {q q' : Nat} (hq : q < (inodeAt fs.disk inum).numBlocks + claimed.length)
    (hq' : q' < (inodeAt fs.disk inum).numBlocks + claimed.length)
    (heq : ((inodeAt fs.disk inum).setPtrs (inodeAt fs.disk inum).numBlocks claimed).block q =
      ((inodeAt fs.disk inum).setPtrs (inodeAt fs.disk inum).numBlocks claimed).block q') : q = q' := by
  have hfresh : ∀ k, ∀ hk : k < claimed.length, ¬(tree fs.disk).InUse claimed[k] := fun k hk =>
    h.not_inUse (hclaim.clear _ (List.getElem_mem hk))
  rcases block_setPtrs_cases hfits hclaim hq with ⟨i, rfl, -, hcell⟩ | ⟨k, hk, rfl, hblock⟩ <;>
    rcases block_setPtrs_cases hfits hclaim hq' with ⟨i', rfl, -, hcell'⟩ | ⟨k', hk', rfl, hblock'⟩
  · rw [heq] at hcell
    cases h.exclusive _ _ _ (.cell hreach hcell) (.cell hreach hcell')
    rfl
  · rw [heq, hblock'] at hcell
    exact absurd (Graph.Uses.cell hreach hcell).inUse (hfresh k' hk')
  · rw [← heq, hblock] at hcell'
    exact absurd (Graph.Uses.cell hreach hcell').inUse (hfresh k hk)
  · have hkk : claimed[k] = claimed[k'] := by rw [← hblock, heq, hblock']
    rw [(List.Nodup.getElem_inj_iff hclaim.nodup).mp hkk]

theorem lt_of_touches {offset len q : Nat} (h : Touches offset (offset + len) q) :
    q < (offset + len + 4095) / 4096 := by
  obtain ⟨x, -, hlt, rfl⟩ := h
  simp only [fsBlockSize]
  omega

end Blocks

/-- On a disk of at most 1020 blocks the pointers of an inode are enough for its own blocks and all that can
be claimed. -/
theorem Claimable.room {fs : Fs} {inum : Nat} {claimed : List Nat} (hclaim : Claimable fs claimed) (h : Sound fs)
    (hsize : fs.diskSize ≤ 1020) (hreach : (tree fs.disk).Reach inum) :
    (inodeAt fs.disk inum).numBlocks + claimed.length ≤ numPtrs := by
  have hcount := h.numBlocks_lt hsize hreach
  have hcell : ∀ i < (inodeAt fs.disk inum).numBlocks, ∃ k : Fin numPtrs, k.val = i ∧
      (tree fs.disk).cell inum k = some ((inodeAt fs.disk inum).block i) := fun i hi => by
    have hlt : i < numPtrs :=
      calc i < (inodeAt fs.disk inum).numBlocks := hi
        _ < 1018 := hcount
        _ < numPtrs := by decide
    exact ⟨⟨i, hlt⟩, rfl, tree_cell_eq_some.mpr ⟨hi, by rw [Inode.block, dif_pos hlt]⟩⟩
  set cells := (Finset.range (inodeAt fs.disk inum).numBlocks).image (inodeAt fs.disk inum).block with hcells
  have hcard : cells.card = (inodeAt fs.disk inum).numBlocks := by
    rw [hcells, Finset.card_image_of_injOn, Finset.card_range]
    intro i hi j hj heq
    obtain ⟨k, rfl, hk⟩ := hcell i (Finset.mem_range.mp hi)
    obtain ⟨l, rfl, hl⟩ := hcell j (Finset.mem_range.mp hj)
    rw [heq] at hk
    cases h.exclusive _ _ _ (.cell hreach hk) (.cell hreach hl)
    rfl
  have hinUse : ∀ b ∈ cells, (tree fs.disk).InUse b := by
    intro b hb
    obtain ⟨i, hi, rfl⟩ := Finset.mem_image.mp hb
    obtain ⟨k, -, hk⟩ := hcell i (Finset.mem_range.mp hi)
    exact (Graph.Uses.cell hreach hk).inUse
  have hdisjoint : Disjoint cells claimed.toFinset := Finset.disjoint_left.mpr fun b hb hb' =>
    h.not_inUse (hclaim.clear b (List.mem_toFinset.mp hb')) (hinUse b hb)
  have hsub : cells ∪ claimed.toFinset ⊆ Finset.Ico 2 1020 := by
    intro b hb
    rw [Finset.mem_Ico]
    rcases Finset.mem_union.mp hb with hb | hb
    · have hrange := h.range b (hinUse b hb)
      omega
    · have hrange := hclaim.range b (List.mem_toFinset.mp hb)
      omega
  calc (inodeAt fs.disk inum).numBlocks + claimed.length
      = (cells ∪ claimed.toFinset).card := by
        rw [Finset.card_union_of_disjoint hdisjoint, hcard, List.toFinset_card_of_nodup hclaim.nodup]
    _ ≤ (Finset.Ico 2 1020).card := Finset.card_le_card hsub
    _ ≤ numPtrs := by
        rw [Nat.card_Ico]
        decide

/-- The part of `fs_write` after the blocks are claimed. -/
theorem acts_write_data {env : Env} {fs : Fs} (h : Sound fs) {path : CStr} {buf : List UInt8}
    {offset inum : Nat} {claimed : List Nat} (hreach : (tree fs.disk).Reach inum)
    (hat : WriteAt env.limits fs path buf offset inum claimed) (hlen : offset + buf.length < 2 ^ 31)
    (hblocks : (offset + buf.length + 4095) / 4096 = (inodeAt fs.disk inum).numBlocks + claimed.length)
    (hroom : (inodeAt fs.disk inum).numBlocks + claimed.length ≤ numPtrs) {alloc : Call Inode}
    (halloc : Does env fs alloc (.ok ((inodeAt fs.disk inum).setPtrs (inodeAt fs.disk inum).numBlocks claimed))
      (claimed.map .bitSet)) :
    Acts env fs (do
      let inode ← alloc
      let bytesWritten ← writeLoop inode buf offset buf.length 0
      blockWrite inum
        { inode with
          size := Int32.ofNat (max inode.size.toInt.toNat (offset + buf.length))
          mtime := (← Command.ask).time : Inode }.toBlock
      if (inodeAt fs.disk inum).numBlocks < (offset + buf.length + 4095) / 4096 then
        bitmapWrite
        pure (Int32.ofNat bytesWritten).toInt
      else
        pure (Int32.ofNat bytesWritten).toInt) (Write env fs path buf offset) := by
  have htouch : ∀ q, Touches (offset + 0) (offset + buf.length) q →
      q < (inodeAt fs.disk inum).numBlocks + claimed.length := fun q hq => by
    rw [← hblocks]
    exact lt_of_touches hq
  have hwritable : ∀ q, Touches (offset + 0) (offset + buf.length) q → q < numPtrs ∧
      Writable (((inodeAt fs.disk inum).setPtrs (inodeAt fs.disk inum).numBlocks claimed).block q) := by
    refine fun q hq => ⟨(htouch q hq).trans_le hroom, ?_⟩
    rcases block_setPtrs_cases hroom hat.claimable (htouch q hq) with ⟨i, -, -, hcell⟩ | ⟨k, hk, -, hblock⟩
    · exact h.writable (Graph.Uses.cell hreach hcell).inUse
    · rw [hblock]
      have hrange := hat.claimable.range _ (List.getElem_mem hk)
      exact ⟨by omega, hrange.2.2.trans (by decide)⟩
  obtain ⟨data, hdata, hwrites, hbytes⟩ : ∃ data, Does env (fs.replay (claimed.map .bitSet))
      (writeLoop _ buf offset buf.length 0) (.ok buf.length) data ∧ _ ∧ _ :=
    does_writeLoop (fs.replay (claimed.map .bitSet)) (Nat.le_of_eq (Nat.zero_add _).symm) (Nat.zero_le _) hwritable
      fun q q' hq hq' => block_setPtrs_inj h hreach hroom hat.claimable (htouch q hq) (htouch q' hq')
  simp only [replay_bitSets, Nat.add_zero] at hwrites hbytes
  have hreturn : (Int32.ofNat buf.length).toInt = buf.length := Int32.toInt_ofNat_of_lt (by omega)
  have hbitmap : ((fs.replay (claimed.map .bitSet)).replay data).bitmap = setAll fs.bitmap claimed := by
    rw [hwrites.bitmap, replay_bitSets]
  have hend : Does env (((fs.replay (claimed.map .bitSet)).replay data).replay
        [.blockWrite inum ((inodeAt fs.disk inum).grow claimed (offset + buf.length) env.time).toBlock])
      (if (inodeAt fs.disk inum).numBlocks < (offset + buf.length + 4095) / 4096 then do
          bitmapWrite
          pure (Int32.ofNat buf.length).toInt
        else pure (Int32.ofNat buf.length).toInt) (.ok buf.length)
      (if claimed = [] then [] else [.blockWrite 1 (setAll fs.bitmap claimed)]) := by
    rw [hblocks, hreturn]
    by_cases hnil : claimed = []
    · rw [if_pos hnil, if_neg (by simp [hnil])]
      exact Follows.pure _
    · rw [if_neg hnil, if_pos (by have := List.length_pos_iff.mpr hnil; omega), ← hbitmap]
      exact does_bind_read does_bitmapWrite (Follows.pure _)
  exact ⟨_, _, does_bind halloc (does_bind hdata (does_read_bind Follows.ask
    (does_bind (does_blockWrite (h.writable hreach.inUse) _) hend))),
    .done hat hblocks hroom hwrites fun q hq x hx => by
      have hdisk : (fs.replay data).disk = (Fs.replay ⟨fs.diskSize, setAll fs.bitmap claimed, fs.disk⟩ data).disk :=
        Fs.replay_disk_congr (by rfl) data
      rw [← hbytes q hq x hx, hdisk]⟩

theorem acts_fsWrite {env : Env} {fs : Fs} (h : Sound fs) (hfits : Fits fs.disk) (path : CStr)
    (buf : List UInt8) (offset : Nat) (hlen : offset + buf.length < 2 ^ 31) :
    Acts env fs (fsWrite path buf offset) (Write env fs path buf offset) := by
  refine .read (reads_translate path) (fun reason hreason => .stops reason fun inum claimed hat => ?_) ?_
  · cases hat.translate.symm.trans hreason
  rintro ⟨inum, inode⟩ htranslate
  obtain ⟨hreach, rfl⟩ := reach_of_translateIn htranslate
  have hsame : ∀ {inum' claimed}, WriteAt env.limits fs path buf offset inum' claimed → inum' = inum := fun hat =>
    (Prod.mk.inj (Except.ok.inj (hat.translate.symm.trans htranslate))).1
  dsimp only
  split
  · rename_i hmode
    refine .stop (.stops _ fun inum' claimed hat => ?_)
    have hfile := hat.file
    rw [hsame hat, hmode] at hfile
    cases hfile
  · rename_i hmode
    split
    · rename_i hoffset
      refine .stop (.stops _ fun inum' claimed hat => ?_)
      have hle := hat.offset_le
      rw [hsame hat] at hle
      omega
    · rename_i hoffset
      have hnewSize : (offset + buf.length) % 2 ^ 64 = offset + buf.length :=
        Nat.mod_eq_of_lt (hlen.trans (by decide))
      have hnewBlocks : blocksFor ((offset + buf.length) % 2 ^ 64) = (offset + buf.length + 4095) / 4096 := by
        rw [hnewSize, blocksFor_of_lt (hlen.trans (by decide))]
      rw [hnewBlocks, hnewSize]
      have hcurrent := hfits inum hreach
      have hat : ∀ claimed, Claimable fs claimed →
          WriteAt env.limits fs path buf offset inum claimed := fun claimed hclaim =>
        ⟨htranslate, by simpa using hmode, not_lt.mp hoffset, hclaim⟩
      obtain ⟨value, claimed, hdoes, hclaim, halloc⟩ :
          ∃ value claimed, Does env fs (allocLoop (inodeAt fs.disk inum).numBlocks
            (blocksNeeded (inodeAt fs.disk inum) (offset + buf.length)) 0 (inodeAt fs.disk inum)) value
              (claimed.map .bitSet) ∧ Claimable fs claimed ∧ Allocates fs (inodeAt fs.disk inum)
                ((inodeAt fs.disk inum).numBlocks + 0) _ claimed value := does_allocLoop fs 0 _
      rw [Nat.add_zero] at halloc
      cases halloc with
      | noSpace hlength hall =>
          exact ⟨_, _, Follows.bind_error hdoes, .noSpace (hat claimed hclaim) (.noSpace hlength hall)⟩
      | fault hpos hlength hbound =>
          exact ⟨_, _, Follows.bind_error hdoes, .noSpace (hat claimed hclaim) (.fault hpos hlength hbound)⟩
      | done hlength hbound =>
          have hblocks : (offset + buf.length + 4095) / 4096 =
              (inodeAt fs.disk inum).numBlocks + claimed.length := by
            rw [blocksNeeded] at hlength hbound
            simp only [numPtrs] at hbound hcurrent
            omega
          have hroom : (inodeAt fs.disk inum).numBlocks + claimed.length ≤ numPtrs := by
            rcases hbound with hzero | hbound
            · omega
            · omega
          refine acts_write_data h hreach (hat claimed hclaim) hlen hblocks hroom hdoes

end Fs5600
