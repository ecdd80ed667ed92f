import Fs5600.Overwrite
import Fs5600.WholePath

/-! The pointers that `fs_write` uses. Nothing bounds the index at which the next claimed block is entered but the
number of free blocks, and nothing bounds the index of the block that is written but the number of blocks that were
claimed: where both are large enough, the write leaves the array of pointers. -/

namespace Fs5600

open Ownership Command

/-- `new_blocks_needed`: the difference of the two block counts, in `uint32_t`. -/
def newBlocksNeeded (inode : Inode) (newSize : Nat) : Nat :=
  (blocksFor newSize + 2 ^ 32 - inode.numBlocks) % 2 ^ 32

/-- A write to a regular file, at a position that `fs_write` accepts. -/
structure FileWrite (fs : Fs) (path : CStr) (buf : List UInt8) (offset inum : Nat) : Prop where
  found : translateIn .declared fs.disk path = .ok (inum, inodeAt fs.disk inum)
  regular : S_ISREG (inodeAt fs.disk inum).mode = true
  offset_le : (offset : Int) ≤ (inodeAt fs.disk inum).size.toInt
  bounded : offset + buf.length < 2 ^ 63

/-- The indices into `inode.ptrs` that `fs_write` uses: a turn of the allocation loop enters the block it has found,
a turn of the copy loop looks up the block it writes. -/
inductive PtrIndex (env : Env) (fs : Fs) (path : CStr) (buf : List UInt8) (offset : Nat) : Nat → Prop
  | alloc {inum i newBlock : Nat} {inode inode' : Inode} {m m' : Machine}
      (hwalk : translate path env (.start fs) = (.ok (inum, inode), m))
      (hi : i < newBlocksNeeded inode (offset + buf.length))
      (hrun : allocLoop inode.numBlocks i 0 inode env m = (.ok inode', m'))
      (hfound : clearBit m'.fs.bitmap m'.fs.diskSize = .ok (some newBlock)) :
      PtrIndex env fs path buf offset (inode.numBlocks + i)
  | copy {inum turns bytesWritten : Nat} {inode inode' : Inode} {m m' m'' : Machine}
      (hwalk : translate path env (.start fs) = (.ok (inum, inode), m))
      (hrun : allocLoop inode.numBlocks (newBlocksNeeded inode (offset + buf.length)) 0 inode env m = (.ok inode', m'))
      (hcopy : writeLoop inode' buf offset turns 0 env m' = (.ok bytesWritten, m''))
      (hmore : bytesWritten < buf.length) :
      PtrIndex env fs path buf offset ((offset + bytesWritten) / fsBlockSize)

/-- The write stays inside the array of pointers, stores the size of the longer file where it succeeds, and fails
where the file would need more blocks than an inode has pointers. -/
structure WritesInside (env : Env) (fs : Fs) (path : CStr) (buf : List UInt8) (offset inum : Nat) : Prop where
  index : ∀ index, PtrIndex env fs path buf offset index → index < numPtrs
  size : (Op.run (.write path buf offset) env fs).1 = .ok buf.length →
    (inodeAt (Op.run (.write path buf offset) env fs).2.fs.disk inum).size.toInt =
      max (inodeAt fs.disk inum).size.toInt ((offset + buf.length : Nat) : Int)
  fails : numPtrs < (offset + buf.length + 4095) / 4096 →
    ∃ code, (Op.run (.write path buf offset) env fs).1 = .error (.errno code)

/-- When a write stays inside: it ends in the last block of the file or behind it, and within what the pointers can
hold; or the file and all free blocks together are no more than the pointers can hold, and a write behind that
needs more blocks than are free. -/
def WritesWhen (fs : Fs) (buf : List UInt8) (offset inum : Nat) : Prop :=
  ((inodeAt fs.disk inum).numBlocks ≤ (offset + buf.length + 4095) / 4096 ∧
      (offset + buf.length + 4095) / 4096 ≤ numPtrs) ∨
    ((inodeAt fs.disk inum).numBlocks + (freeBlocks fs).card ≤ numPtrs ∧
      ((offset + buf.length + 4095) / 4096 ≤ numPtrs ∨
        (freeBlocks fs).card < newBlocksNeeded (inodeAt fs.disk inum) (offset + buf.length)))

section Indices

variable {env : Env} {fs : Fs} {path : CStr} {buf : List UInt8} {offset inum : Nat} {inode inode' : Inode}
  {claimed : List Nat} {m m' : Machine}

/-- The condition in the terms of the loops: the last index of the allocation, and whether it ends the write. -/
theorem writesWhen_iff (hfits : (inodeAt fs.disk inum).numBlocks ≤ numPtrs) :
    WritesWhen fs buf offset inum ↔
      (newBlocksNeeded (inodeAt fs.disk inum) (offset + buf.length) ≤ numPtrs - (inodeAt fs.disk inum).numBlocks ∨
        (inodeAt fs.disk inum).numBlocks + (freeBlocks fs).card ≤ numPtrs) ∧
      ((offset + buf.length + 4095) / 4096 ≤ numPtrs ∨
        (freeBlocks fs).card < newBlocksNeeded (inodeAt fs.disk inum) (offset + buf.length)) := by
  rw [WritesWhen]
  by_cases hsmall : (offset + buf.length + 4095) / 4096 ≤ numPtrs
  · have hneeded : newBlocksNeeded (inodeAt fs.disk inum) (offset + buf.length) =
        ((offset + buf.length + 4095) / 4096 + 2 ^ 32 - (inodeAt fs.disk inum).numBlocks) % 2 ^ 32 := by
      rw [newBlocksNeeded, blocksFor_of_lt (by simp only [numPtrs] at hsmall; omega)]
    rw [hneeded]
    simp only [numPtrs] at *
    omega
  · omega

/-- What the allocation loop has done after some turns. -/
theorem claimed_of_allocLoop {left : Nat} (hm : m.fs = fs)
    (hrun : allocLoop inode.numBlocks left 0 inode env m = (.ok inode', m')) :
    ∃ claimed, claimed.length = left ∧ Claimable fs claimed ∧ m'.fs = fs.replay (claimed.map .bitSet) := by
  obtain ⟨value, claimed, hdoes, hclaim, halloc⟩ := @does_allocLoop env inode.numBlocks left fs 0 inode
  obtain ⟨events, hemits, hpost⟩ := hdoes m hm
  rw [hrun] at hemits hpost
  rcases hpost with ⟨rfl, rfl⟩ | ⟨reason, -, hresult, -⟩
  · cases halloc with
    | done hlength hfits => exact ⟨claimed, hlength, hclaim, hm ▸ hemits.view⟩
  · cases hresult

/-- Another block that is found after some were claimed is a free block too. -/
theorem Claimable.length_lt (h : Claimable fs claimed) {newBlock : Nat}
    (hfound : clearBit (fs.replay (claimed.map .bitSet)).bitmap (fs.replay (claimed.map .bitSet)).diskSize =
      .ok (some newBlock)) : claimed.length < (freeBlocks fs).card := by
  rw [replay_bitSets] at hfound
  obtain ⟨hle, hlt, hbits, hclear⟩ := clearBit_eq_some hfound
  rw [bitTest_setAll fun b hb => (h.range b hb).2.2, Bool.or_eq_false_iff, decide_eq_false_iff_not] at hclear
  have hmore : Claimable fs (newBlock :: claimed) :=
    ⟨List.nodup_cons.mpr ⟨hclear.1, h.nodup⟩, List.forall_mem_cons.mpr ⟨⟨hle, hlt, hbits⟩, h.range⟩,
      List.forall_mem_cons.mpr ⟨hclear.2, h.clear⟩⟩
  exact hmore.length_le

/-- The loop claims as many blocks as there are, where the pointers can hold them. -/
theorem allocLoop_ok {left : Nat} (hquiet : env.Quiet) (hdisk : fs.diskSize ≤ bitmapBits) (hm : m.fs = fs)
    (hfree : left ≤ (freeBlocks fs).card) (hroom : inode.numBlocks + left ≤ numPtrs) :
    ∃ claimed m', allocLoop inode.numBlocks left 0 inode env m = (.ok (inode.setPtrs inode.numBlocks claimed), m') ∧
      claimed.length = left ∧ Claimable fs claimed ∧ m'.fs = fs.replay (claimed.map .bitSet) := by
  obtain ⟨value, claimed, hdoes, hclaim, halloc⟩ := @does_allocLoop env inode.numBlocks left fs 0 inode
  obtain ⟨hemits, hvalue⟩ := hdoes.complete (fun reason => hquiet.not_breaksOff reason) hm
  cases halloc with
  | done hlength hfits =>
      exact ⟨claimed, _, Prod.ext hvalue rfl, hlength, hclaim, hm ▸ hemits.view⟩
  | noSpace hlength hall =>
      have hcard := card_freeBlocks_of_full hclaim hall
      omega
  | fault hpos hlength hbound => omega

end Indices

/-! ### Writes that stay inside -/

section Inside

variable {env : Env} {fs : Fs} {path : CStr} {buf : List UInt8} {offset inum : Nat}

/-- What an environment with the declared arrays finds for the path of the write. -/
theorem FileWrite.walk (hat : FileWrite fs path buf offset inum) (hlimits : env.limits = .declared) {m : Machine}
    {inum' : Nat} {inode : Inode} (hwalk : translate path env (.start fs) = (.ok (inum', inode), m)) :
    inum' = inum ∧ inode = inodeAt fs.disk inum ∧ m.fs = fs := by
  obtain ⟨hfound, hm, -⟩ := reads_eq_ok (reads_translate path) (m := .start fs) rfl hwalk
  rw [hlimits] at hfound
  obtain ⟨rfl, rfl⟩ := Prod.mk.inj (Except.ok.inj (hfound.symm.trans hat.found))
  exact ⟨rfl, rfl, hm⟩

theorem bind_fault {α β : Type} {call : Call α} {next : α → Call β} {m : Machine}
    (h : (call env m).1 = .error .fault) : ((call >>= next) env m).1 = .error .fault :=
  congrArg Prod.fst (bind_error (Prod.ext h rfl))

/-- `fs_write` on its file: the allocation loop, and then the copy loop, which may end the program. -/
theorem FileWrite.run_eq (hat : FileWrite fs path buf offset inum) {m : Machine}
    (hwalk : translate path env (.start fs) = (.ok (inum, inodeAt fs.disk inum), m)) :
    ∃ next : Inode → Call Int, Op.run (.write path buf offset) env fs =
        (allocLoop (inodeAt fs.disk inum).numBlocks (newBlocksNeeded (inodeAt fs.disk inum) (offset + buf.length)) 0
          (inodeAt fs.disk inum) >>= next) env m ∧
      ∀ inode m', (writeLoop inode buf offset buf.length 0 env m').1 = .error .fault →
        (next inode env m').1 = .error .fault := by
  have hmode := S_ISDIR_eq_false_of_isReg hat.regular
  have hoffset := hat.offset_le
  have hsize : (offset + buf.length) % 2 ^ 64 = offset + buf.length :=
    Nat.mod_eq_of_lt (hat.bounded.trans (by decide))
  have hrun : fsWrite path buf offset env (.start fs) = _ := bind_ok hwalk
  dsimp only at hrun
  rw [if_neg (by simp [hmode]), if_neg (by omega), hsize] at hrun
  rw [newBlocksNeeded]
  exact ⟨_, hrun, fun inode m' => bind_fault⟩

/-- A write that returns has claimed all the blocks it needed. -/
theorem FileWrite.needed_le (hat : FileWrite fs path buf offset inum) (hlimits : env.limits = .declared)
    {value : Int} (hrun : (Op.run (.write path buf offset) env fs).1 = .ok value) :
    newBlocksNeeded (inodeAt fs.disk inum) (offset + buf.length) ≤ (freeBlocks fs).card := by
  obtain ⟨⟨inum', inode⟩, m, hwalk, -⟩ := bind_eq_ok (Prod.ext hrun rfl)
  obtain ⟨rfl, rfl, hm⟩ := hat.walk hlimits hwalk
  obtain ⟨next, hnext, -⟩ := hat.run_eq hwalk
  rw [hnext] at hrun
  obtain ⟨inode', m', halloc, -⟩ := bind_eq_ok (Prod.ext hrun rfl)
  obtain ⟨claimed, hlength, hclaim, -⟩ := claimed_of_allocLoop hm halloc
  exact hlength ▸ hclaim.length_le

/-- The indices of a write that stays inside. -/
theorem FileWrite.index_lt (hat : FileWrite fs path buf offset inum) (hlimits : env.limits = .declared)
    (hfits : (inodeAt fs.disk inum).numBlocks ≤ numPtrs)
    (hwhen : WritesWhen fs buf offset inum) {index : Nat} (hindex : PtrIndex env fs path buf offset index) :
    index < numPtrs := by
  obtain ⟨hroom, hends⟩ := (writesWhen_iff hfits).mp hwhen
  cases hindex with
  | alloc hwalk hi hrun hfound =>
      obtain ⟨rfl, rfl, hm⟩ := hat.walk hlimits hwalk
      obtain ⟨claimed, hlength, hclaim, hm'⟩ := claimed_of_allocLoop hm hrun
      rw [hm'] at hfound
      have hlt := hclaim.length_lt hfound
      omega
  | copy hwalk hrun hcopy hmore =>
      obtain ⟨rfl, rfl, hm⟩ := hat.walk hlimits hwalk
      obtain ⟨claimed, hlength, hclaim, -⟩ := claimed_of_allocLoop hm hrun
      have hle := hclaim.length_le
      simp only [fsBlockSize]
      omega

/-- The size that a write stores. -/
theorem FileWrite.size_eq (h : Sound fs) (hfits : Fits fs.disk) (hat : FileWrite fs path buf offset inum)
    (hlimits : env.limits = .declared) (hsmall : (offset + buf.length + 4095) / 4096 ≤ numPtrs)
    (hrun : (Op.run (.write path buf offset) env fs).1 = .ok buf.length) :
    (inodeAt (Op.run (.write path buf offset) env fs).2.fs.disk inum).size.toInt =
      max (inodeAt fs.disk inum).size.toInt ((offset + buf.length : Nat) : Int) := by
  have hlen : offset + buf.length < 2 ^ 31 := by
    simp only [numPtrs] at hsmall
    omega
  have hoffset := hat.offset_le
  obtain ⟨value, plan, hdoes, hwrite⟩ : Acts env fs (fsWrite path buf offset) (Write env fs path buf offset) :=
    acts_fsWrite h hfits path buf offset hlen
  obtain ⟨events, hemits, hpost⟩ := hdoes (.start fs) rfl
  have hrun' : (fsWrite path buf offset env (.start fs)).1 = .ok buf.length := hrun
  rw [hrun'] at hpost
  rcases hpost with ⟨rfl, rfl⟩ | ⟨reason, -, hresult, -⟩
  swap
  · cases hresult
  have hfs : (Op.run (.write path buf offset) env fs).2.fs = fs.replay events := hemits.view
  cases hwrite with
  | @done inum' claimed data hat' hblocks hroom hwrites hbytes =>
      have hfound := hat'.translate
      rw [hlimits] at hfound
      obtain ⟨rfl, -⟩ := Prod.mk.inj (Except.ok.inj (hfound.symm.trans hat.found))
      obtain ⟨-, -, hwritten, -⟩ := written_of_plan h hat' hlen hblocks hroom hwrites hbytes
      have hinum : inum' ≠ 1 := fun heq => h.reserved (b := 1) (by decide) (heq ▸ hwritten.reach.inUse)
      -- the bitmap is written last, into a block of its own
      have hlast : ∀ (mid : Fs) (map : Block), (mid.replay (if claimed = [] then [] else [.blockWrite 1 map])).disk inum' =
          mid.disk inum' := fun mid map => by
        split
        · rfl
        · exact Function.update_of_ne hinum _ _
      have hsplit : ∀ write tail, claimed.map Event.bitSet ++ (data ++ write :: tail) =
          claimed.map .bitSet ++ data ++ [write] ++ tail := by simp
      rw [hfs, hsplit, Fs.replay_append, inodeAt_congr (hlast _ _), hwritten.new, hwritten.size]
      omega

/-- A write that runs out of blocks fails with an error code. -/
theorem FileWrite.fails (hat : FileWrite fs path buf offset inum) (hlimits : env.limits = .declared)
    (hdisk : fs.diskSize ≤ bitmapBits) (hroom : (inodeAt fs.disk inum).numBlocks + (freeBlocks fs).card ≤ numPtrs)
    (hfull : (freeBlocks fs).card < newBlocksNeeded (inodeAt fs.disk inum) (offset + buf.length)) :
    ∃ code, (Op.run (.write path buf offset) env fs).1 = .error (.errno code) := by
  suffices hnot : ∃ reason, reason ≠ .fault ∧ (Op.run (.write path buf offset) env fs).1 = .error reason by
    obtain ⟨_ | _, hreason, hrun⟩ := hnot
    · exact ⟨_, hrun⟩
    · exact absurd rfl hreason
  rcases hwalk : translate path env (.start fs) with ⟨reason | ⟨inum', inode⟩, m⟩
  · -- the lookup ended early
    have hread : Reads env fs (translate path) (translateIn env.limits fs.disk path) := reads_translate path
    rw [hlimits, hat.found] at hread
    obtain ⟨-, -, ⟨hvalue, -⟩ | ⟨reason', hbreaks, hvalue, -⟩⟩ := hread (.start fs) rfl
    · rw [hwalk] at hvalue
      cases hvalue
    · rw [hwalk] at hvalue
      obtain rfl : reason = reason' := Except.error.inj hvalue
      have hrun : fsWrite path buf offset env (.start fs) = (.error reason, m) := bind_error hwalk
      exact ⟨reason, hbreaks.1, congrArg Prod.fst hrun⟩
  · obtain ⟨rfl, rfl, hm⟩ := hat.walk hlimits hwalk
    obtain ⟨next, hnext, -⟩ := hat.run_eq hwalk
    obtain ⟨value, claimed, hdoes, hclaim, halloc⟩ := @does_allocLoop env (inodeAt fs.disk inum').numBlocks
      (newBlocksNeeded (inodeAt fs.disk inum') (offset + buf.length)) fs 0 (inodeAt fs.disk inum')
    have hle := hclaim.length_le
    obtain ⟨reason, hreason, hloop⟩ : ∃ reason, reason ≠ .fault ∧ (allocLoop (inodeAt fs.disk inum').numBlocks
        (newBlocksNeeded (inodeAt fs.disk inum') (offset + buf.length)) 0 (inodeAt fs.disk inum') env m).1 =
          .error reason := by
      obtain ⟨-, -, ⟨hvalue, -⟩ | ⟨reason, hbreaks, hvalue, -⟩⟩ := hdoes m hm
      · cases halloc with
        | done hlength _ => omega
        | noSpace _ _ => exact ⟨_, by simp, hvalue⟩
        | fault _ _ hbound => omega
      · exact ⟨reason, hbreaks.1, hvalue⟩
    refine ⟨reason, hreason, ?_⟩
    rw [hnext, bind_error (Prod.ext hloop rfl)]

end Inside

/-! ### Writes that leave the array -/

section Outside

variable {env : Env} {fs : Fs} {path : CStr} {buf : List UInt8} {offset inum : Nat}

/-- A copy loop that has to write behind the last pointer gets there. -/
theorem writeLoop_fault (hquiet : env.Quiet) (inode : Inode) {turns bytesWritten : Nat} (m : Machine)
    (hmore : numPtrs < (offset + buf.length + 4095) / 4096) (hin : offset + bytesWritten ≤ numPtrs * fsBlockSize)
    (hturns : buf.length ≤ bytesWritten + turns) :
    (writeLoop inode buf offset turns bytesWritten env m).1 = .error .fault := by
  simp only [numPtrs, fsBlockSize] at hmore hin
  induction turns generalizing bytesWritten m with
  | zero => omega
  | succ turns ih =>
      rw [writeLoop, if_pos (by omega)]
      by_cases hindex : (offset + bytesWritten) / fsBlockSize < numPtrs
      · rw [inode.ptr_eq_ok hindex]
        simp only [numPtrs, fsBlockSize] at hindex
        -- the blocks before it are read and written, or `block_write` ends the program
        have hnext : ∀ (block : Block) (m : Machine), ((do
            blockWrite (inode.block ((offset + bytesWritten) / fsBlockSize)) block
            writeLoop inode buf offset turns (bytesWritten + min (buf.length - bytesWritten)
              (fsBlockSize - (offset + bytesWritten) % fsBlockSize))) env m).1 = .error .fault := by
          intro block m
          by_cases hlba : Writable (inode.block ((offset + bytesWritten) / fsBlockSize))
          · obtain ⟨-, hvalue⟩ := (does_blockWrite hlba block).complete (fun reason => hquiet.not_breaksOff reason)
              (m := m) rfl
            rw [bind_ok (Prod.ext hvalue rfl)]
            exact ih _ (by simp only [fsBlockSize]; omega) (by simp only [fsBlockSize]; omega)
          · refine bind_fault (bind_fault ?_)
            rw [tryBlockWrite, if_pos (by rw [Writable] at hlba; omega)]
        rw [bind_ok (lift_run env m _)]
        dsimp only
        split
        · obtain ⟨-, hread⟩ := (reads_blockRead (inode.block ((offset + bytesWritten) / fsBlockSize))).complete
            (fun reason => hquiet.not_breaksOff reason) (m := m) rfl
          rw [bind_ok (Prod.ext hread rfl)]
          exact hnext _ _
        · exact hnext _ _
      · rw [Inode.ptr, dif_neg hindex]
        rfl

/-- The lookup of the path succeeds where no block access fails. -/
theorem FileWrite.walk_ok (hat : FileWrite fs path buf offset inum) (hquiet : env.Quiet)
    (hlimits : env.limits = .declared) :
    ∃ m, translate path env (.start fs) = (.ok (inum, inodeAt fs.disk inum), m) ∧ m.fs = fs := by
  have hvalue : (translate path env (.start fs)).1 = _ := translate_value hquiet path
  rw [hlimits, hat.found] at hvalue
  exact ⟨_, Prod.ext hvalue rfl, (hat.walk hlimits (Prod.ext hvalue rfl)).2.2⟩

/-- A write that claims a block more than the pointers can hold reaches the index behind them. -/
theorem FileWrite.ptrIndex_alloc (hat : FileWrite fs path buf offset inum) (hquiet : env.Quiet)
    (hlimits : env.limits = .declared) (hdisk : fs.diskSize ≤ bitmapBits)
    (hfits : (inodeAt fs.disk inum).numBlocks ≤ numPtrs)
    (hneed : numPtrs - (inodeAt fs.disk inum).numBlocks <
      newBlocksNeeded (inodeAt fs.disk inum) (offset + buf.length))
    (hfree : numPtrs < (inodeAt fs.disk inum).numBlocks + (freeBlocks fs).card) :
    PtrIndex env fs path buf offset numPtrs := by
  obtain ⟨m, hwalk, hm⟩ := hat.walk_ok hquiet hlimits
  obtain ⟨claimed, m', hrun, hlength, hclaim, hm'⟩ := @allocLoop_ok env fs (inodeAt fs.disk inum) m
    (numPtrs - (inodeAt fs.disk inum).numBlocks) hquiet hdisk hm (by omega) (by omega)
  have hindex : (inodeAt fs.disk inum).numBlocks + (numPtrs - (inodeAt fs.disk inum).numBlocks) = numPtrs := by
    omega
  rcases hfound : clearBit m'.fs.bitmap m'.fs.diskSize with reason | (_ | newBlock)
  · obtain ⟨-, hbits⟩ := clearBit_eq_error hfound
    rw [hm', replay_bitSets] at hbits
    exact absurd hdisk (not_le.mpr hbits)
  · rw [hm', replay_bitSets] at hfound
    have hcard := card_freeBlocks_of_full hclaim fun b hle hlt hclear => by
      have hset := clearBit_eq_none hfound hle hlt
      rw [bitTest_setAll fun b hb => (hclaim.range b hb).2.2, hclear, Bool.or_false] at hset
      exact of_decide_eq_true hset
    omega
  · have halloc := PtrIndex.alloc hwalk hneed hrun hfound
    rwa [hindex] at halloc

/-- A write whose blocks are all there, but go beyond the pointers, has undefined behaviour. -/
theorem FileWrite.run_fault (hat : FileWrite fs path buf offset inum) (hquiet : env.Quiet)
    (hlimits : env.limits = .declared) (hdisk : fs.diskSize ≤ bitmapBits)
    (hfits : (inodeAt fs.disk inum).numBlocks ≤ numPtrs) (hmore : numPtrs < (offset + buf.length + 4095) / 4096)
    (hroom : (inodeAt fs.disk inum).numBlocks + newBlocksNeeded (inodeAt fs.disk inum) (offset + buf.length) ≤ numPtrs)
    (hfree : newBlocksNeeded (inodeAt fs.disk inum) (offset + buf.length) ≤ (freeBlocks fs).card) :
    (Op.run (.write path buf offset) env fs).1 = .error .fault := by
  obtain ⟨m, hwalk, hm⟩ := hat.walk_ok hquiet hlimits
  obtain ⟨next, hnext, hcopy⟩ := hat.run_eq hwalk
  obtain ⟨claimed, m', hrun, -⟩ := allocLoop_ok hquiet hdisk hm hfree hroom
  have hoffset := hat.offset_le
  have hin : offset + 0 ≤ numPtrs * fsBlockSize := by
    simp only [Inode.numBlocks, numPtrs, fsBlockSize] at hfits ⊢
    omega
  rw [hnext, bind_ok hrun]
  exact hcopy _ m' (writeLoop_fault hquiet _ m' hmore hin (by omega))

/-- The writes to a file that stay inside the array of pointers, over all patterns of failing block accesses. -/
theorem writesInside_iff (h : Sound fs) (hfits : Fits fs.disk) (hdisk : fs.diskSize ≤ bitmapBits)
    (hat : FileWrite fs path buf offset inum) :
    (∀ env, env.limits = .declared → WritesInside env fs path buf offset inum) ↔ WritesWhen fs buf offset inum := by
  have hblocks := hfits inum (reach_of_translateIn hat.found).1
  constructor
  · intro hinside
    have hquiet := hinside (quietEnv 0) rfl
    by_contra hnot
    rw [writesWhen_iff hblocks, not_and_or, not_or, not_or] at hnot
    by_cases halloc : numPtrs - (inodeAt fs.disk inum).numBlocks <
        newBlocksNeeded (inodeAt fs.disk inum) (offset + buf.length) ∧
          numPtrs < (inodeAt fs.disk inum).numBlocks + (freeBlocks fs).card
    · have hlt := hquiet.index _ (hat.ptrIndex_alloc (quiet_quietEnv 0) rfl hdisk hblocks halloc.1 halloc.2)
      exact absurd hlt (Nat.lt_irrefl _)
    · obtain ⟨hmore, hfree⟩ : numPtrs < (offset + buf.length + 4095) / 4096 ∧
          newBlocksNeeded (inodeAt fs.disk inum) (offset + buf.length) ≤ (freeBlocks fs).card := by omega
      obtain ⟨code, hcode⟩ := hquiet.fails hmore
      rw [hat.run_fault (quiet_quietEnv 0) rfl hdisk hblocks hmore (by omega) hfree] at hcode
      cases hcode
  · intro hwhen env hlimits
    obtain ⟨hroom, hends⟩ := (writesWhen_iff hblocks).mp hwhen
    refine ⟨fun index => hat.index_lt hlimits hblocks hwhen, fun hrun => ?_, fun hmore => ?_⟩
    · have hneed := hat.needed_le hlimits hrun
      exact hat.size_eq h hfits hlimits (by omega) hrun
    · have hfull : (freeBlocks fs).card < newBlocksNeeded (inodeAt fs.disk inum) (offset + buf.length) := by omega
      have hall : (inodeAt fs.disk inum).numBlocks + (freeBlocks fs).card ≤ numPtrs := by omega
      exact hat.fails hlimits hdisk hall hfull

end Outside

/-- A byte behind the one block of the file `f` of the sample disk goes into a block of its own. -/
theorem writesInside_iff_sampleImage : WritesInside (quietEnv 0) sampleImage (joinPath [nameF]) [1] 4096 4 := by
  refine (writesInside_iff sound_sampleImage wellFormed_sampleImage.fits (by decide)
    ⟨?_, by decide +kernel, by decide +kernel, by decide⟩).mpr (Or.inl (by decide +kernel)) _ rfl
  exact (translate_value (quiet_quietEnv 0) _).symm.trans translate_sampleImage

/-- A disk with an empty file and more free blocks than an inode has pointers. -/
def spaciousImage : Fs :=
  imageOf 2048 [2, 3, 4]
    [(2, (inodeOf (S_IFDIR ||| 0o777) 4096 [3]).toBlock), (3, entriesOf [(nameF, 4)]),
      (4, (inodeOf (S_IFREG ||| 0o666) 0 []).toBlock)]

theorem bitTest_zero (i : Nat) : bitTest Block.zero i = false := by
  rw [bitTest, Block.byte_zero, UInt8.zero_and]
  rfl

theorem card_freeBlocks_spaciousImage : numPtrs < (freeBlocks spaciousImage).card := by
  have hsub : Finset.Ico 5 2048 ⊆ freeBlocks spaciousImage := by
    intro b hb
    obtain ⟨hle, hlt⟩ := Finset.mem_Ico.mp hb
    refine mem_freeBlocks.mpr ⟨by omega, hlt, ?_⟩
    have hset : bitTest spaciousImage.bitmap b = _ := bitTest_setAll (by decide) b
    rw [hset, decide_eq_false (by simp; omega), Bool.false_or]
    exact bitTest_zero _
  calc numPtrs < (Finset.Ico 5 2048).card := by
        rw [Nat.card_Ico]
        decide
    _ ≤ (freeBlocks spaciousImage).card := Finset.card_le_card hsub

/-- Not every write stays inside: where the disk has the blocks, a write of 1020 blocks into an empty file leaves the
array of pointers. -/
theorem writesInside_false :
    ¬∀ env fs path buf offset inum, env.limits = .declared → Mounted fs → WellFormed fs → fs.diskSize ≤ bitmapBits →
      Plain path → FileWrite fs path buf offset inum → WritesInside env fs path buf offset inum := by
  intro h
  have hform : WellFormed spaciousImage := wellFormed_of_check (by decide +kernel)
  obtain ⟨buf, hlength⟩ : ∃ buf : List UInt8, buf.length = numPtrs * fsBlockSize + 1 :=
    ⟨List.replicate _ 0, List.length_replicate⟩
  have hat : FileWrite spaciousImage (joinPath [nameF]) buf 0 4 := by
    refine ⟨?_, by decide +kernel, by decide +kernel, by rw [hlength]; decide⟩
    refine (translate_value (quiet_quietEnv 0) _).symm.trans ?_
    exact translate_of_descend (quiet_quietEnv 0) plain_nameF (roomy_quietEnv 0)
      (by rw [pathparse_nameF]; decide +kernel)
  have hinside := h (quietEnv 0) spaciousImage _ _ 0 4 rfl (mounted_of_disk (by decide) (by decide) rfl) hform
    (by decide) plain_nameF hat
  have hindex := hat.ptrIndex_alloc (quiet_quietEnv 0) rfl (by decide) (by decide +kernel)
    (by rw [hlength]; decide +kernel) (Nat.lt_of_lt_of_le card_freeBlocks_spaciousImage (Nat.le_add_left _ _))
  exact absurd (hinside.index _ hindex) (Nat.lt_irrefl _)

end Fs5600
