import Fs5600.Observe
import Fs5600.Crash

/-! The space that `fs_write` claims. The number of blocks it needs is a difference of two `uint32_t`, which
wraps where the write ends in an earlier block than the file; and where the blocks it can find are not
enough, it leaves those it has marked. -/

namespace Fs5600

open Ownership Command

/-- The file and the position of a write without growth: a regular file, and bytes below its size. -/
structure OverwriteAt (env : Env) (fs : Fs) (path : CStr) (buf : List UInt8) (offset inum : Nat) : Prop where
  translate : (translate path env (.start fs)).1 = .ok (inum, inodeAt fs.disk inum)
  regular : S_ISREG (inodeAt fs.disk inum).mode = true
  inside : ((offset + buf.length : Nat) : Int) ≤ (inodeAt fs.disk inum).size.toInt

/-- The write returns its length and changes bytes of the file, and nothing else but its `mtime`. -/
structure Overwrites (env : Env) (fs : Fs) (path : CStr) (buf : List UInt8) (offset inum : Nat) : Prop where
  value : (Op.run (.write path buf offset) env fs).1 = .ok buf.length
  bitmap : (Op.run (.write path buf offset) env fs).2.fs.bitmap = fs.bitmap
  saved : (Op.run (.write path buf offset) env fs).2.fs.disk 1 = fs.disk 1
  size : (inodeAt (Op.run (.write path buf offset) env fs).2.fs.disk inum).size = (inodeAt fs.disk inum).size
  ptrs : (inodeAt (Op.run (.write path buf offset) env fs).2.fs.disk inum).ptrs = (inodeAt fs.disk inum).ptrs
  bytes : ∀ x < (inodeAt fs.disk inum).size.toInt.toNat,
    (inodeAt fs.disk inum).fileByte (Op.run (.write path buf offset) env fs).2.fs.disk x =
      if offset ≤ x ∧ x < offset + buf.length then buf.getD (x - offset) 0
      else (inodeAt fs.disk inum).fileByte fs.disk x
  others : KeepsBut (Owned fs.disk inum) fs.disk (Op.run (.write path buf offset) env fs).2.fs.disk

section Overwrite

variable {env : Env} {fs : Fs} {path : CStr} {buf : List UInt8} {offset inum : Nat}

/-- What `fs_write` does where no block access fails. -/
theorem write_run (h : Sound fs) (hfits : Fits fs.disk) (hquiet : env.Quiet)
    (hlen : offset + buf.length < 2 ^ 31) :
    ∃ plan, Write env fs path buf offset (Op.run (.write path buf offset) env fs).1 plan ∧
      (Op.run (.write path buf offset) env fs).2.fs = fs.replay plan := by
  have hacts : Acts env fs (fsWrite path buf offset) (Write env fs path buf offset) :=
    acts_fsWrite h hfits path buf offset hlen
  obtain ⟨value, plan, hdoes, hpost⟩ := hacts
  obtain ⟨hvalue, hfs⟩ := run_of_does hdoes hquiet
  have hrun : (Op.run (.write path buf offset) env fs).1 = value := hvalue
  exact ⟨plan, hrun ▸ hpost, hfs⟩

theorem OverwriteAt.writeAt (hat : OverwriteAt env fs path buf offset inum) (hquiet : env.Quiet) :
    WriteAt env.limits fs path buf offset inum [] where
  translate := (translate_value hquiet path).symm.trans hat.translate
  file := S_ISDIR_eq_false_of_isReg hat.regular
  offset_le := by have := hat.inside; omega
  claimable := .nil fs

theorem WriteAt.inum_eq {limits : Limits} {inum' : Nat} {claimed claimed' : List Nat}
    (hat : WriteAt limits fs path buf offset inum claimed) (hat' : WriteAt limits fs path buf offset inum' claimed') :
    inum' = inum :=
  (Prod.mk.inj (Except.ok.inj (hat'.translate.symm.trans hat.translate))).1

/-- A write that needs no new blocks changes bytes of the file only. -/
theorem overwrites_of_plan (h : Sound fs) (hquiet : env.Quiet) (hat : OverwriteAt env fs path buf offset inum)
    (hblocks : (offset + buf.length + 4095) / 4096 = (inodeAt fs.disk inum).numBlocks)
    (hfits : Fits fs.disk) {data : List Event}
    (hwrites : WritesTo (fun b => ∃ q, Touches offset (offset + buf.length) q ∧
      ((inodeAt fs.disk inum).setPtrs (inodeAt fs.disk inum).numBlocks []).block q = b) data)
    (hbytes : ∀ q, Touches offset (offset + buf.length) q → ∀ x < fsBlockSize,
      ((fs.replay data).disk
        (((inodeAt fs.disk inum).setPtrs (inodeAt fs.disk inum).numBlocks []).block q)).byte x =
      patched (fs.disk (((inodeAt fs.disk inum).setPtrs (inodeAt fs.disk inum).numBlocks []).block q))
        q buf offset 0 x)
    (hvalue : (Op.run (.write path buf offset) env fs).1 = .ok buf.length)
    (hfs : (Op.run (.write path buf offset) env fs).2.fs = fs.replay ([].map .bitSet ++ data ++
      [.blockWrite inum ((inodeAt fs.disk inum).grow [] (offset + buf.length) env.time).toBlock])) :
    Overwrites env fs path buf offset inum := by
  have hinside := hat.inside
  have hle := (inodeAt fs.disk inum).size.toInt_le
  have hmax : Int32.maxValue.toInt = 2147483647 := by decide
  have hreach := (reach_of_translateIn (hat.writeAt hquiet).translate).1
  obtain ⟨-, -, hwritten, hsaved⟩ := written_of_plan h (hat.writeAt hquiet) (by omega)
    (by simpa using hblocks) (by simpa using hfits inum hreach) hwrites hbytes
  rw [← hfs] at hwritten hsaved
  have hptrs : ((inodeAt fs.disk inum).grow [] (offset + buf.length) env.time).ptrs = (inodeAt fs.disk inum).ptrs := by
    simp only [Inode.grow, Inode.setPtrs_nil]
  have hsize : ((inodeAt fs.disk inum).grow [] (offset + buf.length) env.time).size = (inodeAt fs.disk inum).size := by
    refine Int32.toInt_inj.mp ?_
    rw [hwritten.size]
    omega
  refine ⟨hvalue, hwritten.bitmap, hsaved, by rw [hwritten.new, hsize], by rw [hwritten.new, hptrs], ?_, hwritten.disk⟩
  intro x hx
  rw [← hsize] at hx
  have hbyte := hwritten.bytes x hx
  simp only [Inode.fileByte, Inode.block, hptrs] at hbyte ⊢
  exact hbyte

/-- An overwrite inside a file does what it should exactly where it ends in the last block of the file. -/
theorem overwrites_iff (h : Sound fs) (hfits : Fits fs.disk) (hquiet : env.Quiet)
    (hat : OverwriteAt env fs path buf offset inum) :
    Overwrites env fs path buf offset inum ↔
      (offset + buf.length + 4095) / 4096 = (inodeAt fs.disk inum).numBlocks := by
  have hinside := hat.inside
  have hle := (inodeAt fs.disk inum).size.toInt_le
  have hmax : Int32.maxValue.toInt = 2147483647 := by decide
  have hreach := (reach_of_translateIn (hat.writeAt hquiet).translate).1
  have hcount : (offset + buf.length + 4095) / 4096 ≤ (inodeAt fs.disk inum).numBlocks := by
    unfold Inode.numBlocks
    simp only [fsBlockSize]
    omega
  obtain ⟨plan, hwrite, hfs⟩ := @write_run env fs path buf offset h hfits hquiet (by omega)
  generalize hvalue : (Op.run (.write path buf offset) env fs).1 = value at hwrite
  cases hwrite with
  | stops reason hnot => exact absurd (hat.writeAt hquiet) (hnot inum [])
  | @noSpace inum' claimed reason hat' halloc =>
      obtain rfl := (hat.writeAt hquiet).inum_eq hat'
      refine iff_of_false (fun hover => ?_) fun hblocks => ?_
      · cases hvalue.symm.trans hover.value
      · -- where the block counts agree there is nothing to allocate
        have hneed : blocksNeeded (inodeAt fs.disk inum') (offset + buf.length) = 0 := by
          rw [blocksNeeded, hblocks]
          omega
        rw [hneed] at halloc
        cases halloc with
        | noSpace hlength hall => omega
        | fault hpos hlength hbound => omega
  | @done inum' claimed data hat' hblocks hroom hwrites hbytes =>
      obtain rfl := (hat.writeAt hquiet).inum_eq hat'
      obtain rfl : claimed = [] := List.length_eq_zero_iff.mp (by omega)
      refine iff_of_true ?_ (by simpa using hblocks)
      apply overwrites_of_plan h hquiet hat (by simpa using hblocks) hfits hwrites hbytes hvalue
      rw [hfs, if_pos rfl, ← List.append_assoc]

end Overwrite

/-- The first byte of the file `f` of the sample disk is overwritten. -/
theorem overwrites_iff_sampleImage : Overwrites (quietEnv 0) sampleImage (joinPath [nameF]) [1] 0 4 :=
  (overwrites_iff sound_sampleImage wellFormed_sampleImage.fits (quiet_quietEnv 0)
    ⟨translate_sampleImage, by decide +kernel, by decide +kernel⟩).mpr (by decide +kernel)

/-- A disk with a file of two blocks. -/
def twoBlockImage : Fs :=
  imageOf 16 [2, 3, 4, 5, 6]
    [(2, (inodeOf (S_IFDIR ||| 0o777) 4096 [3]).toBlock), (3, entriesOf [(nameF, 4)]),
      (4, (inodeOf (S_IFREG ||| 0o666) 5000 [5, 6]).toBlock)]

/-- Not every overwrite inside a file works: one in the first block of a file of two runs out of space. -/
theorem overwrites_false :
    ¬∀ env fs path buf offset inum, env.Quiet → Mounted fs → Sound fs → Fits fs.disk → Plain path →
      OverwriteAt env fs path buf offset inum → Overwrites env fs path buf offset inum := by
  intro h
  have hform : WellFormed twoBlockImage := wellFormed_of_check (by decide +kernel)
  have hover := h (quietEnv 0) twoBlockImage (joinPath [nameF]) [1] 0 4 (quiet_quietEnv 0)
    (mounted_of_disk (by decide) (by decide) rfl) hform.toSound hform.fits plain_nameF
    ⟨translate_of_descend (quiet_quietEnv 0) plain_nameF (roomy_quietEnv 0)
      (by rw [pathparse_nameF]; decide +kernel), by decide +kernel, by decide +kernel⟩
  have heval : (Op.run (.write (joinPath [nameF]) [1] 0) (quietEnv 0) twoBlockImage).1 =
      .error (.errno .ENOSPC) := by decide +kernel
  cases heval.symm.trans hover.value

/-! ### Growth -/

/-- The file and the position of a write that may grow the file: it ends in the last block or behind it. -/
structure GrowAt (env : Env) (fs : Fs) (path : CStr) (buf : List UInt8) (offset inum : Nat) : Prop where
  translate : (translate path env (.start fs)).1 = .ok (inum, inodeAt fs.disk inum)
  regular : S_ISREG (inodeAt fs.disk inum).mode = true
  offset_le : (offset : Int) ≤ (inodeAt fs.disk inum).size.toInt
  bounded : offset + buf.length < 2 ^ 31
  grows : (inodeAt fs.disk inum).numBlocks ≤ (offset + buf.length + 4095) / 4096

/-- The number of new blocks of a write. -/
def growth (fs : Fs) (buf : List UInt8) (offset inum : Nat) : Nat :=
  (offset + buf.length + 4095) / 4096 - (inodeAt fs.disk inum).numBlocks

/-- The write succeeds where there are free blocks enough, and else returns `-ENOSPC` and changes nothing. -/
structure AllOrNothing (env : Env) (fs : Fs) (path : CStr) (buf : List UInt8) (offset inum : Nat) : Prop where
  all : growth fs buf offset inum ≤ (freeBlocks fs).card →
    (Op.run (.write path buf offset) env fs).1 = .ok buf.length
  nothing : (freeBlocks fs).card < growth fs buf offset inum →
    (Op.run (.write path buf offset) env fs).1 = .error (.errno .ENOSPC) ∧
      (Op.run (.write path buf offset) env fs).2.fs = fs

section Growth

variable {env : Env} {fs : Fs} {path : CStr} {buf : List UInt8} {offset inum : Nat}

theorem GrowAt.writeAt (hat : GrowAt env fs path buf offset inum) (hquiet : env.Quiet) :
    WriteAt env.limits fs path buf offset inum [] where
  translate := (translate_value hquiet path).symm.trans hat.translate
  file := S_ISDIR_eq_false_of_isReg hat.regular
  offset_le := hat.offset_le
  claimable := .nil fs

/-- Blocks that stay marked show in the bitmap. -/
theorem setAll_ne {claimed : List Nat} (hclaim : Claimable fs claimed) (hne : claimed ≠ []) :
    setAll fs.bitmap claimed ≠ fs.bitmap := by
  intro heq
  have hmem := List.head_mem hne
  have hbit := hclaim.clear _ hmem
  rw [← heq, bitTest_setAll fun b hb => (hclaim.range b hb).2.2, decide_eq_true hmem] at hbit
  cases hbit

/-- Growth is all or nothing exactly where the space suffices or there is none: the blocks that were claimed
before the space ran out stay marked. -/
theorem allOrNothing_iff (h : Sound fs) (hsize : fs.diskSize ≤ 1020) (hquiet : env.Quiet)
    (hat : GrowAt env fs path buf offset inum) :
    AllOrNothing env fs path buf offset inum ↔
      growth fs buf offset inum ≤ (freeBlocks fs).card ∨ (freeBlocks fs).card = 0 := by
  have hreach := (reach_of_translateIn (hat.writeAt hquiet).translate).1
  have hgrows := hat.grows
  have hbounded := hat.bounded
  obtain ⟨plan, hwrite, hfs⟩ := @write_run env fs path buf offset h (h.fits hsize) hquiet hat.bounded
  generalize hvalue : (Op.run (.write path buf offset) env fs).1 = value at hwrite
  cases hwrite with
  | stops reason hnot => exact absurd (hat.writeAt hquiet) (hnot inum [])
  | @noSpace inum' claimed reason hat' halloc =>
      obtain rfl := (hat.writeAt hquiet).inum_eq hat'
      have hroom := hat'.claimable.room h hsize hreach
      cases halloc with
      | fault hpos hlength hbound =>
          simp only [bitmapBits] at hbound
          omega
      | noSpace hlength hall =>
          have hcard := card_freeBlocks_of_full hat'.claimable hall
          have hneed : (freeBlocks fs).card < growth fs buf offset inum' := by
            unfold growth
            unfold blocksNeeded at hlength
            omega
          constructor
          · intro hall'
            obtain ⟨-, hsame⟩ := hall'.nothing hneed
            rw [hfs, replay_bitSets] at hsame
            by_cases hnil : claimed = []
            · exact Or.inr (by rw [hcard, hnil, List.length_nil])
            · exact absurd (congrArg Fs.bitmap hsame) (setAll_ne hat'.claimable hnil)
          · rintro (henough | hzero)
            · omega
            · obtain rfl : claimed = [] := List.length_eq_zero_iff.mp (by omega)
              exact ⟨fun henough => absurd henough (by omega), fun _ => ⟨hvalue, hfs⟩⟩
  | @done inum' claimed data hat' hblocks hroom hwrites hbytes =>
      obtain rfl := (hat.writeAt hquiet).inum_eq hat'
      have hle := hat'.claimable.length_le
      have hneed : growth fs buf offset inum' ≤ (freeBlocks fs).card := by
        unfold growth
        omega
      exact iff_of_true ⟨fun _ => hvalue, fun hlt => absurd hneed (by omega)⟩ (Or.inl hneed)

end Growth

/-- Appending a byte to the file `f` of the sample disk takes one of the free blocks. -/
theorem allOrNothing_iff_sampleImage : AllOrNothing (quietEnv 0) sampleImage (joinPath [nameF]) [1] 4096 4 :=
  (allOrNothing_iff sound_sampleImage diskSize_sampleImage (quiet_quietEnv 0)
    ⟨translate_sampleImage, by decide +kernel, by decide +kernel, by decide, by decide +kernel⟩).mpr
    (Or.inl (by decide +kernel))

/-- A disk with a file of one block and one free block. -/
def tightImage : Fs :=
  imageOf 7 [2, 3, 4, 5]
    [(2, (inodeOf (S_IFDIR ||| 0o777) 4096 [3]).toBlock), (3, entriesOf [(nameF, 4)]),
      (4, (inodeOf (S_IFREG ||| 0o666) 4096 [5]).toBlock)]

/-- Growth is not always all or nothing: where one block is free, a write that needs two leaves it marked. -/
theorem allOrNothing_false :
    ¬∀ env fs path buf offset inum, env.Quiet → Mounted fs → Sound fs → fs.diskSize ≤ 1020 → Plain path →
      GrowAt env fs path buf offset inum → AllOrNothing env fs path buf offset inum := by
  intro h
  have hform : WellFormed tightImage := wellFormed_of_check (by decide +kernel)
  have hresult := h (quietEnv 0) tightImage (joinPath [nameF]) (List.replicate 4097 0) 4096 4 (quiet_quietEnv 0)
    (mounted_of_disk (by decide) (by decide) rfl) hform.toSound (by decide) plain_nameF
    ⟨translate_of_descend (quiet_quietEnv 0) plain_nameF (roomy_quietEnv 0)
      (by rw [pathparse_nameF]; decide +kernel), by decide +kernel, by decide +kernel,
      by rw [List.length_replicate]; decide, by rw [List.length_replicate]; decide +kernel⟩
  have heval : bitTest (Op.run (.write (joinPath [nameF]) (List.replicate 4097 0) 4096) (quietEnv 0)
      tightImage).2.fs.bitmap 6 = true := by decide +kernel
  have hclear : bitTest tightImage.bitmap 6 = false := by decide +kernel
  have hneed : (freeBlocks tightImage).card < growth tightImage (List.replicate 4097 0) 4096 4 := by
    rw [growth, List.length_replicate]
    decide +kernel
  rw [(hresult.nothing hneed).2, hclear] at heval
  cases heval

end Fs5600
