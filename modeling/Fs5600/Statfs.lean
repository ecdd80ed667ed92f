import Fs5600.Frames
import Fs5600.Crash

/-! The report of free space. `fs_statfs` takes the superblock and the bitmap block from the blocks of the
disk, and then takes their two set bits away once more with the used blocks. -/

namespace Fs5600

open Command Run

/-! ### Counting bits -/

/-- The blocks from one on with their bits set. -/
def setBits (map : Block) (start left : Nat) : Finset Nat :=
  (Finset.Ico start (start + left)).filter fun i => bitTest map i = true

section Count

variable {map : Block}

theorem card_setBits_succ (start left : Nat) :
    (setBits map start (left + 1)).card = (bitTest map start).toNat + (setBits map (start + 1) left).card := by
  have hsplit : Finset.Ico start (start + (left + 1)) = insert start (Finset.Ico (start + 1) (start + 1 + left)) := by
    ext i
    simp only [Finset.mem_insert, Finset.mem_Ico]
    omega
  rw [setBits, hsplit, Finset.filter_insert]
  cases hbit : bitTest map start with
  | false => simp [setBits]
  | true =>
      rw [if_pos rfl, Finset.card_insert_of_notMem (by simp), setBits, Bool.toNat_true, Nat.add_comm]

/-- The loop of `fs_statfs` counts the set bits. -/
theorem usedLoop_eq_ok {left start : Nat} (hbound : start + left ≤ bitmapBits) (usedBlocks : Nat) :
    usedLoop map left start usedBlocks = .ok (usedBlocks + (setBits map start left).card) := by
  induction left generalizing start usedBlocks with
  | zero => simp [usedLoop, setBits]
  | succ left ih =>
      rw [usedLoop, if_neg (by omega), ih (by omega), card_setBits_succ]
      cases bitTest map start <;> simp [Nat.add_assoc]

/-- The set bits behind the first two blocks, and the clear ones. -/
theorem card_setBits_add_card_freeBlocks (fs : Fs) :
    (setBits fs.bitmap 2 (fs.diskSize - 2)).card + (freeBlocks fs).card = fs.diskSize - 2 := by
  rcases Nat.lt_or_ge fs.diskSize 2 with hlt | hge
  · rw [Nat.sub_eq_zero_of_le hlt.le, freeBlocks, Finset.Ico_eq_empty (by omega)]
    simp [setBits]
  · have hcount := Finset.card_filter_add_card_filter_not (s := Finset.Ico 2 fs.diskSize)
      fun i => bitTest fs.bitmap i = true
    rw [Nat.card_Ico] at hcount
    simp only [Bool.not_eq_true] at hcount
    rw [setBits, Nat.add_sub_cancel' hge, freeBlocks]
    exact hcount

end Count

/-! ### What is reported -/

/-- The report agrees with the bitmap: it counts the blocks that can be allocated. -/
structure ReportsFree (fs : Fs) (st : Statvfs) : Prop where
  bfree : st.bfree.toNat = (freeBlocks fs).card
  bavail : st.bavail.toNat = (freeBlocks fs).card
  bound : st.bfree ≤ st.blocks

section Report

variable {env : Env} {fs : Fs}

/-- The marks of the superblock and the bitmap block. -/
def reservedMarks (fs : Fs) : Nat := (bitTest fs.bitmap 0).toNat + (bitTest fs.bitmap 1).toNat

theorem fsStatfs_eq_ok (hmin : 3 ≤ fs.diskSize) (hmax : fs.diskSize ≤ bitmapBits) :
    ∃ st, (fsStatfs env (.start fs)).1 = .ok st ∧ st.blocks.toNat = fs.diskSize - 2 ∧ st.bavail = st.bfree ∧
      st.bfree.toNat = (2 ^ 64 + (freeBlocks fs).card - reservedMarks fs) % 2 ^ 64 := by
  have hused : usedLoop fs.bitmap fs.diskSize 0 0 =
      .ok (reservedMarks fs + (setBits fs.bitmap 2 (fs.diskSize - 2)).card) := by
    rw [usedLoop_eq_ok (by omega), Nat.zero_add, show fs.diskSize = fs.diskSize - 2 + 1 + 1 by omega,
      card_setBits_succ, card_setBits_succ, reservedMarks]
    simp [Nat.add_assoc]
  have htotal : (Int32.ofNat fs.diskSize).toInt = fs.diskSize := Int32.toInt_ofNat_of_lt (by simp only [bitmapBits] at hmax; omega)
  have hblocks : (UInt64.ofInt (fs.diskSize - (1 + 1))).toNat = fs.diskSize - 2 := by
    rw [UInt64.ofInt, UInt64.toNat_ofNat']
    simp only [bitmapBits] at hmax
    omega
  have hcard := card_setBits_add_card_freeBlocks fs
  have hmarks : reservedMarks fs ≤ 2 := Nat.add_le_add (Bool.toNat_le _) (Bool.toNat_le _)
  set bfree := UInt64.ofInt (fs.diskSize - (1 + 1)) -
    UInt64.ofNat (reservedMarks fs + (setBits fs.bitmap 2 (fs.diskSize - 2)).card) with hbfree
  refine ⟨⟨fsBlockSize, UInt64.ofInt (fs.diskSize - (1 + 1)), bfree, bfree, maxNameLen⟩, ?_, hblocks, rfl, ?_⟩
  · have hcount : (lift (usedLoop fs.bitmap fs.diskSize 0 0) : Call Nat) env (.start fs) = (.ok _, .start fs) :=
      congrArg (fun value => (value, Machine.start fs)) hused
    have hsize : (getDiskSize : Call Nat) env (.start fs) = (.ok fs.diskSize, .start fs) := rfl
    have hmap : (getBitmap : Call Block) env (.start fs) = (.ok fs.bitmap, .start fs) := rfl
    rw [fsStatfs, bind_ok hsize, bind_ok hmap, bind_ok hcount, htotal]
    rfl
  · have hused64 : (UInt64.ofNat (reservedMarks fs + (setBits fs.bitmap 2 (fs.diskSize - 2)).card)).toNat =
        reservedMarks fs + (setBits fs.bitmap 2 (fs.diskSize - 2)).card := by
      refine UInt64.toNat_ofNat_of_lt' ?_
      simp only [bitmapBits] at hmax
      simp only [UInt64.size]
      omega
    dsimp only
    rw [hbfree, UInt64.toNat_sub, hblocks, hused64]
    simp only [bitmapBits] at hmax
    omega

/-- The report is right exactly where neither the superblock nor the bitmap block is marked. -/
theorem reportsFree_iff (hmin : 3 ≤ fs.diskSize) (hmax : fs.diskSize ≤ bitmapBits) :
    (∃ st, (fsStatfs env (.start fs)).1 = .ok st ∧ ReportsFree fs st) ↔
      bitTest fs.bitmap 0 = false ∧ bitTest fs.bitmap 1 = false := by
  obtain ⟨st, hvalue, hblocks, havail, hfree⟩ := @fsStatfs_eq_ok env fs hmin hmax
  have hcard := card_setBits_add_card_freeBlocks fs
  have hmarks : reservedMarks fs = 0 ↔ bitTest fs.bitmap 0 = false ∧ bitTest fs.bitmap 1 = false := by
    rw [reservedMarks, Nat.add_eq_zero_iff, Bool.toNat_eq_zero, Bool.toNat_eq_zero]
  have hle : reservedMarks fs ≤ 2 := Nat.add_le_add (Bool.toNat_le _) (Bool.toNat_le _)
  simp only [bitmapBits] at hmax
  rw [← hmarks]
  constructor
  · rintro ⟨st', hvalue', hreports⟩
    obtain rfl := Except.ok.inj (hvalue.symm.trans hvalue')
    have hexact := hreports.bfree
    omega
  · intro hzero
    have hexact : st.bfree.toNat = (freeBlocks fs).card := by omega
    refine ⟨st, hvalue, hexact, havail ▸ hexact, UInt64.le_iff_toNat_le.mpr ?_⟩
    omega

end Report

/-! ### Runs -/

/-- The size of the disk stays. -/
def SameSize (m m' : Machine) : Prop := m'.fs.diskSize = m.fs.diskSize

instance : Std.Refl SameSize := ⟨fun _ => rfl⟩

instance : IsTrans Machine SameSize := ⟨fun _ _ _ h h' => Eq.trans h' h⟩

theorem frame_sameSize : Frame SameSize where
  read _ _ _ := rfl
  write lba block env m := by
    unfold tryBlockWrite
    split
    · rfl
    · split <;> rfl
  set i env m := by
    unfold bitmapSet
    split <;> rfl
  clear i env m := by
    unfold bitmapClear
    split <;> rfl

/-- In every state of a run, whatever its requests, `fs_statfs` reports the blocks that can be allocated
exactly where the superblock and the bitmap block are not marked. -/
theorem reportsFree_of_run {fs fs' : Fs} (hmin : 3 ≤ fs.diskSize) (hmax : fs.diskSize ≤ bitmapBits)
    (hrun : Reaches Fs.Step fs fs') (env : Env) :
    (∃ st, (fsStatfs env (.start fs')).1 = .ok st ∧ ReportsFree fs' st) ↔
      bitTest fs'.bitmap 0 = false ∧ bitTest fs'.bitmap 1 = false := by
  have hsize := @Reaches.invariant _ _ Fs.Step (fun state => state.diskSize = fs.diskSize) _ _ hrun
    (fun state request state' hsize hstep => ?_) rfl
  · exact reportsFree_iff (hsize ▸ hmin) (hsize ▸ hmax)
  · obtain ⟨-, rfl⟩ := hstep
    have hkeep : (request.op.run request.env state).2.fs.diskSize = state.diskSize :=
      frame_sameSize.run request.op request.env (.start state)
    exact hkeep.trans hsize

/-- On the sample disk, whose first blocks are marked, the report is wrong. -/
theorem reportsFree_of_run_sampleImage :
    ¬∃ st, (fsStatfs (quietEnv 0) (.start sampleImage)).1 = .ok st ∧ ReportsFree sampleImage st := by
  rw [reportsFree_of_run (by decide) (by decide) .refl]
  decide +kernel

/-- The report is not right in every state of every run from a sound image. -/
theorem reportsFree_false :
    ¬∀ fs fs', Mounted fs → Sound fs → bitTest fs.bitmap 0 = true → bitTest fs.bitmap 1 = true →
      3 ≤ fs.diskSize → fs.diskSize ≤ bitmapBits → Reaches Fs.Step fs fs' →
      ∃ st, (fsStatfs (quietEnv 0) (.start fs')).1 = .ok st ∧ ReportsFree fs' st := by
  intro h
  obtain ⟨st, hvalue, hreports⟩ := h _ _ mounted_sampleImage sound_sampleImage (by decide +kernel)
    (by decide +kernel) (by decide) (by decide) .refl
  obtain ⟨st', hvalue', -, -, hfree⟩ := @fsStatfs_eq_ok (quietEnv 0) sampleImage (by decide) (by decide)
  obtain rfl := Except.ok.inj (hvalue'.symm.trans hvalue)
  have hmarks : reservedMarks sampleImage = 2 := by decide +kernel
  have hcard := card_setBits_add_card_freeBlocks sampleImage
  have hsize : sampleImage.diskSize = 16 := rfl
  have hexact := hreports.bfree
  omega

end Fs5600
