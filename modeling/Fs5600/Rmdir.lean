import Fs5600.Unlinked

/-! The extent of a directory. Lookups and `fs_readdir` take a directory for `size / 4096` blocks, `fs_rmdir`
takes it for one: it looks into the block of `ptrs[0]` only, and marks only this one free. -/

namespace Fs5600

open Ownership Command

/-- No block of the directory holds a valid entry. -/
def EmptyDir (disk : Nat → Block) (dir : Nat) : Prop := ∀ slot, (tree disk).edge dir slot = none

/-- The inode block of a directory and its `size / 4096` data blocks. -/
def DirOwned (disk : Nat → Block) (dir b : Nat) : Prop :=
  b = dir ∨ ∃ i < (inodeAt disk dir).dirBlocks, (inodeAt disk dir).block i = b

/-- What is true after a directory has been removed. -/
structure RemovedDir (env : Env) (fs fs' : Fs) (path : CStr) (inum : Nat) : Prop where
  gone : ∃ reason, (translate path env (.start fs')).1 = .error reason
  changed : ∀ b, bitTest fs'.bitmap b ≠ bitTest fs.bitmap b ↔ DirOwned fs.disk inum b
  cleared : ∀ b, DirOwned fs.disk inum b → bitTest fs'.bitmap b = false
  saved : fs'.disk 1 = fs'.bitmap
  others : ∀ path', Plain path' → pathparse path' ≠ pathparse path → ∀ n inode,
    (translate path' env (.start fs)).1 = .ok (n, inode) → ∃ inode', (translate path' env (.start fs')).1 = .ok (n, inode')

/-- `fs_rmdir` removes the directory where it is empty, and else returns `-ENOTEMPTY`. -/
structure RemovesEmpty (env : Env) (fs : Fs) (path : CStr) (inum : Nat) : Prop where
  empty : EmptyDir fs.disk inum → (Op.run (.rmdir path) env fs).1 = .ok 0
  nonempty : ¬EmptyDir fs.disk inum → (Op.run (.rmdir path) env fs).1 = .error (.errno .ENOTEMPTY)
  after : (Op.run (.rmdir path) env fs).1 = .ok 0 → RemovedDir env fs (Op.run (.rmdir path) env fs).2.fs path inum

/-- The first block of a directory is enough to decide: it holds a valid entry, or it is the only one, or
there is none and what `ptrs[0]` is left with does no harm. -/
def FirstBlockDecides (fs : Fs) (inum : Nat) : Prop :=
  (1 ≤ (inodeAt fs.disk inum).dirBlocks ∧ ∃ slot, (direntAt fs.disk inum (0, slot)).valid = true) ∨
    (inodeAt fs.disk inum).dirBlocks = 1 ∨
    ((inodeAt fs.disk inum).dirBlocks = 0 ∧ (∀ slot, (direntAt fs.disk inum (0, slot)).valid = false) ∧
      ((inodeAt fs.disk inum).ptrs 0).toNat < bitmapBits ∧
      (((inodeAt fs.disk inum).ptrs 0).toNat = inum ∨
        bitTest fs.bitmap ((inodeAt fs.disk inum).ptrs 0).toNat = false))

section Rmdir

variable {env : Env} {fs fs' : Fs} {dir inum : Nat} {slot : Slot} {path name : CStr}

/-- `fs_rmdir` of a directory whose first block holds a valid entry. -/
theorem does_fsRmdir_notEmpty (htranslate : translateIn env.limits fs.disk path = .ok (inum, inodeAt fs.disk inum))
    (hmode : S_ISDIR (inodeAt fs.disk inum).mode = true)
    (hentry : ∃ slot, (direntAt fs.disk inum (0, slot)).valid = true) :
    Does env fs (fsRmdir path) (.error (.errno .ENOTEMPTY)) [] := by
  obtain ⟨slot, hvalid⟩ := hentry
  have hcheck : rmdirCheckIn env.limits fs.disk path = .error (.errno .ENOTEMPTY) := by
    have hany : ((List.finRange direntsPerBlock).any fun slot =>
        ((fs.disk ((inodeAt fs.disk inum).ptrs 0).toNat).dirent slot).valid) = true :=
      List.any_eq_true.mpr ⟨slot, List.mem_finRange slot, hvalid⟩
    rw [rmdirCheckIn, htranslate]
    dsimp only [bind, Except.bind]
    rw [if_neg (by simp [hmode]), if_pos (by simp [hany])]
  exact Follows.bind_error (Follows.bind_error (hcheck ▸ reads_rmdirCheck path))

theorem emptyDir_of_no_blocks (h : (inodeAt fs.disk inum).dirBlocks = 0) : EmptyDir fs.disk inum := fun slot =>
  if_neg fun hslot => by
    have := hslot.2
    omega

theorem emptyDir_of_one_block (h : (inodeAt fs.disk inum).dirBlocks ≤ 1)
    (hnone : ∀ slot, (direntAt fs.disk inum (0, slot)).valid = false) : EmptyDir fs.disk inum := by
  rintro ⟨i, s⟩
  by_cases hslot : HasSlot fs.disk inum (i, s)
  · obtain rfl : i = 0 := Fin.ext (by have := hslot.2; simp only at this; simp only [Fin.val_zero]; omega)
    exact (edge_eq_none_iff hslot).mpr (hnone s)
  · exact if_neg hslot

theorem not_emptyDir (hmode : S_ISDIR (inodeAt fs.disk inum).mode = true)
    (hpos : 1 ≤ (inodeAt fs.disk inum).dirBlocks)
    (hentry : ∃ slot, (direntAt fs.disk inum (0, slot)).valid = true) : ¬EmptyDir fs.disk inum := by
  intro hempty
  obtain ⟨s, hvalid⟩ := hentry
  have hslot : HasSlot fs.disk inum (0, s) := ⟨hmode, hpos⟩
  have hnone := (edge_eq_none_iff hslot).mp (hempty (0, s))
  cases hvalid.symm.trans hnone

theorem Inode.block_zero (inode : Inode) : inode.block 0 = (inode.ptrs 0).toNat := inode.block_val 0

/-- The removal of a directory that frees the blocks it owns. -/
theorem removedDir_of_removed (hquiet : env.Quiet) (hlimits : Roomy env.limits) (h : WellFormed fs)
    (hpath : Plain path) {init : List CStr} (hsplit : pathparse path = init ++ [name])
    (hinit : (tree fs.disk).Leads 2 (labels init) dir) {released : List Nat}
    (hremoved : Removed fs fs' dir slot name.bytes inum released) (hempty : EmptyDir fs.disk inum)
    (hbits : ∀ b, (bitTest fs'.bitmap b ≠ bitTest fs.bitmap b ↔ DirOwned fs.disk inum b) ∧
      (DirOwned fs.disk inum b → bitTest fs'.bitmap b = false)) : RemovedDir env fs fs' path inum := by
  have hdetached := hremoved.toDetached
  have hleads : (tree fs.disk).Leads 2 (labels (pathparse path)) inum := by
    rw [hsplit, labels, List.map_append]
    exact Graph.leads_snoc.mpr ⟨dir, slot, hinit, hremoved.edge⟩
  refine ⟨⟨_, (translate_value hquiet path).trans (hdetached.translateIn_gone h.exclusive h.toWellNamed hempty
    hlimits hpath hsplit rfl hinit)⟩, fun b => (hbits b).1, fun b => (hbits b).2, hremoved.saved, ?_⟩
  intro path' hpath' hne n inode htranslate
  rw [translate_value hquiet] at htranslate
  obtain ⟨hn, -⟩ := (hpath'.translateIn_eq_ok_iff hlimits h.toWellNamed).mp htranslate
  refine ⟨inodeAt fs'.disk n, (translate_value hquiet path').trans ?_⟩
  exact (hpath'.translateIn_eq_ok_iff hlimits (hdetached.wellNamed h.toWellNamed)).mpr
    ⟨(hdetached.leads_iff h.exclusive hempty hleads hne).mpr hn, rfl⟩

/-- A directory with data blocks has its first one in use. -/
theorem cell_of_dirBlocks (h : WellFormed fs) (hreach : (tree fs.disk).Reach inum) {i : Nat}
    (hi : i < (inodeAt fs.disk inum).dirBlocks) :
    ∃ k : Fin numPtrs, k.val = i ∧ (tree fs.disk).cell inum k = some ((inodeAt fs.disk inum).block i) := by
  have hlt : i < numPtrs := hi.trans_le (h.dirBlocks_le hreach)
  exact ⟨⟨i, hlt⟩, rfl, tree_cell_eq_some.mpr
    ⟨hi.trans_le (Inode.dirBlocks_le_numBlocks _), (Inode.block_val _ ⟨i, hlt⟩).symm⟩⟩

theorem bit_of_dirOwned (h : WellFormed fs) (hreach : (tree fs.disk).Reach inum) {b : Nat}
    (hb : DirOwned fs.disk inum b) : bitTest fs.bitmap b = true := by
  rcases hb with rfl | ⟨i, hi, rfl⟩
  · exact h.marked _ hreach.inUse
  · obtain ⟨k, -, hcell⟩ := cell_of_dirBlocks h hreach hi
    exact h.marked _ (Graph.Uses.cell hreach hcell).inUse

/-- The bits that the removal changes are those of the blocks the directory owns exactly where it has one
block, or none and the bit of its `ptrs[0]` does not change. -/
theorem rmdir_bits_iff (h : WellFormed fs) (hreach : (tree fs.disk).Reach inum)
    (hbitmap : fs'.bitmap = clearAll fs.bitmap [((inodeAt fs.disk inum).ptrs 0).toNat, inum]) :
    (∀ b, (bitTest fs'.bitmap b ≠ bitTest fs.bitmap b ↔ DirOwned fs.disk inum b) ∧
        (DirOwned fs.disk inum b → bitTest fs'.bitmap b = false)) ↔
      (inodeAt fs.disk inum).dirBlocks = 1 ∨ ((inodeAt fs.disk inum).dirBlocks = 0 ∧
        (((inodeAt fs.disk inum).ptrs 0).toNat = inum ∨
          bitTest fs.bitmap ((inodeAt fs.disk inum).ptrs 0).toNat = false)) := by
  set ptr := ((inodeAt fs.disk inum).ptrs 0).toNat with hptr
  have hbit : ∀ b, bitTest fs'.bitmap b = (!decide (b = ptr ∨ b = inum) && bitTest fs.bitmap b) := fun b => by
    rw [hbitmap, bitTest_clearAll]
    simp
  have hmark := h.marked _ hreach.inUse
  rcases Nat.lt_trichotomy (inodeAt fs.disk inum).dirBlocks 1 with hzero | hone | hmore
  · have hd : (inodeAt fs.disk inum).dirBlocks = 0 := by omega
    have howned : ∀ b, DirOwned fs.disk inum b ↔ b = inum := fun b => by
      rw [DirOwned, hd]
      simp
    simp only [howned, hbit, hd]
    constructor
    · intro hall
      refine Or.inr ⟨trivial, ?_⟩
      by_cases hset : bitTest fs.bitmap ptr = true
      · exact Or.inl ((hall ptr).1.mp (by simp [hset]))
      · exact Or.inr (by simpa using hset)
    · rintro (hfalse | ⟨-, hharmless⟩)
      · cases hfalse
      intro b
      by_cases hb : b = inum
      · subst hb
        simp [hmark]
      · by_cases hbp : b = ptr
        · rcases hharmless with heq | hclear
          · exact absurd (hbp.trans heq) hb
          · simp [hbp, hclear, hbp ▸ hb]
        · simp [hb, hbp]
  · have howned : ∀ b, DirOwned fs.disk inum b ↔ b = ptr ∨ b = inum := fun b => by
      rw [DirOwned, hone]
      constructor
      · rintro (hb | ⟨i, hi, rfl⟩)
        · exact Or.inr hb
        · obtain rfl : i = 0 := by omega
          exact Or.inl (Inode.block_zero _)
      · rintro (hb | hb)
        · exact Or.inr ⟨0, by omega, (Inode.block_zero _).trans hb.symm⟩
        · exact Or.inl hb
    refine iff_of_true (fun b => ?_) (Or.inl hone)
    by_cases hb : b = ptr ∨ b = inum
    · have hset := bit_of_dirOwned h hreach ((howned b).mpr hb)
      simp [hbit, howned, hb, hset]
    · simp [hbit, howned, hb]
  · refine iff_of_false (fun hall => ?_) (by omega)
    -- the second block stays marked
    obtain ⟨k, hk, hcell⟩ := cell_of_dirBlocks h hreach hmore
    obtain ⟨k', hk', hcell'⟩ := cell_of_dirBlocks h hreach (show 0 < (inodeAt fs.disk inum).dirBlocks by omega)
    have howned : DirOwned fs.disk inum ((inodeAt fs.disk inum).block 1) := Or.inr ⟨1, hmore, rfl⟩
    have hclear := (hall _).2 howned
    rw [hbit, bit_of_dirOwned h hreach howned, Bool.and_true, Bool.not_eq_false', decide_eq_true_eq] at hclear
    rcases hclear with heq | heq
    · rw [Inode.block_zero, ← hptr, ← heq] at hcell'
      cases h.exclusive _ _ _ (.cell hreach hcell) (.cell hreach hcell')
      omega
    · exact h.exclusive.cell_ne_node hreach hcell hreach heq

/-- `fs_rmdir` does what it should exactly where the first block of the directory decides. -/
theorem removesEmpty_iff (h : WellFormed fs) (hlimits : Roomy env.limits) (hquiet : env.Quiet) (hpath : Plain path)
    (htranslate : (translate path env (.start fs)).1 = .ok (inum, inodeAt fs.disk inum))
    (hmode : S_ISDIR (inodeAt fs.disk inum).mode = true) :
    RemovesEmpty env fs path inum ↔ FirstBlockDecides fs inum := by
  rw [translate_value hquiet] at htranslate
  obtain ⟨hleads, -⟩ := (hpath.translateIn_eq_ok_iff hlimits h.toWellNamed).mp htranslate
  have hreach : (tree fs.disk).Reach inum := hleads.reach .root
  by_cases hentry : ∃ slot, (direntAt fs.disk inum (0, slot)).valid = true
  · have hrun : (Op.run (.rmdir path) env fs).1 = .error (.errno .ENOTEMPTY) :=
      (run_of_does (does_fsRmdir_notEmpty htranslate hmode hentry) hquiet).1
    rcases Nat.eq_zero_or_pos (inodeAt fs.disk inum).dirBlocks with hzero | hpos
    · refine iff_of_false (fun hmeets => ?_) ?_
      · cases hrun.symm.trans (hmeets.empty (emptyDir_of_no_blocks hzero))
      · rintro (⟨hpos, -⟩ | hone | ⟨-, hnone, -⟩)
        · omega
        · omega
        · obtain ⟨s, hvalid⟩ := hentry
          cases hvalid.symm.trans (hnone s)
    · exact iff_of_true ⟨fun hempty => absurd hempty (not_emptyDir hmode hpos hentry), fun _ => hrun,
        fun hok => by cases hrun.symm.trans hok⟩ (Or.inl ⟨hpos, hentry⟩)
  · have hnone : ∀ slot, (direntAt fs.disk inum (0, slot)).valid = false := by simpa using hentry
    obtain ⟨init, name, dir, slot, hsplit, hinit, hedge⟩ := hpath.exists_parent hleads
    have hdir : (tree fs.disk).Reach dir := hinit.reach .root
    have hdirMode := (tree_edge_eq_some.mp hedge).1.1
    obtain ⟨hit, hsearch, -, hinum⟩ := h.search_of_edge hdir hedge
    have hparent := (hpath.parentDirIn_eq_ok_iff hlimits h.toWellNamed hsplit).mpr ⟨rfl, dir, hinit, hdirMode, rfl⟩
    have hat : RmdirAt env.limits fs path inum dir (some hit) :=
      ⟨htranslate, hmode, hnone, hdir, name, hparent, hsearch⟩
    have hcond : FirstBlockDecides fs inum ↔ ((inodeAt fs.disk inum).ptrs 0).toNat < bitmapBits ∧
        ((inodeAt fs.disk inum).dirBlocks = 1 ∨ ((inodeAt fs.disk inum).dirBlocks = 0 ∧
          (((inodeAt fs.disk inum).ptrs 0).toNat = inum ∨
            bitTest fs.bitmap ((inodeAt fs.disk inum).ptrs 0).toNat = false))) := by
      have hfirst : (inodeAt fs.disk inum).dirBlocks = 1 → ((inodeAt fs.disk inum).ptrs 0).toNat < bitmapBits := by
        intro hone
        have howned : DirOwned fs.disk inum ((inodeAt fs.disk inum).block 0) := Or.inr ⟨0, by omega, rfl⟩
        rw [← Inode.block_zero]
        exact bitTest_lt (bit_of_dirOwned h hreach howned)
      simp only [FirstBlockDecides, hentry, and_false, false_or]
      tauto
    have hacts : Acts env fs (fsRmdir path) (Rmdir env.limits fs path) := acts_fsRmdir h.toSound path
    obtain ⟨value, plan, hdoes, hpost⟩ := hacts
    obtain ⟨hvalue, hfs⟩ : (Op.run (.rmdir path) env fs).1 = value ∧ (Op.run (.rmdir path) env fs).2.fs = _ :=
      run_of_does hdoes hquiet
    rw [hcond]
    cases hpost with
    | stops reason hnot => exact absurd hat (hnot _ _ _)
    | outside hat' hbit =>
        obtain ⟨hsameInum, -, -⟩ := hat.unique hat'
        rw [hsameInum] at hbit
        refine iff_of_false (fun hmeets => ?_) fun hlt => hbit hlt.1
        by_cases hempty : EmptyDir fs.disk inum
        · cases hvalue.symm.trans (hmeets.empty hempty)
        · cases hvalue.symm.trans (hmeets.nonempty hempty)
    | done hat' hbit =>
        obtain ⟨hsameInum, hsame, rfl⟩ := hat.unique hat'
        rw [hsameInum] at hbit
        rw [hsameInum, hsame] at hfs
        have hremoved := removed_of_plan h.toSound hdir hdirMode hsearch
          [((inodeAt fs.disk hit.entry.inode.toNat).ptrs 0).toNat, hit.entry.inode.toNat]
        rw [hinum, ← hfs] at hremoved
        have hbits := rmdir_bits_iff h hreach hremoved.bitmap
        rw [and_iff_right hbit, ← hbits]
        constructor
        · intro hmeets
          have hremovedDir := hmeets.after hvalue
          exact fun b => ⟨hremovedDir.changed b, hremovedDir.cleared b⟩
        · intro hall
          have hempty : EmptyDir fs.disk inum := by
            rcases hbits.mp hall with hone | ⟨hzero, -⟩
            · exact emptyDir_of_one_block hone.le hnone
            · exact emptyDir_of_no_blocks hzero
          exact ⟨fun _ => hvalue, fun hnot => absurd hempty hnot, fun _ =>
            removedDir_of_removed hquiet hlimits h hpath hsplit hinit hremoved hempty hall⟩

end Rmdir

/-- `"/d"` is split into its one name. -/
theorem pathparse_nameD : pathparse (joinPath [nameD]) = [nameD] := pathparse_joinPath (by decide)

/-- The directory `d` of the sample disk has one block. -/
theorem removesEmpty_iff_sampleImage : RemovesEmpty (quietEnv 0) sampleImage (joinPath [nameD]) 6 :=
  (removesEmpty_iff wellFormed_sampleImage (roomy_quietEnv 0) (quiet_quietEnv 0) plain_nameD
    (translate_of_descend (quiet_quietEnv 0) plain_nameD (roomy_quietEnv 0)
      (by rw [pathparse_nameD]; decide +kernel)) (by decide +kernel)).mpr (Or.inr (Or.inl (by decide +kernel)))

/-- A disk with a directory `d` of two blocks, the second of which holds the entry of a file `f`. -/
def deepImage : Fs :=
  imageOf 16 [2, 3, 4, 5, 6, 7]
    [(2, (inodeOf (S_IFDIR ||| 0o777) 4096 [3]).toBlock), (3, entriesOf [(nameD, 4)]),
      (4, (inodeOf (S_IFDIR ||| 0o777) 8192 [5, 6]).toBlock), (6, entriesOf [(nameF, 7)]),
      (7, (inodeOf (S_IFREG ||| 0o666) 0 []).toBlock)]

/-- `fs_rmdir` does not always do what it should: it removes a directory with an entry in its second block. -/
theorem removesEmpty_false :
    ¬∀ env fs path inum, env.Quiet → Roomy env.limits → Mounted fs → WellFormed fs → Plain path →
      (translate path env (.start fs)).1 = .ok (inum, inodeAt fs.disk inum) →
      S_ISDIR (inodeAt fs.disk inum).mode = true → RemovesEmpty env fs path inum := by
  intro h
  have hmeets := h (quietEnv 0) deepImage (joinPath [nameD]) 4 (quiet_quietEnv 0) (roomy_quietEnv 0)
    (mounted_of_disk (by decide) (by decide) rfl) (wellFormed_of_check (by decide +kernel)) plain_nameD
    (translate_of_descend (quiet_quietEnv 0) plain_nameD (roomy_quietEnv 0)
      (by rw [pathparse_nameD]; decide +kernel)) (by decide +kernel)
  have hnot : ¬EmptyDir deepImage.disk 4 := fun hempty => by
    have hedge : (tree deepImage.disk).edge 4 (1, 0) = some ([102], 7) := by decide +kernel
    cases hedge.symm.trans (hempty (1, 0))
  have heval : (Op.run (.rmdir (joinPath [nameD])) (quietEnv 0) deepImage).1 = .ok 0 := by decide +kernel
  cases heval.symm.trans (hmeets.nonempty hnot)

end Fs5600
