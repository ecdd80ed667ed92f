import Fs5600.Observe
import Fs5600.Check

/-! What `fs_unlink` leaves, as the other requests see it: the path is gone, the blocks of the file are free
again, and every other path leads where it led. -/

namespace Fs5600

open Ownership Command

theorem labels_injective {names names' : List CStr} (h : labels names = labels names') : names = names' :=
  List.map_injective_iff.mpr (fun _ _ => CStr.ext) h

/-! ### Paths after a change of one entry -/

section Entries

variable {env : Env} {fs fs' : Fs} {dir inum : Nat} {slot : Slot} {path : CStr} {label : List UInt8}

/-- No data block of a file is a block of a directory. -/
theorem data_of_keepsBut (hex : (tree fs.disk).Exclusive) (hdir : (tree fs.disk).Reach dir)
    (hslot : HasSlot fs.disk dir slot)
    (hkeep : KeepsBut (fun b => b = ((inodeAt fs.disk dir).ptrs slot.1).toNat) fs.disk fs'.disk) {n : Nat}
    (hn : (tree fs.disk).Reach n) (hreg : S_ISREG (inodeAt fs.disk n).mode = true) (i : Fin numPtrs)
    (hi : i.val < (inodeAt fs.disk n).numBlocks) :
    fs'.disk ((inodeAt fs.disk n).ptrs i).toNat = fs.disk ((inodeAt fs.disk n).ptrs i).toNat := by
  have hcell : (tree fs.disk).cell n i = some ((inodeAt fs.disk n).ptrs i).toNat := tree_cell_eq_some.mpr ⟨hi, rfl⟩
  refine hkeep _ (Graph.Uses.cell hn hcell).inUse fun heq => ?_
  cases hex _ _ _ (.cell hn hcell) (.cell hdir (heq ▸ hslot.cell))
  have hmode := hslot.1
  rw [S_ISDIR_eq_false_of_isReg hreg] at hmode
  cases hmode

/-- A path that leads to the same object after an entry of a directory has changed. -/
theorem sameFile_of_leads (hquiet : env.Quiet) (hlimits : Roomy env.limits) (hpath : Plain path)
    (hex : (tree fs.disk).Exclusive) (h : WellNamed fs.disk) (h' : WellNamed fs'.disk)
    (hdir : (tree fs.disk).Reach dir) (hslot : HasSlot fs.disk dir slot)
    (hkeep : KeepsBut (fun b => b = ((inodeAt fs.disk dir).ptrs slot.1).toNat) fs.disk fs'.disk)
    (hinodes : ∀ n, (tree fs.disk).Reach n → inodeAt fs'.disk n = inodeAt fs.disk n)
    (hleads : (tree fs.disk).Leads 2 (labels (pathparse path)) inum)
    (hleads' : (tree fs'.disk).Leads 2 (labels (pathparse path)) inum) : SameFile env fs fs' path := by
  have hreach : (tree fs.disk).Reach inum := hleads.reach .root
  refine sameFile_of_translateIn hquiet ((hpath.translateIn_eq_ok_iff hlimits h).mpr ⟨hleads, rfl⟩)
    ((hpath.translateIn_eq_ok_iff hlimits h').mpr ⟨hleads', (hinodes inum hreach).symm⟩) fun hreg => ?_
  exact data_of_keepsBut hex hdir hslot hkeep hreach hreg

theorem Detached.hasSlot (h : Detached fs fs' dir slot label inum) : HasSlot fs.disk dir slot :=
  (tree_edge_eq_some.mp h.edge).1

theorem Detached.terminated (h : Detached fs fs' dir slot label inum) (hterm : Terminated fs.disk) :
    Terminated fs'.disk := by
  intro n s l m hn he
  exact hterm n s l m (h.removes.reach hn) (h.removes.edge_of_edge (h.removes.reach hn) he).2

theorem Detached.wellNamed (h : Detached fs fs' dir slot label inum) (hnamed : WellNamed fs.disk) :
    WellNamed fs'.disk where
  fits := h.allInodes hnamed.fits
  unique := h.removes.uniqueLabels hnamed.unique
  terminated := h.terminated hnamed.terminated

/-- The parent of an object that has no entries is another object. -/
theorem Detached.reach_dir (h : Detached fs fs' dir slot label inum) (hex : (tree fs.disk).Exclusive)
    (hleaf : ∀ s, (tree fs.disk).edge inum s = none) : (tree fs'.disk).Reach dir := by
  refine (h.removes.reach_iff hex h.reach h.edge hleaf).mpr ⟨h.reach, ?_⟩
  rintro rfl
  cases (hleaf slot).symm.trans h.edge

/-- Looking up what was removed ends with `-ENOENT`. -/
theorem Detached.translateIn_gone (h : Detached fs fs' dir slot label inum) (hex : (tree fs.disk).Exclusive)
    (hnamed : WellNamed fs.disk) (hleaf : ∀ s, (tree fs.disk).edge inum s = none) (hlimits : Roomy env.limits)
    (hpath : Plain path) {init : List CStr} {name : CStr} (hsplit : pathparse path = init ++ [name])
    (hname : label = name.bytes) (hinit : (tree fs.disk).Leads 2 (labels init) dir) :
    translateIn env.limits fs'.disk path = .error (.errno .ENOENT) := by
  subst hname
  have hdir := h.reach_dir hex hleaf
  have hnamed' := h.wellNamed hnamed
  have hinit' : (tree fs'.disk).Leads 2 (labels init) dir := by
    refine (h.removes.leads_root_iff hex h.reach h.edge hleaf).mpr ⟨hinit, ?_⟩
    rintro rfl
    cases (hleaf slot).symm.trans h.edge
  have hnone : ∀ s m, (tree fs'.disk).edge dir s ≠ some (name.bytes, m) := by
    intro s m hedge
    obtain ⟨hne, hold⟩ := h.removes.edge_of_edge h.reach hedge
    exact hne ⟨rfl, hnamed.unique _ _ _ _ _ _ h.reach hold h.edge⟩
  have hmode : S_ISDIR (inodeAt fs'.disk dir).mode = true := by rw [h.inodes dir h.reach, h.mode]
  have hchild : childIn fs'.disk dir name = .error (.errno .ENOENT) := by
    rw [childIn, hmode, hnamed'.search_of_not_edge hdir hmode hnone]
    rfl
  rw [translateIn_eq hpath.names (hpath.stack hlimits), hsplit, descend_append,
    hnamed'.descend_root_iff.mpr hinit']
  change (descend fs'.disk dir [name]).map _ = _
  rw [descend_singleton, hchild]
  rfl

/-- The other paths lead where they led, after an object without entries is removed. -/
theorem Detached.leads_iff (h : Detached fs fs' dir slot label inum) (hex : (tree fs.disk).Exclusive)
    (hleaf : ∀ s, (tree fs.disk).edge inum s = none) {path' : CStr}
    (hleads : (tree fs.disk).Leads 2 (labels (pathparse path)) inum) (hne : pathparse path' ≠ pathparse path)
    {n : Nat} : (tree fs'.disk).Leads 2 (labels (pathparse path')) n ↔
      (tree fs.disk).Leads 2 (labels (pathparse path')) n := by
  have hiff := @Graph.RemovesEdge.leads_root_iff _ _ _ _ _ _ _ _ h.removes _ _ hex h.reach h.edge hleaf
    (labels (pathparse path')) n
  refine hiff.trans (and_iff_left_of_imp fun hn => ?_)
  rintro rfl
  exact hne (labels_injective (hex.leads_injective hn hleads))

/-- What a path leads to is found in the directory that the names before the last one lead to. -/
theorem Plain.exists_parent (hpath : Plain path) (hleads : (tree fs.disk).Leads 2 (labels (pathparse path)) inum) :
    ∃ init name dir slot, pathparse path = init ++ [name] ∧ (tree fs.disk).Leads 2 (labels init) dir ∧
      (tree fs.disk).edge dir slot = some (name.bytes, inum) := by
  obtain ⟨init, name, hsplit⟩ := hpath.exists_split
  rw [hsplit, labels, List.map_append] at hleads
  obtain ⟨dir, slot, hinit, hedge⟩ := Graph.leads_snoc.mp hleads
  exact ⟨init, name, dir, slot, hsplit, hinit, hedge⟩

end Entries

/-! ### `fs_unlink` -/

/-- What is true after a file has been removed. -/
structure Unlinked (env : Env) (fs fs' : Fs) (path : CStr) (inum : Nat) : Prop where
  gone : (fsGetattr path env (.start fs')).1 = .error (.errno .ENOENT)
  changed : ∀ b, bitTest fs'.bitmap b ≠ bitTest fs.bitmap b ↔ Owned fs.disk inum b
  cleared : ∀ b, Owned fs.disk inum b → bitTest fs'.bitmap b = false
  saved : fs'.disk 1 = fs'.bitmap
  others : ∀ path', Plain path' → pathparse path' ≠ pathparse path → ∀ found,
    (translate path' env (.start fs)).1 = .ok found → SameFile env fs fs' path'
  missing : ∀ path', Plain path' → pathparse path' ≠ pathparse path → ∀ reason,
    (translate path' env (.start fs)).1 = .error reason → ∃ reason', (translate path' env (.start fs')).1 = .error reason'

section Unlink

variable {env : Env} {fs fs' : Fs} {dir inum : Nat} {slot : Slot} {path : CStr} {label : List UInt8}
  {released : List Nat}

/-- The bits of the blocks that an object owned are those that a removal changes, where it frees them. -/
theorem Removed.bitTest_iff (h : Removed fs fs' dir slot label inum released) (hsound : Sound fs)
    (hmem : ∀ b, b ∈ released ↔ Owned fs.disk inum b) (hreach : (tree fs.disk).Reach inum) (b : Nat) :
    (bitTest fs'.bitmap b ≠ bitTest fs.bitmap b ↔ Owned fs.disk inum b) ∧
      (Owned fs.disk inum b → bitTest fs'.bitmap b = false) := by
  have hmark : Owned fs.disk inum b → bitTest fs.bitmap b = true := by
    rintro (rfl | ⟨i, hcell⟩)
    · exact hsound.marked _ hreach.inUse
    · exact hsound.marked _ (Graph.Uses.cell hreach hcell).inUse
  rw [h.bitmap, bitTest_clearAll]
  by_cases howned : Owned fs.disk inum b
  · simp [(hmem b).mpr howned, howned, hmark howned]
  · simp [mt (hmem b).mp howned, howned]

theorem unlinked_of_removed (hquiet : env.Quiet) (hlimits : Roomy env.limits) (h : WellFormed fs) (hpath : Plain path)
    {init : List CStr} {name : CStr} (hsplit : pathparse path = init ++ [name])
    (hinit : (tree fs.disk).Leads 2 (labels init) dir) (hremoved : Removed fs fs' dir slot name.bytes inum released)
    (hfile : S_ISDIR (inodeAt fs.disk inum).mode = false)
    (hmem : ∀ b, b ∈ released ↔ Owned fs.disk inum b) : Unlinked env fs fs' path inum := by
  have hdetached := hremoved.toDetached
  have hleaf := tree_edge_of_not_dir hfile
  have hnamed := h.toWellNamed
  have hleads : (tree fs.disk).Leads 2 (labels (pathparse path)) inum := by
    rw [hsplit, labels, List.map_append]
    exact Graph.leads_snoc.mpr ⟨dir, slot, hinit, hremoved.edge⟩
  have hreach : (tree fs.disk).Reach inum := hleads.reach .root
  refine ⟨?_, fun b => (hremoved.bitTest_iff h.toSound hmem hreach b).1,
    fun b => (hremoved.bitTest_iff h.toSound hmem hreach b).2, hremoved.saved, ?_, ?_⟩
  · rw [fsGetattr_value hquiet, hdetached.translateIn_gone h.exclusive hnamed hleaf hlimits hpath hsplit rfl hinit]
    rfl
  · rintro path' hpath' hne ⟨n, inode⟩ htranslate
    rw [translate_value hquiet] at htranslate
    obtain ⟨hn, -⟩ := (hpath'.translateIn_eq_ok_iff hlimits hnamed).mp htranslate
    exact sameFile_of_leads hquiet hlimits hpath' h.exclusive hnamed (hdetached.wellNamed hnamed) hremoved.reach
      hdetached.hasSlot hremoved.disk hremoved.inodes hn ((hdetached.leads_iff h.exclusive hleaf hleads hne).mpr hn)
  · intro path' hpath' hne reason htranslate
    rw [translate_value hquiet] at htranslate ⊢
    rcases hnew : translateIn env.limits fs'.disk path' with reason' | ⟨n, inode⟩
    · exact ⟨reason', rfl⟩
    · obtain ⟨hn, -⟩ := (hpath'.translateIn_eq_ok_iff hlimits (hdetached.wellNamed hnamed)).mp hnew
      have hold := (hpath'.translateIn_eq_ok_iff hlimits hnamed).mpr
        ⟨(hdetached.leads_iff h.exclusive hleaf hleads hne).mp hn, rfl⟩
      cases htranslate.symm.trans hold

/-- `fs_unlink` removes the file that the path names, and nothing else. -/
theorem unlinked_of_run (h : WellFormed fs) (hlimits : Roomy env.limits) (hquiet : env.Quiet) (hpath : Plain path)
    (htranslate : (translate path env (.start fs)).1 = .ok (inum, inodeAt fs.disk inum))
    (hfile : S_ISDIR (inodeAt fs.disk inum).mode = false) :
    (Op.run (.unlink path) env fs).1 = .ok 0 ∧ Unlinked env fs (Op.run (.unlink path) env fs).2.fs path inum := by
  rw [translate_value hquiet] at htranslate
  obtain ⟨hleads, -⟩ := (hpath.translateIn_eq_ok_iff hlimits h.toWellNamed).mp htranslate
  obtain ⟨init, name, dir, slot, hsplit, hinit, hedge⟩ := hpath.exists_parent hleads
  have hdir : (tree fs.disk).Reach dir := hinit.reach .root
  have hmode := (tree_edge_eq_some.mp hedge).1.1
  obtain ⟨hit, hsearch, -, rfl⟩ := h.search_of_edge hdir hedge
  have hparent := (hpath.parentDirIn_eq_ok_iff hlimits h.toWellNamed hsplit).mpr ⟨rfl, dir, hinit, hmode, rfl⟩
  have hdoes := does_fsUnlink h.toSound h.fits htranslate hfile hparent hdir hmode hsearch
  obtain ⟨hvalue, hfs⟩ : (Op.run (.unlink path) env fs).1 = _ ∧ (Op.run (.unlink path) env fs).2.fs = _ :=
    run_of_does hdoes hquiet
  refine ⟨hvalue, ?_⟩
  rw [hfs]
  exact unlinked_of_removed hquiet hlimits h hpath hsplit hinit
    (removed_of_plan h.toSound hdir hmode hsearch _) hfile fun b => mem_released h.toSound h.fits (hleads.reach .root)

end Unlink

/-- The file `f` of the sample disk is removed. -/
theorem unlinked_of_run_sampleImage :
    (Op.run (.unlink (joinPath [nameF])) (quietEnv 0) sampleImage).1 = .ok 0 ∧
      Unlinked (quietEnv 0) sampleImage (Op.run (.unlink (joinPath [nameF])) (quietEnv 0) sampleImage).2.fs
        (joinPath [nameF]) 4 :=
  unlinked_of_run wellFormed_sampleImage (roomy_quietEnv 0) (quiet_quietEnv 0) plain_nameF translate_sampleImage
    (by decide +kernel)

end Fs5600
