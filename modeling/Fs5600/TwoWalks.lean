import Fs5600.Ascent
import Fs5600.Accounting

/-! The two walks of `fs_unlink` and `fs_rmdir`. The inode to free is found by `translate` on the path, the entry
to invalidate by a search in the parent of the resolved path. The requests remove one object exactly where the
two agree, and where `fs_rmdir` frees no block of another object. -/

namespace Fs5600

open Ownership Command

/-- One entry is gone, the inode it stored is the one inode whose bit was cleared, and every block still in use
is marked. -/
structure RemovesOne (fs fs' : Fs) (dir : Nat) (slot : Slot) (label : List UInt8) (inum : Nat) : Prop where
  reach : (tree fs.disk).Reach dir
  before : (tree fs.disk).edge dir slot = some (label, inum)
  after : (tree fs'.disk).edge dir slot = none
  others : ∀ n s, (tree fs.disk).Reach n → (tree fs.disk).edge n s ≠ none → (tree fs'.disk).edge n s = none →
    n = dir ∧ s = slot
  cleared : bitTest fs.bitmap inum = true ∧ bitTest fs'.bitmap inum = false
  only : ∀ n, (tree fs.disk).Reach n → bitTest fs.bitmap n = true → bitTest fs'.bitmap n = false → n = inum
  marked : ∀ b, (tree fs'.disk).InUse b → bitTest fs'.bitmap b = true

/-- Exactly one object is removed. -/
def RemovesExactlyOne (fs fs' : Fs) : Prop := ∃ dir slot label inum, RemovesOne fs fs' dir slot label inum

/-- The directory that the resolved names lead to has no data block, and its `ptrs[0]` is left over and names a
block in use of another object. -/
def StaleDir (fs : Fs) (path : CStr) : Prop :=
  ∃ inum, (tree fs.disk).Leads 2 (labels (resolvePath (pathparse path))) inum ∧
    (inodeAt fs.disk inum).numBlocks = 0 ∧ ((inodeAt fs.disk inum).ptrs 0).toNat ≠ inum ∧
    (tree fs.disk).InUse ((inodeAt fs.disk inum).ptrs 0).toNat

section Removal

variable {fs fs' : Fs} {dir inum : Nat} {slot : Slot} {label : List UInt8} {released : List Nat}

/-- A removal that frees the object of the entry, and no other object. -/
theorem Removed.removesOne (h : Removed fs fs' dir slot label inum released) (hsound : Sound fs)
    (hmem : inum ∈ released) (hfree : ∀ b ∈ released, ¬(tree fs'.disk).InUse b)
    (hown : ∀ b ∈ released, b = inum ∨ ¬(tree fs.disk).Reach b) : RemovesOne fs fs' dir slot label inum := by
  have hbit : ∀ b, bitTest fs'.bitmap b = (!decide (b ∈ released) && bitTest fs.bitmap b) := fun b => by
    rw [h.bitmap, bitTest_clearAll]
  have hinum := h.reach.step h.edge
  refine ⟨h.reach, h.edge, h.removes.gone, fun n s hn hold hnew => ?_, ⟨hsound.marked _ hinum.inUse, ?_⟩,
    fun n hn hmark hclear => ?_, fun b hb => ?_⟩
  · by_contra hne
    exact hold ((h.removes.edge n s hn hne).symm.trans hnew)
  · rw [hbit, decide_eq_true hmem]
    rfl
  · rw [hbit, hmark, Bool.and_true, Bool.not_eq_false', decide_eq_true_iff] at hclear
    exact (hown n hclear).resolve_right (not_not.mpr hn)
  · have hnot : b ∉ released := fun hrel => hfree b hrel hb
    rw [hbit, decide_eq_false hnot, hsound.marked b (h.toDetached.inUse hb)]
    rfl

end Removal

/-! ### Where the walks agree -/

section Agree

variable {limits : Limits} {fs : Fs} {path name : CStr} {inum dir : Nat} {found : Option Hit}

/-- The parent directory and the last name, found by the second walk. -/
structure SecondWalk (limits : Limits) (fs : Fs) (path name : CStr) (dir : Nat) (found : Option Hit) : Prop where
  parent : parentDirIn limits fs.disk path = .ok (name, inodeAt fs.disk dir)
  reach : (tree fs.disk).Reach dir
  search : searchDirIn (hasName name) (inodeAt fs.disk dir) fs.disk = .ok found

theorem SecondWalk.mode (h : SecondWalk limits fs path name dir found) :
    S_ISDIR (inodeAt fs.disk dir).mode = true := by
  obtain ⟨-, -, -, -, -, hmode⟩ := parentDirIn_eq_ok h.parent
  exact hmode

/-- An entry that the second walk finds is what the resolved names lead to. -/
theorem SecondWalk.descend {hit : Hit} (h : SecondWalk limits fs path name dir (some hit)) :
    descend fs.disk 2 (resolvePath (pathparse path)) = .ok hit.entry.inode.toNat := by
  obtain ⟨init, dir', hsplit, hinit, hinode, hmode⟩ := parentDirIn_eq_ok h.parent
  have hsearch := h.search
  rw [hinode] at hsearch hmode
  rw [hsplit, descend_append, hinit]
  exact descend_singleton.trans (childIn_of_search hmode hsearch)

/-- Where the resolved names lead somewhere, the second walk finds the entry. -/
theorem SecondWalk.hit (h : SecondWalk limits fs path name dir found)
    (hdescend : Fs5600.descend fs.disk 2 (resolvePath (pathparse path)) = .ok inum) :
    ∃ hit, found = some hit ∧ hit.entry.inode.toNat = inum := by
  obtain ⟨hit, hsearch, hinum⟩ := search_of_resolved hdescend h.parent
  exact ⟨hit, Except.ok.inj (h.search.symm.trans hsearch), hinum⟩

/-- Where the last ascent does not end in the root directory, `translate` finds another object than the
resolved names lead to. -/
theorem ne_of_not_endsAtRoot (hex : (tree fs.disk).Exclusive) (hends : ¬EndsAtRoot (pathparse path))
    {inode : Inode} (h : translateIn limits fs.disk path = .ok (inum, inode)) :
    descend fs.disk 2 (resolvePath (pathparse path)) ≠ .ok inum := by
  intro hdescend
  obtain ⟨st, hwalk, hfound⟩ := exceptBind_eq_ok h
  obtain ⟨rfl, -⟩ := Prod.mk.inj (Except.ok.inj hfound)
  have htracks : Tracks (resolvePath (pathparse path)) st := tracks_start.walk hwalk
  obtain ⟨down, hhigh, hbehind⟩ := walk_high hwalk
  have hlow := hbehind.resolve_right hends
  have hlabels := hex.leads_injective (leads_of_descend hhigh.current) (leads_of_descend hdescend)
  have hlength : down.length = (resolvePath (pathparse path)).length := by
    simpa using congrArg List.length hlabels
  have hdepth := htracks.depth
  omega

end Agree

/-! ### The two requests -/

section Requests

variable {env : Env} {fs : Fs} {op : Op} {path name : CStr} {inum dir : Nat} {found : Option Hit}

/-- The second walk finds no entry, or that of another object than the one to free. -/
theorem not_removesExactlyOne {limits : Limits} (h : Sound fs) (hsecond : SecondWalk limits fs path name dir found)
    (hreach : (tree fs.disk).Reach inum)
    (hother : descend fs.disk 2 (resolvePath (pathparse path)) ≠ .ok inum) {bits : List Nat} (hmem : inum ∈ bits) :
    ¬RemovesExactlyOne fs (fs.replay (removal (inodeAt fs.disk dir) found ++ release fs.bitmap bits)) := by
  rintro ⟨n, s, label, m, hone⟩
  have hsaved : (fs.replay (removal (inodeAt fs.disk dir) found)).bitmap = fs.bitmap := removal_bitmap _ _
  have hbitmap : (fs.replay (removal (inodeAt fs.disk dir) found ++ release fs.bitmap bits)).bitmap =
      clearAll fs.bitmap bits := by
    rw [Fs.replay_append, ← hsaved, replay_release]
  have hclear : bitTest (clearAll fs.bitmap bits) inum = false := by
    rw [bitTest_clearAll, decide_eq_true hmem]
    rfl
  obtain rfl : inum = m := hone.only inum hreach (h.marked inum hreach.inUse) (hbitmap ▸ hclear)
  rcases found with _ | hit
  · have hkeep : KeepsBut (IsData fs.disk) fs.disk
        (fs.replay (removal (inodeAt fs.disk dir) none ++ release fs.bitmap bits)).disk := by
      intro b hb _
      have hrange := (h.range b hb).1
      rw [removal, List.nil_append, replay_release]
      exact Function.update_of_ne (by omega) _ _
    have hafter := hone.after
    rw [hkeep.edge h.exclusive hone.reach, hone.before] at hafter
    cases hafter
  · have hremoved := removed_of_plan h hsecond.reach hsecond.mode hsecond.search bits
    obtain ⟨rfl, rfl⟩ := hone.others _ _ hremoved.reach (by rw [hremoved.edge]; exact Option.some_ne_none _)
      hremoved.removes.gone
    obtain ⟨-, hsame⟩ := Prod.mk.inj (Option.some.inj (hone.before.symm.trans hremoved.edge))
    exact hother (hsame ▸ hsecond.descend)

theorem unlink_removesOne_iff (h : WellFormed fs) (hvalue : (Op.run (.unlink path) env fs).1 = .ok 0) :
    RemovesExactlyOne fs (Op.run (.unlink path) env fs).2.fs ↔ EndsAtRoot (pathparse path) := by
  have hattempts : Attempts (fun _ => False) env fs (Op.unlink path).call _ := .of_acts (acts_fsUnlink h.toSound h.fits path)
  obtain ⟨plan, hpost, hfs⟩ := replay_of_success hattempts hvalue
  rw [hfs]
  cases hpost with
  | @done inum dir name found htranslate hfile hparent hdir hsearch =>
      have hsecond : SecondWalk env.limits fs path name dir found := ⟨hparent, hdir, hsearch⟩
      have hreach := (reach_of_translateIn htranslate).1
      have hmem := fun b => @mem_released fs inum h.toSound h.fits hreach b
      by_cases hends : EndsAtRoot (pathparse path)
      · refine iff_of_true ?_ hends
        obtain ⟨hit, rfl, rfl⟩ := hsecond.hit (descend_of_endsAtRoot hends htranslate)
        have hremoved := removed_of_plan h.toSound hdir hsecond.mode hsearch
          (freed (inodeAt fs.disk hit.entry.inode.toNat) (inodeAt fs.disk hit.entry.inode.toNat).numBlocks 0 ++
            [hit.entry.inode.toNat])
        refine ⟨_, _, _, _, hremoved.removesOne h.toSound ((hmem _).mpr (Or.inl rfl)) (fun b hb => ?_) fun b hb => ?_⟩
        · rcases (hmem b).mp hb with rfl | ⟨i, hcell⟩
          · exact hremoved.removes.not_inUse h.exclusive hdir hremoved.edge
          · exact hremoved.removes.not_inUse_cell h.exclusive hdir hremoved.edge hcell
        · exact ((hmem b).mp hb).imp_right fun ⟨i, hcell⟩ hb' => h.exclusive.cell_ne_node hreach hcell hb' rfl
      · refine iff_of_false ?_ hends
        exact not_removesExactlyOne h.toSound hsecond hreach (ne_of_not_endsAtRoot h.exclusive hends htranslate)
          ((hmem inum).mpr (Or.inl rfl))

/-- The removal of a directory with a left-over `ptrs[0]` that is in use elsewhere frees that block. -/
theorem not_removesExactlyOne_of_stale {fs' : Fs} {slot : Slot} {label : List UInt8} (h : WellFormed fs)
    (hremoved : Removed fs fs' dir slot label inum [((inodeAt fs.disk inum).ptrs 0).toNat, inum])
    (hempty : (inodeAt fs.disk inum).numBlocks = 0) (hne : ((inodeAt fs.disk inum).ptrs 0).toNat ≠ inum)
    (huse : (tree fs.disk).InUse ((inodeAt fs.disk inum).ptrs 0).toNat) : ¬RemovesExactlyOne fs fs' := by
  rintro ⟨n, s, l, m, hone⟩
  have hleaf : ∀ s, (tree fs.disk).edge inum s = none := edge_of_empty hempty
  have hstill := (hremoved.removes.inUse_iff h.exclusive hremoved.reach hremoved.edge hleaf).mpr
    ⟨huse, hne, fun i hcell => by
      have hlt := (tree_cell_eq_some.mp hcell).1
      omega⟩
  have hmark := hone.marked _ hstill
  rw [hremoved.bitmap, bitTest_clearAll, decide_eq_true List.mem_cons_self] at hmark
  cases hmark

/-- The removal of a directory frees blocks of its own, unless it has none and `ptrs[0]` is in use elsewhere. -/
theorem removesOne_of_dir {fs' : Fs} {slot : Slot} {label : List UInt8} (h : WellFormed fs)
    (hremoved : Removed fs fs' dir slot label inum [((inodeAt fs.disk inum).ptrs 0).toNat, inum])
    (hfresh : (inodeAt fs.disk inum).numBlocks = 0 → ((inodeAt fs.disk inum).ptrs 0).toNat ≠ inum →
      ¬(tree fs.disk).InUse ((inodeAt fs.disk inum).ptrs 0).toNat) : RemovesOne fs fs' dir slot label inum := by
  have hgone := hremoved.removes.not_inUse h.exclusive hremoved.reach hremoved.edge
  have hcell : (inodeAt fs.disk inum).numBlocks ≠ 0 →
      (tree fs.disk).cell inum 0 = some ((inodeAt fs.disk inum).ptrs 0).toNat := fun hne =>
    tree_cell_eq_some.mpr ⟨show (0 : Fin numPtrs).val < _ from Nat.pos_of_ne_zero hne, rfl⟩
  refine hremoved.removesOne h.toSound (List.mem_cons_of_mem _ List.mem_cons_self) (fun b hb huse => ?_) fun b hb => ?_
  · rcases List.mem_cons.mp hb with rfl | hb
    · by_cases hempty : (inodeAt fs.disk inum).numBlocks = 0
      · exact hfresh hempty (fun heq => hgone (heq ▸ huse)) (hremoved.toDetached.inUse huse)
      · exact hremoved.removes.not_inUse_cell h.exclusive hremoved.reach hremoved.edge (hcell hempty) huse
    · exact hgone (List.mem_singleton.mp hb ▸ huse)
  · rcases List.mem_cons.mp hb with rfl | hb
    · by_cases heq : ((inodeAt fs.disk inum).ptrs 0).toNat = inum
      · exact Or.inl heq
      · refine Or.inr fun hnode => ?_
        by_cases hempty : (inodeAt fs.disk inum).numBlocks = 0
        · exact hfresh hempty heq hnode.inUse
        · exact h.exclusive.cell_ne_node (hremoved.reach.step hremoved.edge) (hcell hempty) hnode rfl
    · exact Or.inl (List.mem_singleton.mp hb)

theorem rmdir_removesOne_iff (h : WellFormed fs) (hvalue : (Op.run (.rmdir path) env fs).1 = .ok 0) :
    RemovesExactlyOne fs (Op.run (.rmdir path) env fs).2.fs ↔ EndsAtRoot (pathparse path) ∧ ¬StaleDir fs path := by
  have hattempts : Attempts (fun _ => False) env fs (Op.rmdir path).call _ := .of_acts (acts_fsRmdir h.toSound path)
  obtain ⟨plan, hpost, hfs⟩ := replay_of_success hattempts hvalue
  rw [hfs]
  cases hpost with
  | @done inum dir found hat hbit =>
      obtain ⟨name, hparent, hsearch⟩ := hat.parent
      have hsecond : SecondWalk env.limits fs path name dir found := ⟨hparent, hat.reach, hsearch⟩
      have hreach := (reach_of_translateIn hat.translate).1
      by_cases hends : EndsAtRoot (pathparse path)
      · have hdescend := descend_of_endsAtRoot hends hat.translate
        have hleads := leads_of_descend hdescend
        obtain ⟨hit, rfl, rfl⟩ := hsecond.hit hdescend
        have hremoved := removed_of_plan h.toSound hat.reach hsecond.mode hsearch
          [((inodeAt fs.disk hit.entry.inode.toNat).ptrs 0).toNat, hit.entry.inode.toNat]
        by_cases hstale : StaleDir fs path
        · refine iff_of_false ?_ fun hcond => hcond.2 hstale
          obtain ⟨m, hm, hempty, hne, huse⟩ := hstale
          obtain rfl := h.unique.leads_unique .root hm hleads
          exact not_removesExactlyOne_of_stale h hremoved hempty hne huse
        · refine iff_of_true ⟨_, _, _, _, removesOne_of_dir h hremoved fun hempty hne huse => ?_⟩ ⟨hends, hstale⟩
          exact hstale ⟨_, hleads, hempty, hne, huse⟩
      · refine iff_of_false ?_ fun hcond => hends hcond.1
        exact not_removesExactlyOne h.toSound hsecond hreach
          (ne_of_not_endsAtRoot h.exclusive hends hat.translate) (by simp)

/-- `fs_unlink` and `fs_rmdir` that succeed remove exactly one object where the last ascent of the path ends in
the root directory and no left-over pointer of an empty directory is in use. -/
theorem removesExactlyOne_iff (h : WellFormed fs) (hop : op = .unlink path ∨ op = .rmdir path)
    (hvalue : (op.run env fs).1 = .ok 0) : RemovesExactlyOne fs (op.run env fs).2.fs ↔
      EndsAtRoot (pathparse path) ∧ ¬(op = .rmdir path ∧ StaleDir fs path) := by
  rcases hop with rfl | rfl
  · rw [unlink_removesOne_iff h hvalue]
    exact (and_iff_left (by rintro ⟨heq, -⟩; cases heq)).symm
  · rw [rmdir_removesOne_iff h hvalue]
    simp

end Requests

/-- The file `f` of the sample disk is removed. -/
theorem removesExactlyOne_iff_sampleImage :
    RemovesExactlyOne sampleImage (Op.run (.unlink (joinPath [nameF])) (quietEnv 0) sampleImage).2.fs := by
  have hvalue : (Op.run (.unlink (joinPath [nameF])) (quietEnv 0) sampleImage).1 = .ok 0 := by decide +kernel
  refine (removesExactlyOne_iff wellFormed_sampleImage (Or.inl rfl) hvalue).mpr ⟨?_, by rintro ⟨heq, -⟩; cases heq⟩
  rw [pathparse_nameF]
  exact ⟨[], [nameF], rfl, rfl, by decide⟩

/-- A disk with a file `f` and a directory `d` that holds another directory `d`. -/
def twoWalksImage : Fs :=
  imageOf 16 [2, 3, 4, 5, 6, 7, 8]
    [(2, (inodeOf (S_IFDIR ||| 0o777) 4096 [3]).toBlock), (3, entriesOf [(nameD, 4), (nameF, 8)]),
      (4, (inodeOf (S_IFDIR ||| 0o777) 4096 [5]).toBlock), (5, entriesOf [(nameD, 6)]),
      (6, (inodeOf (S_IFDIR ||| 0o777) 4096 [7]).toBlock), (8, (inodeOf (S_IFREG ||| 0o666) 0 []).toBlock)]

/-- Not every request that succeeds removes one object: `/d/d/../f` leads `translate` to the file `f` of the root
directory, which is freed, and no entry `f` of `/d` is there to invalidate. -/
theorem removesExactlyOne_false :
    ¬∀ env fs path (op : Op), Mounted fs → WellFormed fs → (op = .unlink path ∨ op = .rmdir path) →
      (pathparse path).length < maxPathLen → resolvePath (pathparse path) ≠ [] → (op.run env fs).1 = .ok 0 →
        RemovesExactlyOne fs (op.run env fs).2.fs := by
  intro h
  have hparse : pathparse (joinPath [nameD, nameD, dotdot, nameF]) = [nameD, nameD, dotdot, nameF] :=
    pathparse_joinPath (by decide)
  have hvalue : (Op.run (.unlink (joinPath [nameD, nameD, dotdot, nameF])) (quietEnv 0) twoWalksImage).1 = .ok 0 := by
    decide +kernel
  obtain ⟨n, s, label, m, hone⟩ := h (quietEnv 0) twoWalksImage _ _ (mounted_of_disk (by decide) (by decide) rfl)
    (wellFormed_of_check (by decide +kernel)) (Or.inl rfl) (by rw [hparse]; decide) (by rw [hparse]; decide) hvalue
  have heval : (tree (Op.run (.unlink (joinPath [nameD, nameD, dotdot, nameF])) (quietEnv 0) twoWalksImage).2.fs.disk).edge
        2 (0, 0) = some (nameF.bytes, 8) ∧
      bitTest (Op.run (.unlink (joinPath [nameD, nameD, dotdot, nameF])) (quietEnv 0) twoWalksImage).2.fs.bitmap 8 =
        false := by
    decide +kernel
  have huse := (Graph.Uses.edge .root heval.1).inUse
  cases heval.2.symm.trans (hone.marked 8 huse)

end Fs5600
