import Fs5600.Phases

/-! What `fs_unlink` and `fs_rmdir` do in a sound file system. -/

namespace Fs5600

open Ownership Command

/-- The write of `removeEntry`: the entry that was found, invalidated. -/
def removal (dir : Inode) : Option Hit → List Event
  | none => []
  | some hit => [.blockWrite (dir.ptrs hit.index).toNat (hit.block.setDirent hit.slot hit.entry.invalidate)]

/-- The end of `fs_unlink` and `fs_rmdir`: clear bits in memory and write the bitmap. -/
def release (map : Block) (bits : List Nat) : List Event :=
  bits.map .bitClear ++ [.blockWrite 1 (clearAll map bits)]

section Parts

variable {env : Env} {fs : Fs}

theorem does_removeEntry {dir : Inode} {name : CStr} {found : Option Hit}
    (hsearch : searchDirIn (hasName name) dir fs.disk = .ok found)
    (hwritable : ∀ hit, found = some hit → Writable (dir.ptrs hit.index).toNat) :
    Does env fs (removeEntry dir name) (.ok ()) (removal dir found) := by
  unfold removeEntry
  apply does_read_bind (hsearch ▸ reads_searchDir)
  cases found with
  | none => exact Follows.pure ()
  | some hit => exact does_blockWrite (hwritable hit rfl) _

theorem removal_bitmap (dir : Inode) (found : Option Hit) :
    (fs.replay (removal dir found)).bitmap = fs.bitmap := by
  cases found <;> rfl

/-- Clearing one last bit and writing the bitmap. -/
theorem does_release {bits : List Nat} {clear : Call Unit} {last : Nat}
    (hclear : Does env fs clear (.ok ()) (bits.map .bitClear)) (hlast : last < bitmapBits) :
    Does env fs (do
      clear
      bitmapClear last
      bitmapWrite
      pure (0 : Int)) (.ok 0) (release fs.bitmap (bits ++ [last])) := by
  have hwrite : ∀ fs' : Fs, Does env fs' (do
      bitmapWrite
      pure (0 : Int)) (.ok 0) [.blockWrite 1 fs'.bitmap] := fun fs' =>
    does_bind does_bitmapWrite (Follows.pure 0)
  have hmap : ((fs.replay (bits.map .bitClear)).replay [.bitClear last]).bitmap =
      clearAll fs.bitmap (bits ++ [last]) := by
    simp [replay_bitClears, Fs.apply, clearAll]
  rw [release, List.map_append, List.append_assoc, ← hmap]
  exact does_bind hclear (does_bind (does_bitmapClear hlast) (hwrite _))

/-- The data blocks of an object in a sound file system have bits. -/
theorem Sound.block_lt (h : Sound fs) (hfits : Fits fs.disk) {inum i : Nat} (hreach : (tree fs.disk).Reach inum)
    (hi : i < (inodeAt fs.disk inum).numBlocks) : (inodeAt fs.disk inum).block i < bitmapBits := by
  have hi' : i < numPtrs := hi.trans_le (hfits inum hreach)
  rw [Inode.block, dif_pos hi']
  exact bitTest_lt (h.marked _ (Graph.Uses.cell hreach (tree_cell_eq_some.mpr ⟨hi, rfl⟩)).inUse)

end Parts

/-! ### `fs_unlink` -/

/-- How `fs_unlink` ends: early, or with the entry it found invalidated and the blocks of the inode it
found marked free. -/
inductive Unlink (limits : Limits) (fs : Fs) (path : CStr) : Except Stop Int → List Event → Prop
  | stops (reason : Stop) : Unlink limits fs path (.error reason) []
  | done {inum dir : Nat} {name : CStr} {found : Option Hit}
      (htranslate : translateIn limits fs.disk path = .ok (inum, inodeAt fs.disk inum))
      (hfile : S_ISDIR (inodeAt fs.disk inum).mode = false)
      (hparent : parentDirIn limits fs.disk path = .ok (name, inodeAt fs.disk dir))
      (hdir : (tree fs.disk).Reach dir)
      (hsearch : searchDirIn (hasName name) (inodeAt fs.disk dir) fs.disk = .ok found) :
      Unlink limits fs path (.ok 0) (removal (inodeAt fs.disk dir) found ++
        release fs.bitmap (freed (inodeAt fs.disk inum) (inodeAt fs.disk inum).numBlocks 0 ++ [inum]))

/-- The part of `fs_unlink` that changes something. -/
theorem does_unlinkEntry {env : Env} {fs : Fs} (h : Sound fs) (hfits : Fits fs.disk) {inum dir : Nat} {name : CStr}
    {found : Option Hit} (hreach : (tree fs.disk).Reach inum) (hdir : (tree fs.disk).Reach dir)
    (hmode : S_ISDIR (inodeAt fs.disk dir).mode = true)
    (hsearch : searchDirIn (hasName name) (inodeAt fs.disk dir) fs.disk = .ok found) :
    Does env fs (do
        removeEntry (inodeAt fs.disk dir) name
        freeLoop (inodeAt fs.disk inum) (inodeAt fs.disk inum).numBlocks 0
        bitmapClear inum
        bitmapWrite
        pure (0 : Int)) (.ok 0)
      (removal (inodeAt fs.disk dir) found ++
        release fs.bitmap (freed (inodeAt fs.disk inum) (inodeAt fs.disk inum).numBlocks 0 ++ [inum])) := by
  have hremove : Does env fs (removeEntry _ name) (.ok ()) _ := does_removeEntry hsearch fun hit hhit =>
    h.hit_writable hdir hmode (hhit ▸ hsearch)
  have hinum := bitTest_lt (h.marked inum hreach.inUse)
  have hfree : Does env (fs.replay (removal (inodeAt fs.disk dir) found))
      (freeLoop (inodeAt fs.disk inum) (inodeAt fs.disk inum).numBlocks 0) (.ok ()) _ :=
    does_freeLoop (Or.inr (by have := hfits inum hreach; omega))
      fun i _ hi => h.block_lt hfits hreach (by omega)
  have hrelease := does_release hfree hinum
  rw [removal_bitmap] at hrelease
  exact does_bind hremove hrelease

theorem acts_fsUnlink {env : Env} {fs : Fs} (h : Sound fs) (hfits : Fits fs.disk) (path : CStr) :
    Acts env fs (fsUnlink path) (Unlink env.limits fs path) := by
  refine .read (reads_translate path) (fun reason _ => .stops reason) ?_
  rintro ⟨inum, inode⟩ htranslate
  obtain ⟨hreach, rfl⟩ := reach_of_translateIn htranslate
  dsimp only
  split
  · exact .stop (.stops _)
  · rename_i hmode
    refine .read (reads_parentDir path) (fun reason _ => .stops reason) ?_
    rintro ⟨name, parent⟩ hparent
    obtain ⟨init, dir, -, hinit, rfl, hdirMode⟩ := parentDirIn_eq_ok hparent
    have hdir := reach_of_descend hinit
    rcases hsearch : searchDirIn (hasName name) (inodeAt fs.disk dir) fs.disk with reason | found
    · refine ⟨_, [], Follows.bind_error ?_, .stops reason⟩
      exact Follows.bind_error (hsearch ▸ reads_searchDir)
    · exact ⟨_, _, does_unlinkEntry h hfits hreach hdir hdirMode hsearch,
        .done htranslate (by simpa using hmode) hparent hdir hsearch⟩

/-- What `fs_unlink` does with a file whose name is found in its parent. -/
theorem does_fsUnlink {env : Env} {fs : Fs} (h : Sound fs) (hfits : Fits fs.disk) {path : CStr} {inum dir : Nat}
    {name : CStr} {found : Option Hit}
    (htranslate : translateIn env.limits fs.disk path = .ok (inum, inodeAt fs.disk inum))
    (hfile : S_ISDIR (inodeAt fs.disk inum).mode = false)
    (hparent : parentDirIn env.limits fs.disk path = .ok (name, inodeAt fs.disk dir))
    (hdir : (tree fs.disk).Reach dir) (hmode : S_ISDIR (inodeAt fs.disk dir).mode = true)
    (hsearch : searchDirIn (hasName name) (inodeAt fs.disk dir) fs.disk = .ok found) :
    Does env fs (fsUnlink path) (.ok 0) (removal (inodeAt fs.disk dir) found ++
      release fs.bitmap (freed (inodeAt fs.disk inum) (inodeAt fs.disk inum).numBlocks 0 ++ [inum])) := by
  apply does_read_bind (htranslate ▸ reads_translate path)
  dsimp only
  rw [if_neg (by simp [hfile])]
  exact does_read_bind (hparent ▸ reads_parentDir path)
    (does_unlinkEntry h hfits (reach_of_translateIn htranslate).1 hdir hmode hsearch)

/-! ### `fs_rmdir` -/

def rmdirCheckIn (limits : Limits) (disk : Nat → Block) (path : CStr) : Except Stop (Nat × Inode) := do
  let (inum, inode) ← translateIn limits disk path
  if !S_ISDIR inode.mode then
    .error (.errno .ENOTDIR)
  else if (List.finRange direntsPerBlock).any fun slot => ((disk (inode.ptrs 0).toNat).dirent slot).valid then
    .error (.errno .ENOTEMPTY)
  else
    .ok (inum, inode)

theorem reads_rmdirCheck {env : Env} {fs : Fs} (path : CStr) :
    Reads env fs (rmdirCheck path) (rmdirCheckIn env.limits fs.disk path) := by
  refine reads_bind (reads_translate path) fun found _ => ?_
  dsimp only
  split
  · exact Follows.stop _
  · apply does_read_bind (reads_blockRead _)
    split
    · exact Follows.stop _
    · exact Follows.pure _

/-- The directory that `fs_rmdir` removes, and the entry it removes. -/
structure RmdirAt (limits : Limits) (fs : Fs) (path : CStr) (inum dir : Nat) (found : Option Hit) : Prop where
  translate : translateIn limits fs.disk path = .ok (inum, inodeAt fs.disk inum)
  mode : S_ISDIR (inodeAt fs.disk inum).mode = true
  empty : ∀ slot, ((fs.disk ((inodeAt fs.disk inum).ptrs 0).toNat).dirent slot).valid = false
  reach : (tree fs.disk).Reach dir
  parent : ∃ name, parentDirIn limits fs.disk path = .ok (name, inodeAt fs.disk dir) ∧
    searchDirIn (hasName name) (inodeAt fs.disk dir) fs.disk = .ok found

/-- A path leads to one directory, with one entry in its parent. -/
theorem RmdirAt.unique {limits : Limits} {fs : Fs} {path : CStr} {inum inum' dir dir' : Nat} {found found' : Option Hit}
    (hat : RmdirAt limits fs path inum dir found) (hat' : RmdirAt limits fs path inum' dir' found') :
    inum' = inum ∧ inodeAt fs.disk dir' = inodeAt fs.disk dir ∧ found' = found := by
  obtain ⟨rfl, -⟩ := Prod.mk.inj (Except.ok.inj (hat'.translate.symm.trans hat.translate))
  obtain ⟨name, hparent, hsearch⟩ := hat.parent
  obtain ⟨name', hparent', hsearch'⟩ := hat'.parent
  obtain ⟨rfl, hsame⟩ := Prod.mk.inj (Except.ok.inj (hparent'.symm.trans hparent))
  rw [hsame] at hsearch'
  exact ⟨rfl, hsame, Except.ok.inj (hsearch'.symm.trans hsearch)⟩

theorem rmdirCheckIn_eq_ok {limits : Limits} {disk : Nat → Block} {path : CStr} {inum : Nat} {inode : Inode}
    (h : rmdirCheckIn limits disk path = .ok (inum, inode)) :
    translateIn limits disk path = .ok (inum, inode) ∧ S_ISDIR inode.mode = true ∧
      ∀ slot, ((disk (inode.ptrs 0).toNat).dirent slot).valid = false := by
  obtain ⟨⟨inum, inode⟩, htranslate, hfound⟩ := exceptBind_eq_ok h
  dsimp only at hfound
  split at hfound
  · cases hfound
  · rename_i hmode
    split at hfound
    · cases hfound
    · rename_i hempty
      obtain ⟨rfl, rfl⟩ := Prod.mk.inj (Except.ok.inj hfound)
      exact ⟨htranslate, by simpa using hmode, by simpa using hempty⟩

/-- The part of `fs_rmdir` before it changes the bitmap. -/
inductive RmdirEntry (limits : Limits) (fs : Fs) (path : CStr) : Except Stop (Nat × Inode) → List Event → Prop
  | stops (reason : Stop) (hnot : ∀ inum dir found, ¬RmdirAt limits fs path inum dir found) :
      RmdirEntry limits fs path (.error reason) []
  | done {inum dir : Nat} {found : Option Hit} (hat : RmdirAt limits fs path inum dir found) :
      RmdirEntry limits fs path (.ok (inum, inodeAt fs.disk inum)) (removal (inodeAt fs.disk dir) found)

theorem RmdirAt.rmdirCheckIn {limits : Limits} {fs : Fs} {path : CStr} {inum dir : Nat} {found : Option Hit}
    (h : RmdirAt limits fs path inum dir found) :
    rmdirCheckIn limits fs.disk path = .ok (inum, inodeAt fs.disk inum) := by
  have hempty : ((List.finRange direntsPerBlock).any fun slot =>
      ((fs.disk ((inodeAt fs.disk inum).ptrs 0).toNat).dirent slot).valid) = false := by
    simpa using h.empty
  rw [Fs5600.rmdirCheckIn, h.translate]
  dsimp only [bind, Except.bind]
  rw [if_neg (by simp [h.mode]), if_neg (by simp [hempty])]

theorem acts_rmdirEntry {env : Env} {fs : Fs} (h : Sound fs) (path : CStr) :
    Acts env fs (rmdirEntry path) (RmdirEntry env.limits fs path) := by
  refine .read (reads_rmdirCheck path) (fun reason hreason => .stops reason fun inum dir found hat => ?_) ?_
  · cases hat.rmdirCheckIn.symm.trans hreason
  rintro ⟨inum, inode⟩ hcheck
  obtain ⟨htranslate, hmode, hempty⟩ := rmdirCheckIn_eq_ok hcheck
  obtain ⟨-, rfl⟩ := reach_of_translateIn htranslate
  refine .read (reads_parentDir path) (fun reason hreason => .stops reason fun inum dir found hat => ?_) ?_
  · obtain ⟨name, hparent, -⟩ := hat.parent
    cases hparent.symm.trans hreason
  rintro ⟨name, parent⟩ hparent
  obtain ⟨init, dir, -, hinit, rfl, hdirMode⟩ := parentDirIn_eq_ok hparent
  have hdir := reach_of_descend hinit
  rcases hsearch : searchDirIn (hasName name) (inodeAt fs.disk dir) fs.disk with reason | found
  · refine ⟨_, [], Follows.bind_error ?_, .stops reason fun inum dir' found hat => ?_⟩
    · exact Follows.bind_error (hsearch ▸ reads_searchDir)
    · obtain ⟨name', hparent', hsearch'⟩ := hat.parent
      obtain ⟨rfl, hsame⟩ := Prod.mk.inj (Except.ok.inj (hparent.symm.trans hparent'))
      rw [← hsame, hsearch] at hsearch'
      cases hsearch'
  · have hremove : Does env fs (removeEntry _ name) (.ok ()) _ := does_removeEntry hsearch fun hit hhit =>
      h.hit_writable hdir hdirMode (hhit ▸ hsearch)
    exact ⟨_, _, does_bind_read hremove (Follows.pure _),
      .done ⟨htranslate, hmode, hempty, hdir, name, hparent, hsearch⟩⟩

/-- How `fs_rmdir` ends: early, with the entry it found invalidated and the inode and its first block
marked free, or with `bit_clear` past the end of the bitmap. -/
inductive Rmdir (limits : Limits) (fs : Fs) (path : CStr) : Except Stop Int → List Event → Prop
  | stops (reason : Stop) (hnot : ∀ inum dir found, ¬RmdirAt limits fs path inum dir found) :
      Rmdir limits fs path (.error reason) []
  | done {inum dir : Nat} {found : Option Hit} (hat : RmdirAt limits fs path inum dir found)
      (hbit : ((inodeAt fs.disk inum).ptrs 0).toNat < bitmapBits) :
      Rmdir limits fs path (.ok 0) (removal (inodeAt fs.disk dir) found ++
        release fs.bitmap [((inodeAt fs.disk inum).ptrs 0).toNat, inum])
  | outside {inum dir : Nat} {found : Option Hit} (hat : RmdirAt limits fs path inum dir found)
      (hbit : ¬((inodeAt fs.disk inum).ptrs 0).toNat < bitmapBits) :
      Rmdir limits fs path (.error .fault) (removal (inodeAt fs.disk dir) found)

theorem acts_fsRmdir {env : Env} {fs : Fs} (h : Sound fs) (path : CStr) :
    Acts env fs (fsRmdir path) (Rmdir env.limits fs path) := by
  have hacts : Acts env fs (rmdirEntry path) _ := acts_rmdirEntry h path
  obtain ⟨value, plan, hentry, hpost⟩ := hacts
  cases hpost with
  | stops reason hnot => exact ⟨_, [], Follows.bind_error hentry, .stops reason hnot⟩
  | @done inum dir found hat =>
      have hinum := bitTest_lt (h.marked inum (reach_of_translateIn hat.translate).1.inUse)
      by_cases hbit : ((inodeAt fs.disk inum).ptrs 0).toNat < bitmapBits
      · have hclear : Does env (fs.replay (removal (inodeAt fs.disk dir) found))
            (bitmapClear ((inodeAt fs.disk inum).ptrs 0).toNat) (.ok ())
            ([((inodeAt fs.disk inum).ptrs 0).toNat].map .bitClear) := does_bitmapClear hbit
        have hrelease := does_release hclear hinum
        rw [removal_bitmap] at hrelease
        exact ⟨_, _, does_bind hentry hrelease, .done hat hbit⟩
      · exact ⟨_, _, does_bind_read hentry (Follows.bind_error (does_bitmapClear_fault hbit)),
          .outside hat hbit⟩

end Fs5600
