import Fs5600.Rmdir
import Fs5600.Renaming

/-! Accounting of blocks. Where every request succeeds, the bits that are set stay exactly those of the
superblock, of the bitmap block and of the blocks in use, in memory and on the disk: no block is lost, and to
mount the disk again changes nothing. -/

namespace Fs5600

open Ownership Command Run

/-- The bit of a block is set exactly if it is one of the first two blocks or in use. -/
def Counted (fs : Fs) (b : Nat) : Prop := bitTest fs.bitmap b = true ↔ b < 2 ∨ (tree fs.disk).InUse b

/-- A mounted file system whose bits say exactly which blocks are in use. -/
structure Exact (fs : Fs) : Prop where
  mounted : Mounted fs
  counted : ∀ b < fs.diskSize, Counted fs b

/-- What a request does to the superblock and to both copies of the bitmap. -/
structure Books (fs fs' : Fs) : Prop where
  superblock : fs'.disk 0 = fs.disk 0
  diskSize : fs'.diskSize = fs.diskSize
  saved : fs.disk 1 = fs.bitmap → fs'.disk 1 = fs'.bitmap
  counted : ∀ b, Counted fs b → Counted fs' b

section Exact

variable {env : Env} {fs fs' : Fs}

theorem Mounted.fields (h : Mounted fs) : Words.le32 (fs.disk 0).byte 0 = fsMagic ∧
    Words.le32 (fs.disk 0).byte 4 = fs.diskSize ∧ fs.disk 1 = fs.bitmap := by
  rw [Mounted, fsInit, if_neg (by simp [quietEnv])] at h
  split at h
  · cases h
  · rename_i hmagic
    rw [if_neg (by simp [quietEnv]), Option.some.injEq] at h
    exact ⟨not_not.mp hmagic, congrArg Fs.diskSize h, congrArg Fs.bitmap h⟩

/-- Mounting the disk again gives the same file system. -/
theorem Mounted.remount (h : Mounted fs) (hsuper : env.readFails 0 0 = false) (hmap : env.readFails 1 1 = false) :
    fsInit env fs.disk = some fs := by
  obtain ⟨hmagic, hsize, hsaved⟩ := h.fields
  rw [fsInit, if_neg (by simp [hsuper]), if_neg (by simpa using hmagic), if_neg (by simp [hmap]), hsize, hsaved]

theorem Exact.books (h : Exact fs) (hbooks : Books fs fs') : Exact fs' where
  mounted := by
    obtain ⟨hmagic, hsize, hsaved⟩ := h.mounted.fields
    rw [← hbooks.superblock] at hmagic hsize
    exact mounted_of_disk hmagic (hsize.trans hbooks.diskSize.symm) (hbooks.saved hsaved)
  counted b hb := hbooks.counted b (h.counted b (hbooks.diskSize ▸ hb))

end Exact

/-! ### One request -/

section Books

variable {env : Env} {fs fs' : Fs} {dir inum : Nat} {slot : Slot} {name : CStr} {label : List UInt8}

theorem Created.books {inode : Inode} {claimed : List Nat} (h : Created fs fs' dir slot name inum inode claimed) :
    Books fs fs' where
  superblock := h.superblock
  diskSize := h.diskSize
  saved _ := h.saved
  counted b hb := by
    rw [Counted] at hb ⊢
    rw [h.bitTest, h.inUse_iff, Bool.or_eq_true, decide_eq_true_iff, hb]
    exact or_comm.trans or_assoc

theorem Owned.inUse (hreach : (tree fs.disk).Reach inum) {b : Nat} (h : Owned fs.disk inum b) :
    (tree fs.disk).InUse b := by
  rcases h with rfl | ⟨i, hcell⟩
  · exact hreach.inUse
  · exact (Graph.Uses.cell hreach hcell).inUse

/-- The removal of an object without entries that frees the blocks it owned. -/
theorem Removed.books {released : List Nat} (h : Removed fs fs' dir slot label inum released) (hsound : Sound fs)
    (hleaf : ∀ s, (tree fs.disk).edge inum s = none) (hmem : ∀ b, b ∈ released ↔ Owned fs.disk inum b) :
    Books fs fs' where
  superblock := h.superblock
  diskSize := h.diskSize
  saved _ := h.saved
  counted b hb := by
    have howned : ∀ {b}, Owned fs.disk inum b → 2 ≤ b := fun ho => (hsound.range _ (ho.inUse (h.reach.step h.edge))).1
    rw [Counted] at hb ⊢
    rw [h.bitmap, bitTest_clearAll, h.removes.inUse_iff hsound.exclusive h.reach h.edge hleaf,
      Bool.and_eq_true, Bool.not_eq_true', decide_eq_false_iff_not, hmem, hb]
    constructor
    · rintro ⟨hnot, hlt | huse⟩
      · exact Or.inl hlt
      · exact Or.inr ⟨huse, fun heq => hnot (Or.inl heq), fun i hcell => hnot (Or.inr ⟨i, hcell⟩)⟩
    · rintro (hlt | ⟨huse, hne, hcell⟩)
      · exact ⟨fun ho => absurd (howned ho) (by omega), Or.inl hlt⟩
      · exact ⟨fun ho => ho.elim hne fun ⟨i, hi⟩ => hcell i hi, Or.inr huse⟩

theorem Renamed.books {src dst : CStr} (h : Renamed fs fs' dir slot src dst inum) : Books fs fs' where
  superblock := h.reserved 0 (by decide)
  diskSize := h.diskSize
  saved hsaved := by rw [h.reserved 1 (by decide), h.bitmap, hsaved]
  counted b hb := by rwa [Counted, h.bitmap, h.relabels.inUse_iff]

theorem Reset.books {inode : Inode} (h : Reset fs fs' inum inode) : Books fs fs' where
  superblock := h.reserved 0 (by decide)
  diskSize := h.diskSize
  saved hsaved := by rw [h.reserved 1 (by decide), h.bitmap, hsaved]
  counted b hb := by rwa [Counted, h.bitmap, h.agrees.inUse_iff]

theorem Truncated.books {time : UInt32} (h : Truncated fs fs' inum time) (hsound : Sound fs) : Books fs fs' where
  superblock := h.superblock
  diskSize := h.diskSize
  saved _ := h.saved
  counted b hb := by
    rw [Counted] at hb ⊢
    rw [h.bitmap, h.inUse_truncate hsound.exclusive, hb, or_and_right]
    refine or_congr_left ⟨And.left, fun hlt => ⟨hlt, ?_⟩⟩
    rintro ⟨i, hcell⟩
    have := (hsound.range b (Graph.Uses.cell h.reach hcell).inUse).1
    omega

/-- `fs_write` writes the bitmap where it has claimed blocks. -/
theorem Written.books {buf : List UInt8} {offset : Nat} {claimed : List Nat} {inode : Inode}
    (h : Written fs fs' inum buf offset claimed inode) (hsound : Sound fs) (hsaved : fs'.disk 1 = fs.disk 1) :
    Books fs (fs'.replay (if claimed = [] then [] else [.blockWrite 1 (setAll fs.bitmap claimed)])) := by
  have hcounted : ∀ b, Counted fs b → Counted fs' b := fun b hb => by
    rw [Counted] at hb ⊢
    rw [h.bitTest, h.inUse_iff, Bool.or_eq_true, decide_eq_true_iff, hb]
    exact or_comm.trans or_assoc
  by_cases hnone : claimed = []
  · rw [if_pos hnone]
    refine ⟨h.superblock, h.diskSize, fun hold => ?_, hcounted⟩
    rw [Fs.replay_nil, hsaved, hold, h.bitmap, hnone]
    rfl
  · rw [if_neg hnone, ← h.bitmap]
    have hkeep : Keeps (fun _ => False) fs' (fs'.replay [.blockWrite 1 fs'.bitmap]) := keeps_replay fun e he => by
      obtain rfl := List.mem_singleton.mp he
      exact fun huse => absurd ((h.sound hsound).range 1 huse).1 (by decide)
    have hagrees := (hkeep.disk.mono fun _ => False.elim).agrees (h.sound hsound).exclusive
    have hdisk : (fs'.replay [.blockWrite 1 fs'.bitmap]).disk = Function.update fs'.disk 1 fs'.bitmap := rfl
    refine ⟨?_, h.diskSize, fun _ => ?_, fun b hb => ?_⟩
    · rw [hdisk, Function.update_of_ne (by decide), h.superblock]
    · rw [hdisk, Function.update_self]
      rfl
    · rw [Counted, hagrees.inUse_iff]
      exact hcounted b hb

end Books

/-! ### Successful requests -/

section Success

variable {env : Env} {fs fs' : Fs} {op : Op} {value : Int}

/-- A request that succeeds has done all of its plan. -/
theorem replay_of_success {undo : List Event → Prop} {post : Except Stop Int → List Event → Prop}
    (h : Attempts undo env fs op.call post) (hvalue : (op.run env fs).1 = .ok value) :
    ∃ plan, post (.ok value) plan ∧ (op.run env fs).2.fs = fs.replay plan := by
  obtain ⟨result, plan, hperforms, hpost⟩ := h
  obtain ⟨events, hemits, ⟨hresult, rfl⟩ | ⟨reason, -, hresult, -⟩⟩ := hperforms (.start fs) rfl
  · exact ⟨events, hvalue ▸ hresult ▸ hpost, hemits.view⟩
  · cases hvalue.symm.trans hresult

/-- `fs_truncate` that succeeds has emptied a file. -/
theorem truncated_of_success (h : Sound fs) (hfits : Fits fs.disk) {path : CStr} {len : Int} (hpath : Plain path)
    (hvalue : (Op.run (.truncate path len) env fs).1 = .ok value) : ∃ inum, Names fs.disk path inum ∧
      Truncated fs (Op.run (.truncate path len) env fs).2.fs inum env.time := by
  have hacts : Acts env fs (Op.truncate path len).call _ := acts_fsTruncate h hfits path len
  have hattempts : Attempts (fun _ => False) env fs (Op.truncate path len).call _ := .of_acts hacts
  obtain ⟨plan, hpost, hfs⟩ := replay_of_success hattempts hvalue
  rw [hfs]
  cases hpost with
  | done hlen htranslate hfile =>
      exact ⟨_, names_of_translateIn hpath htranslate,
        truncated_of_plan h hfits (reach_of_translateIn htranslate).1 hfile⟩

/-- What a successful request leaves, also where a block access it can do without fails. -/
theorem leaves_of_success (h : Sound fs) (hlayout : AllInodes (Layout (· = 1)) fs.disk) (hop : op.Changes)
    (hvalue : (op.run env fs).1 = .ok value) : Leaves env fs op (op.run env fs).2.fs := by
  have hfits := fits_of_layout hlayout
  by_cases htruncate : ∃ path len, op = .truncate path len
  · obtain ⟨path, len, rfl⟩ := htruncate
    obtain ⟨inum, hnames, htruncated⟩ := truncated_of_success h hfits hop hvalue
    exact htruncated.leaves h hnames
  · exact leaves_of_run (attempts_phases h hfits hop (fun path len heq => htruncate ⟨path, len, heq⟩)
      fun path _ => not_freesLive (fun n hn hmode => (dirBlocks_of_layout hlayout n hn hmode).ge) _ path)

/-- The blocks that `fs_rmdir` marks free are those of a directory with one data block. -/
theorem mem_released_dir {inum : Nat} (hone : (inodeAt fs.disk inum).numBlocks = 1) (b : Nat) :
    b ∈ [((inodeAt fs.disk inum).ptrs 0).toNat, inum] ↔ Owned fs.disk inum b := by
  simp only [List.mem_cons, List.not_mem_nil, or_false, Owned]
  rw [or_comm]
  refine or_congr_right ⟨fun heq => ⟨0, tree_cell_eq_some.mpr ⟨by rw [hone]; decide, heq.symm⟩⟩, ?_⟩
  rintro ⟨i, hcell⟩
  obtain ⟨hi, hb⟩ := tree_cell_eq_some.mp hcell
  obtain rfl : i = 0 := Fin.ext (by rw [Fin.val_zero]; omega)
  exact hb.symm

theorem RmdirAt.emptyDir {limits : Limits} {path : CStr} {inum dir : Nat} {found : Option Hit}
    (hat : RmdirAt limits fs path inum dir found) (hone : (inodeAt fs.disk inum).numBlocks = 1) :
    EmptyDir fs.disk inum := by
  refine emptyDir_of_one_block ?_ hat.empty
  calc (inodeAt fs.disk inum).dirBlocks ≤ (inodeAt fs.disk inum).numBlocks := Inode.dirBlocks_le_numBlocks _
    _ = 1 := hone

/-- A successful request keeps the books. -/
theorem books_of_success (h : Sound fs) (hlayout : AllInodes (Layout (· = 1)) fs.disk) (hop : op.Changes)
    (hvalue : (op.run env fs).1 = .ok value) : Books fs (op.run env fs).2.fs := by
  have hfits := fits_of_layout hlayout
  cases op with
  | create path mode =>
      obtain ⟨plan, hpost, hfs⟩ := replay_of_success (attempts_fsCreate h path mode) hvalue
      rw [hfs]
      cases creates_of_create h hpost with
      | done _ _ _ _ _ hcreated => exact hcreated.books
  | mkdir path mode =>
      obtain ⟨plan, hpost, hfs⟩ := replay_of_success (attempts_fsMkdir h path mode) hvalue
      rw [hfs]
      cases creates_of_mkdir h hpost with
      | done _ _ _ _ _ hcreated => exact hcreated.books
  | unlink path =>
      have hattempts : Attempts (fun _ => False) env fs (Op.unlink path).call _ := .of_acts (acts_fsUnlink h hfits path)
      obtain ⟨plan, hpost, hfs⟩ := replay_of_success hattempts hvalue
      rw [hfs]
      cases hpost with
      | done htranslate hfile hparent hdir hsearch =>
          obtain ⟨hit, rfl, rfl, hmode⟩ := found_of_translateIn hop htranslate hparent hsearch
          exact (removed_of_plan h hdir hmode hsearch _).books h (tree_edge_of_not_dir hfile)
            fun b => mem_released h hfits (reach_of_translateIn htranslate).1
  | rmdir path =>
      have hattempts : Attempts (fun _ => False) env fs (Op.rmdir path).call _ := .of_acts (acts_fsRmdir h path)
      obtain ⟨plan, hpost, hfs⟩ := replay_of_success hattempts hvalue
      rw [hfs]
      cases hpost with
      | done hat hbit =>
          obtain ⟨name, hit, rfl, rfl, hmode, hsearch⟩ := hat.hit hop
          have hone := dirBlocks_of_layout hlayout _ (reach_of_translateIn hat.translate).1 hat.mode
          exact (removed_of_plan h hat.reach hmode hsearch _).books h (hat.emptyDir hone) (mem_released_dir hone)
  | rename srcPath dstPath =>
      have hattempts : Attempts (fun _ => False) env fs (Op.rename srcPath dstPath).call _ :=
        .of_acts (acts_fsRename h srcPath dstPath)
      obtain ⟨plan, hpost, hfs⟩ := replay_of_success hattempts hvalue
      rw [hfs]
      cases hpost with
      | done _ _ _ hsrcParent _ hslot hvalid hname _ =>
          exact (renamed_of_entry h (reach_of_descend hsrcParent) hslot hvalid hname).books
  | chmod path mode =>
      have hattempts : Attempts (fun _ => False) env fs (Op.chmod path mode).call _ := .of_acts (acts_fsChmod h path mode)
      obtain ⟨plan, hpost, hfs⟩ := replay_of_success hattempts hvalue
      rw [hfs]
      cases hpost with
      | done htranslate =>
          exact (reset_of_write h (reach_of_translateIn htranslate).1 (isDir_chmod mode _) rfl rfl).books
  | utime path modtime =>
      have hattempts : Attempts (fun _ => False) env fs (Op.utime path modtime).call _ :=
        .of_acts (acts_fsUtime h path modtime)
      obtain ⟨plan, hpost, hfs⟩ := replay_of_success hattempts hvalue
      rw [hfs]
      cases hpost with
      | @done inum htranslate =>
          have hreset : Reset fs _ inum ((inodeAt fs.disk inum).utime modtime) :=
            reset_of_write h (reach_of_translateIn htranslate).1 rfl rfl rfl
          exact hreset.books
  | truncate path len =>
      obtain ⟨inum, -, htruncated⟩ := truncated_of_success h hfits hop hvalue
      exact htruncated.books h
  | write path buf offset =>
      have hattempts : Attempts (fun _ => False) env fs (Op.write path buf offset).call _ :=
        .of_acts (acts_fsWrite h hfits path buf offset hop.2)
      obtain ⟨plan, hpost, hfs⟩ := replay_of_success hattempts hvalue
      rw [hfs]
      cases hpost with
      | @done inum claimed data hat hblocks hnum hwrites hbytes =>
          obtain ⟨-, -, hwritten, hsaved⟩ := written_of_plan h hat hop.2 hblocks hnum hwrites hbytes
          have hbooks := hwritten.books h hsaved
          rw [← Fs.replay_append, List.append_assoc, List.append_assoc] at hbooks
          exact hbooks
  | getattr path => exact hop.elim
  | readdir path => exact hop.elim
  | read path len offset => exact hop.elim
  | statfs => exact hop.elim

end Success

/-! ### Runs -/

structure SuccessStep (fs : Fs) (request : Request) (fs' : Fs) : Prop where
  changes : request.op.Changes
  files : request.op.RegularFiles
  success : ∃ value, request.value = .ok value
  step : fs.Step request fs'

/-- In every state of a run of successful requests the bits are exact, and to mount the disk again gives the
same file system. -/
theorem exact_of_run {fs fs' : Fs} (h : Sound fs) (hsize : fs.diskSize ≤ 1020) (hdirs : DirBlocks (· = 1) fs.disk)
    (hexact : Exact fs) (hrun : Reaches SuccessStep fs fs') :
    Exact fs' ∧ Sound fs' ∧ DirBlocks (· = 1) fs'.disk ∧
      ∀ env : Env, env.readFails 0 0 = false → env.readFails 1 1 = false → fsInit env fs'.disk = some fs' := by
  have hlayout : AllInodes (Layout (· = 1)) fs.disk := fun n hn => ⟨h.fits hsize n hn, hdirs n hn⟩
  have hinv := @Reaches.invariant _ _ SuccessStep
    (fun state => Sound state ∧ AllInodes (Layout (· = 1)) state.disk ∧ Exact state) _ _ hrun
    (fun state request state' hinv hstep => ?_) ⟨h, hlayout, hexact⟩
  · obtain ⟨hsound, hlayout, hexact⟩ := hinv
    exact ⟨hexact, hsound, dirBlocks_of_layout hlayout, fun env => hexact.mounted.remount⟩
  · obtain ⟨hsound, hlayout, hexact⟩ := hinv
    obtain ⟨env, op, result⟩ := request
    obtain ⟨hop, hfiles, ⟨value, rfl⟩, hvalue, rfl⟩ := hstep
    have hleaves := leaves_of_success hsound hlayout hop hvalue
    exact ⟨hleaves.sound hsound, hleaves.layout hsound hfiles rfl hlayout,
      hexact.books (books_of_success hsound hlayout hop hvalue)⟩

/-- A disk with an empty root directory. -/
def emptyImage : Fs := imageOf 16 [2, 3] [(2, (inodeOf (S_IFDIR ||| 0o777) 4096 [3]).toBlock)]

theorem sound_emptyImage : Sound emptyImage := sound_of_fsck (by decide +kernel)

theorem exact_emptyImage : Exact emptyImage where
  mounted := mounted_of_disk (by decide) (by decide) rfl
  counted b hb := by
    have hroot : (tree emptyImage.disk).InUse 2 := Graph.Uses.root.inUse
    have hcell : (tree emptyImage.disk).cell 2 0 = some 3 := by decide +kernel
    have hmarks : ∀ b < 16, bitTest emptyImage.bitmap b = true → b < 2 ∨ b = 2 ∨ b = 3 := by decide +kernel
    have hreserved : ∀ b < 2, bitTest emptyImage.bitmap b = true := by decide +kernel
    constructor
    · intro hmark
      rcases hmarks b hb hmark with hlt | rfl | rfl
      · exact Or.inl hlt
      · exact Or.inr hroot
      · exact Or.inr (Graph.Uses.cell .root hcell).inUse
    · rintro (hlt | huse)
      · exact hreserved b hlt
      · exact sound_emptyImage.marked b huse

/-- Creating a file on that disk keeps the bits exact. -/
theorem exact_of_run_emptyImage :
    Exact (Op.run (.create (joinPath [nameF]) (S_IFREG ||| 0o666)) (quietEnv 0) emptyImage).2.fs := by
  have hdirs : DirBlocks (· = 1) emptyImage.disk := fun n hn hmode => of_decide_eq_true
    (allInodes_of_inodeCheck (P := fun inode => decide (S_ISDIR inode.mode = true → inode.numBlocks = 1))
      (by decide +kernel) n hn) hmode
  have hstep : SuccessStep emptyImage ⟨quietEnv 0, .create (joinPath [nameF]) (S_IFREG ||| 0o666), _⟩ _ :=
    ⟨plain_nameF, (by decide : S_ISREG (S_IFREG ||| 0o666) = true), ⟨0, by decide +kernel⟩, .of_run _ _ _⟩
  exact (exact_of_run sound_emptyImage (by decide) hdirs exact_emptyImage (.single hstep)).1

end Fs5600
