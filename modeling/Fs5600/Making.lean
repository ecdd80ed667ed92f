import Fs5600.Unlinked
import Fs5600.Crash

/-! How `fs_create` and `fs_mkdir` end where no block access fails. Four things decide: the parent, the name
in it, the clear bits, and an unused slot; the last is looked for when the bits are already set. -/

namespace Fs5600

open Ownership Command

/-- The bits of the bitmap in `[2, disk_size)` that are clear. -/
def freeBits (fs : Fs) : Finset Nat := (freeBlocks fs).filter fun b => b < bitmapBits

theorem mem_freeBits {fs : Fs} {b : Nat} :
    b ∈ freeBits fs ↔ 2 ≤ b ∧ b < fs.diskSize ∧ b < bitmapBits ∧ bitTest fs.bitmap b = false := by
  rw [freeBits, Finset.mem_filter, mem_freeBlocks]
  tauto

/-- The parent of a path is a directory: the names before the last one lead to it. -/
structure ParentAt (disk : Nat → Block) (path name : CStr) (dir : Nat) : Prop where
  leads : ∃ init, pathparse path = init ++ [name] ∧ (tree disk).Leads 2 (labels init) dir
  mode : S_ISDIR (inodeAt disk dir).mode = true

def NameFree (disk : Nat → Block) (dir : Nat) (name : CStr) : Prop :=
  ∀ slot inum, (tree disk).edge dir slot ≠ some (name.bytes, inum)

def HasUnused (disk : Nat → Block) (dir : Nat) : Prop :=
  ∃ slot, HasSlot disk dir slot ∧ (tree disk).edge dir slot = none

section Parent

variable {fs : Fs} {disk : Nat → Block} {limits : Limits} {path name name' : CStr} {dir dir' : Nat}

theorem ParentAt.reach (h : ParentAt disk path name dir) : (tree disk).Reach dir := by
  obtain ⟨init, -, hleads⟩ := h.leads
  exact hleads.reach .root

theorem ParentAt.unique (h : ParentAt disk path name dir) (h' : ParentAt disk path name' dir')
    (huniq : (tree disk).UniqueLabels) : name' = name ∧ dir' = dir := by
  obtain ⟨init, hsplit, hleads⟩ := h.leads
  obtain ⟨init', hsplit', hleads'⟩ := h'.leads
  obtain ⟨rfl, hname⟩ := List.append_inj' (hsplit.symm.trans hsplit') rfl
  exact ⟨by simpa using hname.symm, huniq.leads_unique .root hleads' hleads⟩

/-- `parentDir` finds the parent, or there is none. -/
theorem Plain.parent_cases (hpath : Plain path) (hlimits : Roomy limits) (h : WellNamed disk) :
    (∃ reason, parentDirIn limits disk path = .error reason ∧ (reason = .fault ∨ LookupError reason) ∧
        ∀ name dir, ¬ParentAt disk path name dir) ∨
      ∃ name dir, ParentAt disk path name dir ∧ parentDirIn limits disk path = .ok (name, inodeAt disk dir) := by
  obtain ⟨init, name, hsplit⟩ := hpath.exists_split
  have hiff := fun last parent => @Plain.parentDirIn_eq_ok_iff disk limits path hpath hlimits h init name hsplit
    last parent
  rcases hparent : parentDirIn limits disk path with reason | ⟨last, parent⟩
  · refine Or.inl ⟨reason, rfl, ?_, fun name' dir hat => ?_⟩
    · rcases hdescend : descend disk 2 init with lookup | dir
      · -- the parent path may be too long for its buffer, or it leads nowhere
        have hwalk : translateIn limits disk (joinPath init) = .error lookup := by
          rw [translateIn_of_resolved hlimits (hpath.resolvePath.trans hsplit), hdescend]
          rfl
        rw [parentDirIn, hpath.resolvePath, hsplit, parentPathIn, List.dropLast_concat] at hparent
        simp only [lastComponentIn, List.getLast?_concat, bind, Except.bind] at hparent
        split_ifs at hparent
        · dsimp only at hparent
          rw [hwalk] at hparent
          exact Or.inr (Except.error.inj hparent ▸ h.descend_error .root hdescend)
        · exact Or.inl (Except.error.inj hparent).symm
      · rw [hpath.parentDirIn_of_leads hlimits h hsplit (h.descend_root_iff.mp hdescend)] at hparent
        split at hparent
        · exact Or.inr (Or.inr (Except.error.inj hparent).symm)
        · cases hparent
    · obtain ⟨init', hsplit', hleads⟩ := hat.leads
      obtain ⟨rfl, hname⟩ := List.append_inj' (hsplit.symm.trans hsplit') rfl
      obtain rfl : name = name' := by simpa using hname
      cases hparent.symm.trans ((hiff _ _).mpr ⟨rfl, dir, hleads, hat.mode, rfl⟩)
  · obtain ⟨rfl, dir, hleads, hmode, rfl⟩ := (hiff last parent).mp hparent
    exact Or.inr ⟨last, dir, ⟨⟨init, hsplit, hleads⟩, hmode⟩, rfl⟩

/-- In a directory of one block an entry slot is given by its place in the block. -/
theorem slot_of_oneBlock (hone : (inodeAt disk dir).dirBlocks = 1) {slot : Slot} (hslot : HasSlot disk dir slot) :
    slot = (0, slot.2) :=
  Prod.ext (Fin.ext (Nat.lt_one_iff.mp (hone ▸ hslot.2))) rfl

theorem nameFree_of_oneBlock (hone : (inodeAt disk dir).dirBlocks = 1)
    (hnames : ∀ s, (direntAt disk dir (0, s)).storedName ≠ name.bytes) : NameFree disk dir name := by
  intro slot inum hedge
  obtain ⟨hslot, hentry⟩ := tree_edge_eq_some.mp hedge
  rw [slot_of_oneBlock hone hslot] at hentry
  exact hnames slot.2 (Dirent.edge_eq_some.mp hentry).2.1

/-- A search for an unused slot finds one, or all are in use. -/
theorem WellNamed.unused_cases (h : WellNamed disk) (hdir : (tree disk).Reach dir)
    (hmode : S_ISDIR (inodeAt disk dir).mode = true) :
    (searchDirIn isUnused (inodeAt disk dir) disk = .ok none ∧ ¬HasUnused disk dir) ∨
      ∃ hit, searchDirIn isUnused (inodeAt disk dir) disk = .ok (some hit) ∧ HasUnused disk dir := by
  obtain ⟨found, hsearch⟩ : ∃ found, searchDirIn isUnused (inodeAt disk dir) disk = .ok found :=
    searchLoopIn_ok (by have := h.dirBlocks_le hdir; omega) fun i _ _ slot => ⟨_, rfl⟩
  rcases found with _ | hit
  · refine Or.inl ⟨hsearch, ?_⟩
    rintro ⟨slot, hslot, hnone⟩
    have hvalid := searchDirIn_eq_none hsearch hslot.2 slot.2
    rw [edge_eq_none_iff hslot, direntAt] at hnone
    simp only [isUnused, hnone, Bool.not_false] at hvalid
    cases hvalid
  · obtain ⟨hslot, hentry⟩ := hit_slot hmode hsearch
    obtain ⟨-, -, htest⟩ := searchDirIn_eq_some hsearch
    refine Or.inr ⟨hit, hsearch, _, hslot, ?_⟩
    rw [tree_edge_of_hasSlot hslot, hentry]
    exact Dirent.edge_eq_none.mpr (by simpa [isUnused] using htest)

end Parent

/-! ### Clear bits -/

section Bits

variable {fs : Fs} {map : Block}

/-- `fs_create` finds no clear bit where there is none. -/
theorem freeBits_eq_empty (h : ∀ b, clearBit fs.bitmap fs.diskSize ≠ .ok (some b)) : freeBits fs = ∅ := by
  have hspec := @clearBitLoop_spec fs.bitmap (fs.diskSize - 2) 2
  rw [← clearBit] at hspec
  refine Finset.eq_empty_of_forall_notMem fun b hb => ?_
  obtain ⟨hle, hlt, hbits, hclear⟩ := mem_freeBits.mp hb
  rcases hfound : clearBit fs.bitmap fs.diskSize with reason | (_ | b')
  · rw [hfound] at hspec
    cases hclear.symm.trans (hspec.2.2 b hle hbits)
  · rw [hfound] at hspec
    cases hclear.symm.trans (hspec b hle (by omega))
  · exact h b' hfound

/-- After a first clear bit the loop of `fs_mkdir` finds a second one, or there is none. -/
theorem clearBitsLoop_one {left i d : Nat} (hd : d ≠ 0) (hi : i ≠ 0)
    (h : ∀ b, clearBitsLoop map left i d 0 = .ok (d, b) → b = 0) :
    ∀ j, i ≤ j → j < i + left → j < bitmapBits → bitTest map j = true := by
  induction left generalizing i with
  | zero =>
      intro j hle hlt
      omega
  | succ left ih =>
      unfold clearBitsLoop at h
      intro j hle hlt hbits
      rw [if_neg (by omega), if_neg (by simp [hd])] at h
      by_cases hclear : bitTest map i = false
      · rw [if_pos ⟨rfl, hclear⟩] at h
        exact absurd (h i rfl) hi
      · rw [if_neg (by simp [hclear])] at h
        rcases Nat.eq_or_lt_of_le hle with rfl | hlt'
        · simpa using hclear
        · exact ih (by omega) h j hlt' (by omega) hbits

/-- The loop of `fs_mkdir` finds two clear bits, or there is at most one. -/
theorem clearBitsLoop_few {left i : Nat} (hi : i ≠ 0)
    (h : ∀ d b, clearBitsLoop map left i 0 0 = .ok (d, b) → d = 0 ∨ b = 0) :
    ∃ d, ∀ j, i ≤ j → j < i + left → j < bitmapBits → bitTest map j = false → j = d := by
  induction left generalizing i with
  | zero => exact ⟨0, fun j hle hlt => by omega⟩
  | succ left ih =>
      unfold clearBitsLoop at h
      by_cases hbound : bitmapBits ≤ i
      · exact ⟨0, fun j hle _ hbits => by omega⟩
      · rw [if_neg hbound] at h
        by_cases hclear : bitTest map i = false
        · rw [if_pos ⟨rfl, hclear⟩] at h
          have hrest := clearBitsLoop_one (d := i) hi (show i + 1 ≠ 0 by omega)
            fun b hb => (h i b hb).resolve_left hi
          refine ⟨i, fun j hle hlt hbits hj => ?_⟩
          by_contra hne
          cases hj.symm.trans (hrest j (by omega) (by omega) hbits)
        · rw [if_neg (by simp [hclear]), if_neg (by simp [hclear])] at h
          obtain ⟨d, hd⟩ := ih (by omega) h
          refine ⟨d, fun j hle hlt hbits hj => ?_⟩
          rcases Nat.eq_or_lt_of_le hle with rfl | hlt'
          · exact absurd hj hclear
          · exact hd j hlt' (by omega) hbits hj

/-- `fs_mkdir` finds no two clear bits where there are no two. -/
theorem card_freeBits_le_one (h : ∀ d b, clearBits fs.bitmap fs.diskSize = .ok (d, b) → d = 0 ∨ b = 0) :
    (freeBits fs).card ≤ 1 := by
  obtain ⟨d, hd⟩ := clearBitsLoop_few (show 2 ≠ 0 by decide) h
  have hall : ∀ b ∈ freeBits fs, b = d := fun b hb => by
    obtain ⟨hle, hlt, hbits, hclear⟩ := mem_freeBits.mp hb
    exact hd b hle (by omega) hbits hclear
  apply Finset.card_le_one.mpr
  intro a ha b hb
  calc a = d := hall a ha
    _ = b := (hall b hb).symm

theorem Claimable.length_le_freeBits {claimed : List Nat} (h : Claimable fs claimed) :
    claimed.length ≤ (freeBits fs).card := by
  apply h.length_le_card
  intro b hb
  obtain ⟨hle, hlt, hbits⟩ := h.range b hb
  exact mem_freeBits.mpr ⟨hle, hlt, hbits, h.clear b hb⟩

theorem clearBitsLoop_error {left i d b : Nat} {reason : Stop} (h : clearBitsLoop map left i d b = .error reason) :
    reason = .fault := by
  induction left generalizing i d b with
  | zero => cases h
  | succ left ih =>
      unfold clearBitsLoop at h
      split_ifs at h
      · exact (Except.error.inj h).symm
      · exact ih h
      · exact ih h

end Bits

/-! ### How the requests end -/

/-- The end of a request that makes an object of `need` blocks: with an error and nothing changed, with the
bits set but no slot for the entry, or with the object in the tree. -/
inductive Making (need : Nat) (full : Errno) (isNew : Inode → Prop) (fs : Fs) (path : CStr) :
    Except Stop Int → Fs → Prop
  | noParent {reason : Stop} (hreason : reason = .fault ∨ LookupError reason)
      (hnot : ∀ name dir, ¬ParentAt fs.disk path name dir) : Making need full isNew fs path (.error reason) fs
  | there {name : CStr} {dir : Nat} (hat : ParentAt fs.disk path name dir) (hname : ¬NameFree fs.disk dir name) :
      Making need full isNew fs path (.error (.errno .EEXIST)) fs
  | noSpace {reason : Stop} {name : CStr} {dir : Nat} (hat : ParentAt fs.disk path name dir)
      (hname : NameFree fs.disk dir name) (hspace : (freeBits fs).card < need)
      (hreason : reason = .fault ∨ reason = .errno .ENOSPC) : Making need full isNew fs path (.error reason) fs
  | full {name : CStr} {dir : Nat} {claimed : List Nat} {fs' : Fs} (hat : ParentAt fs.disk path name dir)
      (hname : NameFree fs.disk dir name) (hclaim : Claimable fs claimed) (hcount : claimed.length = need)
      (hfull : ¬HasUnused fs.disk dir) (hbitmap : fs'.bitmap = setAll fs.bitmap claimed) :
      Making need full isNew fs path (.error (.errno full)) fs'
  | done {name : CStr} {dir inum : Nat} {slot : Slot} {inode : Inode} {claimed : List Nat} {fs' : Fs}
      (hat : ParentAt fs.disk path name dir) (hname : NameFree fs.disk dir name) (hcount : claimed.length = need)
      (hunused : HasUnused fs.disk dir) (hnew : isNew inode)
      (hcreated : Created fs fs' dir slot name inum inode claimed) : Making need full isNew fs path (.ok 0) fs'

section Making

variable {env : Env} {fs : Fs} {path name : CStr} {dir : Nat}

theorem does_tryBlockWrite (hquiet : env.Quiet) {lba : Nat} (hlba : Writable lba) (block : Block) :
    Does env fs (tryBlockWrite lba block) (.ok true) [.blockWrite lba block] :=
  (ensures_tryBlockWrite hlba block).mono fun _ _ hpost =>
    hpost.elim Or.inl fun hfailed => absurd hquiet hfailed.2.2

/-- The last loop of `fs_create` and `fs_mkdir`, in a state with the same directories. -/
theorem does_addEntry (h : Sound fs) (hdir : (tree fs.disk).Reach dir)
    (hmode : S_ISDIR (inodeAt fs.disk dir).mode = true) (full : Errno) {fs' : Fs} {inum : Nat}
    (hkeep : KeepsBut (fun _ => False) fs.disk fs'.disk) :
    (searchDirIn isUnused (inodeAt fs.disk dir) fs.disk = .ok none →
        Does env fs' (addEntry (inodeAt fs.disk dir) inum name full) (.error (.errno full)) []) ∧
      ∀ hit, searchDirIn isUnused (inodeAt fs.disk dir) fs.disk = .ok (some hit) →
        Does env fs' (addEntry (inodeAt fs.disk dir) inum name full) (.ok 0)
          [.blockWrite ((inodeAt fs.disk dir).ptrs hit.index).toNat
            (hit.block.setDirent hit.slot (hit.entry.fill inum name))] := by
  have hsame : searchDirIn isUnused (inodeAt fs.disk dir) fs'.disk =
      searchDirIn isUnused (inodeAt fs.disk dir) fs.disk :=
    searchDirIn_congr fun i hi => by
      have hslot : HasSlot fs.disk dir (i, 0) := ⟨hmode, hi⟩
      exact hkeep _ (Graph.Uses.cell hdir hslot.cell).inUse id
  have hread : Reads env fs' (searchDir isUnused (inodeAt fs.disk dir))
      (searchDirIn isUnused (inodeAt fs.disk dir) fs.disk) := hsame ▸ reads_searchDir
  refine ⟨fun hsearch => ?_, fun hit hsearch => ?_⟩ <;> rw [hsearch] at hread
  · exact does_read_bind hread (Follows.stop _)
  · exact does_read_bind hread (does_bind_read
      (does_blockWrite (h.hit_writable hdir hmode hsearch) _) (Follows.pure 0))

/-- The name in the parent, looked up by `fs_create` and `fs_mkdir`. -/
theorem WellNamed.name_cases (h : WellNamed fs.disk) (hdir : (tree fs.disk).Reach dir)
    (hmode : S_ISDIR (inodeAt fs.disk dir).mode = true) (name : CStr) :
    (∃ hit, searchDirIn (hasName name) (inodeAt fs.disk dir) fs.disk = .ok (some hit) ∧
        ¬NameFree fs.disk dir name) ∨
      (searchDirIn (hasName name) (inodeAt fs.disk dir) fs.disk = .ok none ∧ NameFree fs.disk dir name) := by
  obtain ⟨_ | hit, hsearch⟩ := h.search_ok hdir hmode name
  · exact Or.inr ⟨hsearch, edge_ne_of_search hsearch⟩
  · exact Or.inl ⟨hit, hsearch, fun hfree => hfree _ _ (edge_of_search hmode hsearch)⟩

/-- The first part of a creation that finds no slot leaves the tree as it was. -/
theorem Creates.undone {isNew : Inode → Prop} {limits : Limits} {value : Except Stop Int} {plan : List Event}
    {reason : Stop} (h : Creates isNew limits fs path value plan) (hvalue : value = .error reason) :
    Undone fs plan := by
  cases h with
  | stops hundone _ => exact hundone
  | done => cases hvalue

theorem Creates.created {isNew : Inode → Prop} {limits : Limits} {value : Except Stop Int} {plan : List Event}
    (h : Creates isNew limits fs path value plan) (hvalue : value = .ok 0) :
    ∃ name dir inum slot inode claimed, CreateAt limits fs path name dir ∧ isNew inode ∧
      claimed.length = inode.numBlocks + 1 ∧ Created fs (fs.replay plan) dir slot name inum inode claimed := by
  cases h with
  | stops => cases hvalue
  | done _ _ hat hnew hcount hcreated => exact ⟨_, _, _, _, _, _, hat, hnew, hcount, hcreated⟩

theorem Created.hasSlot {fs' : Fs} {inum : Nat} {slot : Slot} {inode : Inode} {claimed : List Nat}
    (h : Created fs fs' dir slot name inum inode claimed) : HasSlot fs.disk dir slot := by
  have hslot := (tree_edge_eq_some.mp h.adds.added).1
  rwa [HasSlot, h.inodes dir h.adds.parent] at hslot

/-- The directory whose slot a creation fills is the one that the path names. -/
theorem CreateAt.parentAt {limits : Limits} {slot : Slot} (hat : CreateAt limits fs path name dir)
    (hpath : Plain path) (hex : (tree fs.disk).Exclusive) (hslot : HasSlot fs.disk dir slot) :
    ParentAt fs.disk path name dir := by
  obtain ⟨init, found, hsplit, hinit, hinode, hmode⟩ := parentDirIn_eq_ok hat.parent
  rw [hpath.resolvePath] at hsplit
  -- the two inodes agree, and a block of them is used once
  have hcell : (tree fs.disk).cell found slot.1 = some ((inodeAt fs.disk dir).ptrs slot.1).toNat :=
    tree_cell_eq_some.mpr ⟨hinode ▸ hslot.lt_numBlocks, by rw [hinode]⟩
  cases hex _ _ _ (.cell (reach_of_descend hinit) hcell) (.cell hat.reach hslot.cell)
  exact ⟨⟨init, hsplit, leads_of_descend hinit⟩, hmode⟩

/-- Creation in a directory with an unused slot. -/
theorem making_of_created {need : Nat} {full : Errno} {isNew : Inode → Prop} {limits : Limits} {plan : List Event}
    (hpath : Plain path) (h : WellFormed fs) (hblocks : ∀ inode, isNew inode → inode.numBlocks + 1 = need)
    (hat : ParentAt fs.disk path name dir) (hname : NameFree fs.disk dir name) (hunused : HasUnused fs.disk dir)
    (hcreates : Creates isNew limits fs path (.ok 0) plan) :
    Making need full isNew fs path (.ok 0) (fs.replay plan) := by
  obtain ⟨name', dir', inum, slot, inode, claimed, hat', hnew, hcount, hcreated⟩ := hcreates.created rfl
  obtain ⟨rfl, rfl⟩ := hat.unique (hat'.parentAt hpath h.exclusive hcreated.hasSlot) h.unique
  exact .done hat hname (hcount.trans (hblocks inode hnew)) hunused hnew hcreated

/-- `fs_create` from its scan on, where the name is not there. -/
theorem does_fsCreate {parent : Inode} {mode : UInt32} {found : Except Stop (Option Nat)} {value : Except Stop Int}
    {plan : List Event} (hread : Reads env fs (parentDir path) (.ok (name, parent)))
    (hfind : Reads env fs (searchDir (hasName name) parent) (.ok none))
    (hclear : clearBit fs.bitmap fs.diskSize = found)
    (h : Does env fs (do
      match ← lift found with
      | none => err .ENOSPC
      | some inum =>
          bitmapSet inum
          bitmapWrite
          if ← tryBlockWrite inum (newInode (← ask) mode).toBlock then
            addEntry parent inum name .ENOSPC
          else
            bitmapClear inum
            let _ ← tryBlockWrite 1 (← getBitmap)
            err Errno.EIO) value plan) :
    Does env fs (fsCreate path mode) value plan := by
  subst hclear
  exact does_read_bind hread (does_read_bind hfind
    (does_read_bind reads_getBitmap (does_read_bind reads_getDiskSize h)))

/-- How `fs_create` ends. -/
theorem making_create (h : WellFormed fs) (hlimits : Roomy env.limits) (hquiet : env.Quiet) (hpath : Plain path)
    (mode : UInt32) : Making 1 .ENOSPC (· = newInode env mode) fs path (Op.run (.create path mode) env fs).1
      (Op.run (.create path mode) env fs).2.fs := by
  have hrun : ∀ {value plan}, Does env fs (fsCreate path mode) value plan →
      (Op.run (.create path mode) env fs).1 = value ∧ (Op.run (.create path mode) env fs).2.fs = fs.replay plan :=
    fun hdoes => run_of_does hdoes hquiet
  rcases hpath.parent_cases hlimits h.toWellNamed with ⟨reason, hparent, hreason, hnot⟩ | ⟨name, dir, hat, hparent⟩
  · obtain ⟨hvalue, hfs⟩ := hrun (Follows.bind_error (hparent ▸ reads_parentDir path))
    rw [hvalue, hfs]
    exact .noParent hreason hnot
  have hread : Reads env fs (parentDir path) (.ok (name, inodeAt fs.disk dir)) := hparent ▸ reads_parentDir path
  have hfind : Reads env fs (searchDir (hasName name) (inodeAt fs.disk dir)) _ := reads_searchDir
  rcases h.name_cases hat.reach hat.mode name with ⟨hit, hsearch, hname⟩ | ⟨hsearch, hname⟩ <;> rw [hsearch] at hfind
  · obtain ⟨hvalue, hfs⟩ := hrun (does_read_bind hread (does_read_bind hfind (Follows.stop _)))
    rw [hvalue, hfs]
    exact .there hat hname
  rcases hclear : clearBit fs.bitmap fs.diskSize with reason | (_ | inum)
  · obtain ⟨hvalue, hfs⟩ := hrun (does_fsCreate hread hfind hclear (Follows.bind_error (Follows.lift _)))
    rw [hvalue, hfs]
    have hnone : freeBits fs = ∅ := freeBits_eq_empty fun b hb => by cases hclear.symm.trans hb
    exact .noSpace hat hname (by simp [hnone]) (Or.inl (clearBit_eq_error hclear).1)
  · obtain ⟨hvalue, hfs⟩ := hrun (does_fsCreate hread hfind hclear (does_read_bind (Follows.lift _) (Follows.stop _)))
    rw [hvalue, hfs]
    have hnone : freeBits fs = ∅ := freeBits_eq_empty fun b hb => by cases hclear.symm.trans hb
    exact .noSpace hat hname (by simp [hnone]) (Or.inr rfl)
  have hclaim := claimable_of_clearBit hclear
  have hwritable : Writable inum := hclaim.writable List.mem_cons_self
  have hcreateAt : CreateAt env.limits fs path name dir := ⟨hparent, hat.reach, hat.mode, hsearch⟩
  set first : List Event := [.bitSet inum, .blockWrite 1 (bitSet fs.bitmap inum),
    .blockWrite inum (newInode env mode).toBlock] with hfirst
  have hundone : Undone fs first :=
    (creates_of_create h.toSound (.marked hcreateAt hclear (.full .fault))).undone rfl
  have hprepare : ∀ {value last}, Does env (fs.replay first) (addEntry (inodeAt fs.disk dir) inum name .ENOSPC)
        value last →
      (Op.run (.create path mode) env fs).1 = value ∧
        (Op.run (.create path mode) env fs).2.fs = fs.replay (first ++ last) := by
    intro value last hdoes
    have hlist : first ++ last = [Event.bitSet inum] ++ ([Event.blockWrite 1 (bitSet fs.bitmap inum)] ++
        ([Event.blockWrite inum (newInode env mode).toBlock] ++ last)) := rfl
    rw [hlist]
    apply hrun
    refine does_fsCreate hread hfind hclear (does_read_bind (Follows.lift _) ?_)
    refine does_bind (does_bitmapSet (hclaim.range inum List.mem_cons_self).2.2) ?_
    refine does_bind does_bitmapWrite (does_read_bind Follows.ask ?_)
    exact does_bind (does_tryBlockWrite hquiet hwritable _) hdoes
  obtain ⟨hnone, hsome⟩ := @does_addEntry env fs name dir h.toSound hat.reach hat.mode .ENOSPC (fs.replay first) inum
    (keeps_replay hundone.silent).disk
  rcases h.unused_cases hat.reach hat.mode with ⟨hunused, hfull⟩ | ⟨hit, hunused, hfree⟩
  · obtain ⟨hvalue, hfs⟩ := hprepare (hnone hunused)
    rw [hvalue, hfs, List.append_nil]
    exact .full hat hname hclaim rfl hfull rfl
  · obtain ⟨hvalue, hfs⟩ := hprepare (hsome hit hunused)
    rw [hvalue, hfs]
    refine making_of_created hpath h ?_ hat hname hfree
      (creates_of_create h.toSound (.marked hcreateAt hclear (.done hunused)))
    rintro inode rfl
    rw [numBlocks_newInode]

/-- `fs_mkdir` from its scan on, where the name is not there. -/
theorem does_fsMkdir {parent : Inode} {mode : UInt32} {found : Except Stop (Nat × Nat)} {value : Except Stop Int}
    {plan : List Event} (hread : Reads env fs (parentDir path) (.ok (name, parent)))
    (hfind : Reads env fs (searchDir (hasName name) parent) (.ok none))
    (hclear : clearBits fs.bitmap fs.diskSize = found)
    (h : Does env fs (do
      let (dirInum, dataBlock) ← lift found
      if dirInum = 0 ∨ dataBlock = 0 then
        err .ENOSPC
      else
        bitmapSet dirInum
        bitmapSet dataBlock
        bitmapWrite
        if ← tryBlockWrite dirInum (newDirInode (← ask) mode dataBlock).toBlock then
          if ← tryBlockWrite dataBlock Block.zero then
            addEntry parent dirInum name .EOPNOTSUPP
          else
            undoMkdir dirInum dataBlock
        else
          undoMkdir dirInum dataBlock) value plan) :
    Does env fs (fsMkdir path mode) value plan := by
  subst hclear
  exact does_read_bind hread (does_read_bind hfind
    (does_read_bind reads_getBitmap (does_read_bind reads_getDiskSize h)))

/-- How `fs_mkdir` ends. -/
theorem making_mkdir (h : WellFormed fs) (hlimits : Roomy env.limits) (hquiet : env.Quiet) (hpath : Plain path)
    (mode : UInt32) : Making 2 .EOPNOTSUPP (fun inode => ∃ block, inode = newDirInode env mode block) fs path
      (Op.run (.mkdir path mode) env fs).1 (Op.run (.mkdir path mode) env fs).2.fs := by
  have hrun : ∀ {value plan}, Does env fs (fsMkdir path mode) value plan →
      (Op.run (.mkdir path mode) env fs).1 = value ∧ (Op.run (.mkdir path mode) env fs).2.fs = fs.replay plan :=
    fun hdoes => run_of_does hdoes hquiet
  rcases hpath.parent_cases hlimits h.toWellNamed with ⟨reason, hparent, hreason, hnot⟩ | ⟨name, dir, hat, hparent⟩
  · obtain ⟨hvalue, hfs⟩ := hrun (Follows.bind_error (hparent ▸ reads_parentDir path))
    rw [hvalue, hfs]
    exact .noParent hreason hnot
  have hread : Reads env fs (parentDir path) (.ok (name, inodeAt fs.disk dir)) := hparent ▸ reads_parentDir path
  have hfind : Reads env fs (searchDir (hasName name) (inodeAt fs.disk dir)) _ := reads_searchDir
  rcases h.name_cases hat.reach hat.mode name with ⟨hit, hsearch, hname⟩ | ⟨hsearch, hname⟩ <;> rw [hsearch] at hfind
  · obtain ⟨hvalue, hfs⟩ := hrun (does_read_bind hread (does_read_bind hfind (Follows.stop _)))
    rw [hvalue, hfs]
    exact .there hat hname
  rcases hclear : clearBits fs.bitmap fs.diskSize with reason | ⟨inum, block⟩
  · obtain ⟨hvalue, hfs⟩ := hrun (does_fsMkdir hread hfind hclear (Follows.bind_error (Follows.lift _)))
    rw [hvalue, hfs]
    have hfew : (freeBits fs).card ≤ 1 := card_freeBits_le_one fun d b hb => by cases hclear.symm.trans hb
    exact .noSpace hat hname (by omega) (Or.inl (clearBitsLoop_error hclear))
  by_cases hzero : inum = 0 ∨ block = 0
  · have hstop := hrun (does_fsMkdir hread hfind hclear (does_read_bind (Follows.lift _) (by
      dsimp only
      rw [if_pos hzero]
      exact Follows.stop _)))
    rw [hstop.1, hstop.2]
    have hfew : (freeBits fs).card ≤ 1 := card_freeBits_le_one fun d b hb => by
      obtain ⟨rfl, rfl⟩ := Prod.mk.inj (Except.ok.inj (hclear.symm.trans hb))
      exact hzero
    exact .noSpace hat hname (by omega) (Or.inr rfl)
  have hclaim := claimable_of_clearBits hclear (not_or.mp hzero).2
  have hinum := hclaim.range inum (by simp)
  have hblock := hclaim.range block (by simp)
  have hwritable : Writable inum ∧ Writable block := ⟨hclaim.writable (by simp), hclaim.writable (by simp)⟩
  have hcreateAt : CreateAt env.limits fs path name dir := ⟨hparent, hat.reach, hat.mode, hsearch⟩
  set first : List Event := [.bitSet inum, .bitSet block, .blockWrite 1 (setAll fs.bitmap [inum, block]),
    .blockWrite inum (newDirInode env mode block).toBlock, .blockWrite block Block.zero] with hfirst
  have hundone : Undone fs first :=
    (@creates_of_mkdir env fs path mode _ _ h.toSound (.marked hcreateAt hclaim (.full .fault))).undone rfl
  have hprepare : ∀ {value last}, Does env (fs.replay first) (addEntry (inodeAt fs.disk dir) inum name .EOPNOTSUPP)
        value last →
      (Op.run (.mkdir path mode) env fs).1 = value ∧
        (Op.run (.mkdir path mode) env fs).2.fs = fs.replay (first ++ last) := by
    intro value last hdoes
    have hlist : first ++ last = [Event.bitSet inum] ++ ([Event.bitSet block] ++
        ([Event.blockWrite 1 (setAll fs.bitmap [inum, block])] ++
          ([Event.blockWrite inum (newDirInode env mode block).toBlock] ++ ([Event.blockWrite block Block.zero] ++ last)))) := rfl
    rw [hlist]
    apply hrun
    refine does_fsMkdir hread hfind hclear (does_read_bind (Follows.lift _) ?_)
    dsimp only
    rw [if_neg hzero]
    refine does_bind (does_bitmapSet hinum.2.2) (does_bind (does_bitmapSet hblock.2.2) ?_)
    refine does_bind does_bitmapWrite (does_read_bind Follows.ask ?_)
    refine does_bind (does_tryBlockWrite hquiet hwritable.1 _) ?_
    exact does_bind (does_tryBlockWrite hquiet hwritable.2 _) hdoes
  obtain ⟨hnone, hsome⟩ := @does_addEntry env fs name dir h.toSound hat.reach hat.mode .EOPNOTSUPP (fs.replay first)
    inum (keeps_replay hundone.silent).disk
  rcases h.unused_cases hat.reach hat.mode with ⟨hunused, hfull⟩ | ⟨hit, hunused, hfree⟩
  · obtain ⟨hvalue, hfs⟩ := hprepare (hnone hunused)
    rw [hvalue, hfs, List.append_nil]
    exact .full hat hname hclaim rfl hfull rfl
  · obtain ⟨hvalue, hfs⟩ := hprepare (hsome hit hunused)
    rw [hvalue, hfs]
    refine making_of_created hpath h ?_ hat hname hfree
      (creates_of_mkdir h.toSound (.marked hcreateAt hclaim (.done hunused)))
    rintro inode ⟨block, rfl⟩
    rw [numBlocks_newDirInode]

end Making

end Fs5600
