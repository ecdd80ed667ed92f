import Fs5600.Created
import Fs5600.Remove
import Fs5600.Rename

/-! What `fs_unlink`, `fs_rmdir` and `fs_rename` do to the tree: the write of a directory block takes
effect, and takes one entry away or gives it another name. -/

namespace Fs5600

open Ownership Command

/-! ### Objects that leave -/

/-- The second state lacks one entry of a directory. -/
structure Detached (fs fs' : Fs) (dir : Nat) (slot : Slot) (name : List UInt8) (inum : Nat) : Prop where
  reach : (tree fs.disk).Reach dir
  edge : (tree fs.disk).edge dir slot = some (name, inum)
  mode : S_ISDIR (inodeAt fs.disk dir).mode = true
  removes : (tree fs.disk).RemovesEdge (tree fs'.disk) dir slot
  inodes : ∀ n, (tree fs.disk).Reach n → inodeAt fs'.disk n = inodeAt fs.disk n
  disk : KeepsBut (fun b => b = ((inodeAt fs.disk dir).ptrs slot.1).toNat) fs.disk fs'.disk

section Detached

variable {fs fs' : Fs} {dir inum : Nat} {slot : Slot} {name : CStr} {label : List UInt8}

/-- Whatever is in use after an entry is gone was in use before. -/
theorem Detached.inUse (h : Detached fs fs' dir slot label inum) {b : Nat} (hb : (tree fs'.disk).InUse b) :
    (tree fs.disk).InUse b := by
  obtain ⟨use, huse⟩ := hb
  exact (h.removes.uses huse).1.inUse

theorem Detached.sound (h : Detached fs fs' dir slot label inum) (hsound : Sound fs)
    (hsize : fs'.diskSize = fs.diskSize)
    (hmarks : ∀ b, (tree fs'.disk).InUse b → bitTest fs.bitmap b = true → bitTest fs'.bitmap b = true) :
    Sound fs' where
  exclusive := h.removes.exclusive hsound.exclusive
  range b hb := hsize ▸ hsound.range b (h.inUse hb)
  marked b hb := hmarks b hb (hsound.marked b (h.inUse hb))

/-- The write of `removeEntry`, with other blocks in use left as they are. -/
theorem detached_of_disk (h : Sound fs) (hreach : (tree fs.disk).Reach dir)
    (hmode : S_ISDIR (inodeAt fs.disk dir).mode = true) {hit : Hit}
    (hsearch : searchDirIn (hasName name) (inodeAt fs.disk dir) fs.disk = .ok (some hit))
    (hwritten : fs'.disk ((inodeAt fs.disk dir).ptrs hit.index).toNat =
      hit.block.setDirent hit.slot hit.entry.invalidate)
    (hkeep : KeepsBut (fun b => b = ((inodeAt fs.disk dir).ptrs hit.index).toNat) fs.disk fs'.disk) :
    Detached fs fs' dir (hit.index, hit.slot) name.bytes hit.entry.inode.toNat := by
  obtain ⟨-, hblock, -⟩ := searchDirIn_eq_some hsearch
  obtain ⟨hslot, -⟩ := hit_slot hmode hsearch
  have hchanges := changesEntry_of_slot h.exclusive hreach hslot rfl (by rw [hwritten, hblock]) hkeep
  exact ⟨hreach, edge_of_search hmode hsearch, hmode, hchanges.removesEdge rfl, hchanges.inode, hkeep⟩

theorem detached_removal (h : Sound fs) (hreach : (tree fs.disk).Reach dir)
    (hmode : S_ISDIR (inodeAt fs.disk dir).mode = true) {hit : Hit}
    (hsearch : searchDirIn (hasName name) (inodeAt fs.disk dir) fs.disk = .ok (some hit)) :
    Detached fs (fs.replay (removal (inodeAt fs.disk dir) (some hit))) dir (hit.index, hit.slot) name.bytes
      hit.entry.inode.toNat :=
  detached_of_disk h hreach hmode hsearch (Function.update_self _ _ _)
    fun _ _ hne => Function.update_of_ne hne _ _

end Detached

/-- The second state lacks one entry of a directory and has bits cleared, in memory and on the disk. -/
structure Removed (fs fs' : Fs) (dir : Nat) (slot : Slot) (name : List UInt8) (inum : Nat)
    (released : List Nat) : Prop extends Detached fs fs' dir slot name inum where
  bitmap : fs'.bitmap = clearAll fs.bitmap released
  saved : fs'.disk 1 = fs'.bitmap
  superblock : fs'.disk 0 = fs.disk 0
  diskSize : fs'.diskSize = fs.diskSize

section Removed

variable {env : Env} {fs fs' : Fs} {dir inum : Nat} {name : CStr} {path : CStr}

theorem replay_release (fs : Fs) (bits : List Nat) :
    fs.replay (release fs.bitmap bits) =
      { fs with bitmap := clearAll fs.bitmap bits, disk := Function.update fs.disk 1 (clearAll fs.bitmap bits) } := by
  rw [release, Fs.replay_append, replay_bitClears]
  rfl

theorem removed_of_plan (h : Sound fs) (hreach : (tree fs.disk).Reach dir)
    (hmode : S_ISDIR (inodeAt fs.disk dir).mode = true) {hit : Hit}
    (hsearch : searchDirIn (hasName name) (inodeAt fs.disk dir) fs.disk = .ok (some hit)) (bits : List Nat) :
    Removed fs (fs.replay (removal (inodeAt fs.disk dir) (some hit) ++ release fs.bitmap bits)) dir
      (hit.index, hit.slot) name.bytes hit.entry.inode.toNat bits := by
  set ptr := ((inodeAt fs.disk dir).ptrs hit.index).toNat with hptr
  have hbitmap : (fs.replay (removal (inodeAt fs.disk dir) (some hit))).bitmap = fs.bitmap := removal_bitmap _ _
  have hrange : 2 ≤ ptr := (h.range _ (Graph.Uses.cell hreach (hit_slot hmode hsearch).1.cell).inUse).1
  rw [Fs.replay_append, ← hbitmap, replay_release, hbitmap]
  have hdisk : (fs.replay (removal (inodeAt fs.disk dir) (some hit))).disk =
      Function.update fs.disk ptr (hit.block.setDirent hit.slot hit.entry.invalidate) := rfl
  refine ⟨detached_of_disk h hreach hmode hsearch ?_ fun b hb hne => ?_, rfl, by simp, ?_, rfl⟩ <;>
    dsimp only <;> rw [hdisk]
  · rw [Function.update_of_ne (by omega), ← hptr, Function.update_self]
  · have hb2 := (h.range b hb).1
    rw [Function.update_of_ne (by omega), Function.update_of_ne hne]
  · rw [Function.update_of_ne (by omega), Function.update_of_ne (by omega)]

theorem ne_zero_of_inUse (h : Sound fs) {b : Nat} (hb : (tree fs.disk).InUse b) : b ≠ 0 := by
  have := (h.range b hb).1
  omega

/-- The blocks that `fs_unlink` marks free are the inode and its data blocks. -/
theorem mem_released (h : Sound fs) (hfits : Fits fs.disk) (hreach : (tree fs.disk).Reach inum) {b : Nat} :
    b ∈ freed (inodeAt fs.disk inum) (inodeAt fs.disk inum).numBlocks 0 ++ [inum] ↔
      b = inum ∨ ∃ i, (tree fs.disk).cell inum i = some b := by
  rw [List.mem_append, List.mem_singleton, or_comm, mem_freed]
  refine or_congr_right ⟨?_, ?_⟩
  · rintro ⟨-, i, -, hi, rfl⟩
    have hlt : i < numPtrs := by have := hfits inum hreach; omega
    exact ⟨⟨i, hlt⟩, tree_cell_eq_some.mpr ⟨by simpa using hi, by rw [Inode.block, dif_pos hlt]⟩⟩
  · rintro ⟨i, hcell⟩
    obtain ⟨hi, hb⟩ := tree_cell_eq_some.mp hcell
    refine ⟨ne_zero_of_inUse h (Graph.Uses.cell hreach hcell).inUse, i, Nat.zero_le _, by omega, ?_⟩
    rw [Inode.block_val, hb]

end Removed

/-! ### Entries that get another name -/

/-- The second state differs in the name of one entry. -/
structure Renamed (fs fs' : Fs) (dir : Nat) (slot : Slot) (src dst : CStr) (inum : Nat) : Prop where
  reach : (tree fs.disk).Reach dir
  before : (tree fs.disk).edge dir slot = some (src.bytes, inum)
  after : (tree fs'.disk).edge dir slot = some (dst.bytes.take 26, inum)
  mode : S_ISDIR (inodeAt fs.disk dir).mode = true
  relabels : (tree fs.disk).Relabels (tree fs'.disk)
  edge : ∀ n s, (tree fs.disk).Reach n → ¬(n = dir ∧ s = slot) → (tree fs'.disk).edge n s = (tree fs.disk).edge n s
  inodes : ∀ n, (tree fs.disk).Reach n → inodeAt fs'.disk n = inodeAt fs.disk n
  disk : KeepsBut (fun b => b = ((inodeAt fs.disk dir).ptrs slot.1).toNat) fs.disk fs'.disk
  bitmap : fs'.bitmap = fs.bitmap
  reserved : ∀ b < 2, fs'.disk b = fs.disk b
  diskSize : fs'.diskSize = fs.diskSize

section Renamed

variable {fs fs' : Fs} {dir inum : Nat} {slot : Slot} {src dst : CStr}

theorem Renamed.sound (h : Renamed fs fs' dir slot src dst inum) (hsound : Sound fs) : Sound fs' where
  exclusive := h.relabels.exclusive hsound.exclusive
  range b hb := h.diskSize ▸ hsound.range b (h.relabels.inUse_iff.mp hb)
  marked b hb := h.bitmap ▸ hsound.marked b (h.relabels.inUse_iff.mp hb)

theorem renamed_of_entry (h : Sound fs) (hreach : (tree fs.disk).Reach dir) (hslot : HasSlot fs.disk dir slot)
    (hvalid : (direntAt fs.disk dir slot).valid = true)
    (hname : (direntAt fs.disk dir slot).storedName = src.bytes) :
    Renamed fs (fs.replay [.blockWrite ((inodeAt fs.disk dir).ptrs slot.1).toNat
      ((fs.disk ((inodeAt fs.disk dir).ptrs slot.1).toNat).setDirent slot.2
        ((direntAt fs.disk dir slot).rename dst))]) dir slot src dst (direntAt fs.disk dir slot).inode.toNat := by
  set ptr := ((inodeAt fs.disk dir).ptrs slot.1).toNat with hptr
  have hrange := h.range ptr (Graph.Uses.cell hreach hslot.cell).inUse
  have hedge : (tree fs.disk).edge dir slot = some (src.bytes, (direntAt fs.disk dir slot).inode.toNat) := by
    rw [tree_edge_of_hasSlot hslot]
    exact Dirent.edge_eq_some.mpr ⟨hvalid, hname, rfl⟩
  have hkeep : KeepsBut (fun b => b = ptr) fs.disk (Function.update fs.disk ptr
      ((fs.disk ptr).setDirent slot.2 ((direntAt fs.disk dir slot).rename dst))) :=
    fun b _ hne => Function.update_of_ne hne _ _
  have hchanges := changesEntry_of_slot h.exclusive hreach hslot rfl (Function.update_self _ _ _) hkeep
  refine ⟨hreach, hedge, hchanges.here.trans ?_, hslot.1, hchanges.relabels hvalid hedge, hchanges.edge,
    hchanges.inode, hkeep, rfl, fun b hb => Function.update_of_ne (by omega) _ _, rfl⟩
  exact Dirent.edge_eq_some.mpr ⟨hvalid, storedName_copyName _ _ _ _, rfl⟩

end Renamed

end Fs5600
