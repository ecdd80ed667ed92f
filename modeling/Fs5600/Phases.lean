import Fs5600.Copy
import Fs5600.Descend

/-! The shape of every changing call: events that leave the tree as it is, one block write that changes
it, and again events that leave it as it is. The write that changes the tree is the point where the call
takes effect; a call cut short before or after it leaves the old tree or the new one. -/

namespace Fs5600

open Ownership Command Replay

/-- An event that leaves the tree of a disk as it is. It may write the blocks that `except` allows. -/
def Silent (disk : Nat → Block) (except : Nat → Prop) : Event → Prop
  | .bitSet i => i < bitmapBits
  | .bitClear i => ¬(tree disk).InUse i
  | .blockWrite b _ => (tree disk).InUse b → except b

/-- An event that clears no bit of the superblock or the bitmap block. -/
def Event.Spares : Event → Prop
  | .bitClear i => 2 ≤ i
  | _ => True

/-- The second state keeps what the tree of the first rests on, and its marks. -/
structure Keeps (except : Nat → Prop) (fs fs' : Fs) : Prop where
  diskSize : fs'.diskSize = fs.diskSize
  disk : KeepsBut except fs.disk fs'.disk
  marks : ∀ b, (tree fs.disk).InUse b → bitTest fs.bitmap b = true → bitTest fs'.bitmap b = true

section Keeping

variable {except : Nat → Prop} {fs fs' : Fs} {plan : List Event}

theorem Keeps.refl : Keeps except fs fs := ⟨rfl, fun _ _ _ => rfl, fun _ _ h => h⟩

theorem Keeps.mono {except' : Nat → Prop} (h : Keeps except fs fs') (himp : ∀ b, except b → except' b) :
    Keeps except' fs fs' := ⟨h.diskSize, h.disk.mono himp, h.marks⟩

theorem Keeps.apply (h : Keeps except fs fs') {event : Event} (hevent : Silent fs.disk except event) :
    Keeps except fs (fs'.apply event) := by
  cases event with
  | bitSet i =>
      refine ⟨h.diskSize, h.disk, fun b hb hmark => ?_⟩
      rw [Fs.apply, bitTest_bitSet _ hevent, h.marks b hb hmark, Bool.or_true]
  | bitClear i =>
      refine ⟨h.diskSize, h.disk, fun b hb hmark => ?_⟩
      have hne : i ≠ b := fun heq => hevent (by rwa [heq])
      rw [Fs.apply, bitTest_bitClear, h.marks b hb hmark, decide_eq_false hne]
      rfl
  | blockWrite b block =>
      refine ⟨h.diskSize, fun b' hb' hnot => ?_, h.marks⟩
      have hne : b' ≠ b := fun heq => hnot (heq ▸ hevent (by rwa [heq] at hb'))
      exact (Function.update_of_ne hne _ _).trans (h.disk b' hb' hnot)

theorem keeps_throughout (hplan : ∀ event ∈ plan, Silent fs.disk except event) :
    Throughout Fs.apply (Keeps except fs) fs plan :=
  throughout_of_step .refl fun event hevent _ h => h.apply (hplan event hevent)

theorem keeps_replay (hplan : ∀ event ∈ plan, Silent fs.disk except event) :
    Keeps except fs (fs.replay plan) := (keeps_throughout hplan).final

/-- The marks of the first two blocks stay. -/
theorem bitTest_replay_of_spares (hplan : ∀ event ∈ plan, event.Spares)
    (hsets : ∀ i, .bitSet i ∈ plan → i < bitmapBits) {b : Nat} (hb : b < 2)
    (hmark : bitTest fs.bitmap b = true) : bitTest (fs.replay plan).bitmap b = true := by
  induction plan generalizing fs with
  | nil => exact hmark
  | cons event plan ih =>
      refine ih (fun e he => hplan e (List.mem_cons_of_mem _ he))
        (fun i hi => hsets i (List.mem_cons_of_mem _ hi)) ?_
      cases event with
      | bitSet i => rw [Fs.apply, bitTest_bitSet _ (hsets i List.mem_cons_self), hmark, Bool.or_true]
      | bitClear i =>
          have hi : 2 ≤ i := hplan _ List.mem_cons_self
          rw [Fs.apply, bitTest_bitClear, hmark, decide_eq_false (by omega)]
          rfl
      | blockWrite lba block => exact hmark

theorem silent_bitClears {bits : List Nat} (h : ∀ b ∈ bits, ¬(tree fs.disk).InUse b) :
    ∀ event ∈ bits.map .bitClear, Silent fs.disk except event := by
  intro event hevent
  obtain ⟨b, hb, rfl⟩ := List.mem_map.mp hevent
  exact h b hb

end Keeping

/-! ### Invariants that only the tree and the marks decide -/

/-- The inodes of all objects have a property. -/
def AllInodes (P : Inode → Prop) (disk : Nat → Block) : Prop :=
  ∀ n, (tree disk).Reach n → P (inodeAt disk n)

/-- No file has more blocks than its inode has pointers. -/
abbrev Fits (disk : Nat → Block) : Prop := AllInodes (fun inode => inode.numBlocks ≤ numPtrs) disk

/-- All directories have a number of data blocks with a property. -/
abbrev DirBlocks (P : Nat → Prop) (disk : Nat → Block) : Prop :=
  AllInodes (fun inode => S_ISDIR inode.mode = true → P inode.numBlocks) disk

/-- All blocks in use are marked in a bitmap. -/
def Covers (map : Block) (disk : Nat → Block) : Prop :=
  ∀ b, (tree disk).InUse b → bitTest map b = true

section Invariants

variable {fs fs' : Fs}

theorem Sound.covers (h : Sound fs) : Covers fs.bitmap fs.disk := h.marked

theorem Sound.fits (h : Sound fs) (hsize : fs.diskSize ≤ 1020) : Fits fs.disk :=
  fun _ hn => (h.numBlocks_lt hsize hn).le.trans (by decide)

theorem Sound.writable (h : Sound fs) {b : Nat} (hb : (tree fs.disk).InUse b) : Writable b :=
  ⟨by have := (h.range b hb).1; omega, (bitTest_lt (h.marked b hb)).trans (by decide)⟩

/-- The block of a directory that a search hits can be written. -/
theorem Sound.hit_writable (h : Sound fs) {dir : Nat} (hreach : (tree fs.disk).Reach dir)
    (hmode : S_ISDIR (inodeAt fs.disk dir).mode = true) {test : Dirent → Except Stop Bool} {hit : Hit}
    (hsearch : searchDirIn test (inodeAt fs.disk dir) fs.disk = .ok (some hit)) :
    Writable ((inodeAt fs.disk dir).ptrs hit.index).toNat :=
  h.writable (Graph.Uses.cell hreach (hit_slot hmode hsearch).1.cell).inUse

/-- The superblock and the bitmap block are not in use. -/
theorem Sound.reserved (h : Sound fs) {b : Nat} (hb : b < 2) : ¬(tree fs.disk).InUse b :=
  fun huse => by have := (h.range b huse).1; omega

theorem Sound.keeps (h : Sound fs) (hkeep : Keeps (IsData fs.disk) fs fs') : Sound fs' := by
  have hagrees := hkeep.disk.agrees h.exclusive
  refine ⟨hagrees.exclusive h.exclusive, fun b hb => ?_, fun b hb => ?_⟩
  · rw [hkeep.diskSize]
    exact h.range b (hagrees.inUse_iff.mp hb)
  · have hb' := hagrees.inUse_iff.mp hb
    exact hkeep.marks b hb' (h.marked b hb')

theorem AllInodes.keeps {P : Inode → Prop} (h : AllInodes P fs.disk) (hex : (tree fs.disk).Exclusive)
    (hkeep : KeepsBut (IsData fs.disk) fs.disk fs'.disk) : AllInodes P fs'.disk := by
  intro n hn
  have hn' := (hkeep.agrees hex).reach_iff.mp hn
  rw [hkeep.inodeAt hex hn']
  exact h n hn'

end Invariants

end Fs5600
