import Fs5600.Errors

/-! Crashes. A call that is cut off leaves the blocks it has written so far, and `fs_init` reads the bitmap
from there. The operations write in an order that keeps all blocks in use marked on the disk, but for
`fs_write` where a file grows: it writes the inode before the bitmap. -/

namespace Fs5600

open Ownership Command Replay

def Event.isWrite : Event → Bool
  | .blockWrite _ _ => true
  | _ => false

/-- The disk after the first `count` block writes of a trace. -/
def crashDisk (fs : Fs) (trace : List Event) (count : Nat) : Nat → Block :=
  (fs.replay ((trace.filter Event.isWrite).take count)).disk

/-- All blocks in use are marked in the bitmap on the disk. -/
def Durable (disk : Nat → Block) : Prop := Covers (disk 1) disk

section Cut

variable {fs : Fs} {trace : List Event}

theorem disk_replay_filter (fs : Fs) (trace : List Event) :
    (fs.replay (trace.filter Event.isWrite)).disk = (fs.replay trace).disk := by
  induction trace generalizing fs with
  | nil => rfl
  | cons event trace ih =>
      cases event with
      | blockWrite lba block => exact ih (fs.apply (.blockWrite lba block))
      | bitSet i => exact (ih fs).trans (Fs.replay_disk_congr (by rfl) trace)
      | bitClear i => exact (ih fs).trans (Fs.replay_disk_congr (by rfl) trace)

/-- The disk at a cut is the disk after a first part of the trace. -/
theorem exists_prefix_of_crash (fs : Fs) (trace : List Event) (count : Nat) :
    ∃ part, part <+: trace ∧ (fs.replay part).disk = crashDisk fs trace count := by
  have hsplit := (List.take_append_drop count (trace.filter Event.isWrite)).symm
  obtain ⟨part, rest, htrace, hpart, -⟩ := List.filter_eq_append_iff.mp hsplit
  exact ⟨part, ⟨rest, htrace.symm⟩, by rw [crashDisk, ← hpart, disk_replay_filter]⟩

theorem exists_crash_of_prefix (fs : Fs) {part : List Event} (hpart : part <+: trace) :
    ∃ count, crashDisk fs trace count = (fs.replay part).disk := by
  obtain ⟨rest, rfl⟩ := hpart
  refine ⟨(part.filter Event.isWrite).length, ?_⟩
  rw [crashDisk, List.filter_append, List.take_left, disk_replay_filter]

/-- All cuts keep a property of the disk if all first parts of the trace do. -/
theorem crash_iff_throughout {P : (Nat → Block) → Prop} :
    (∀ count, P (crashDisk fs trace count)) ↔ Throughout Fs.apply (fun state => P state.disk) fs trace := by
  constructor
  · intro h part hpart
    obtain ⟨count, hcount⟩ := exists_crash_of_prefix fs hpart
    exact hcount ▸ h count
  · intro h count
    obtain ⟨part, hpart, hdisk⟩ := exists_prefix_of_crash fs trace count
    exact hdisk ▸ h part hpart

end Cut

/-! ### The bitmap on the disk -/

section Durable

variable {env : Env} {fs fs' : Fs} {op : Op} {value : Except Stop Int} {plan : List Event}

/-- Events that leave the tree alone, and save no bitmap that lacks a mark, keep the disk durable. -/
theorem durable_of_silent (hex : (tree fs.disk).Exclusive)
    (hsilent : ∀ e ∈ plan, Silent fs.disk (IsData fs.disk) e)
    (hsaves : ∀ map, .blockWrite 1 map ∈ plan → Covers map fs.disk) (hdurable : Durable fs.disk) :
    Throughout Fs.apply (fun state => Durable state.disk) fs plan := by
  intro part hpart
  have hagrees := (keeps_replay fun e he => hsilent e (hpart.subset he)).disk.agrees hex
  have hsaved : Covers ((fs.replay part).disk 1) fs.disk := by
    have hstep := @throughout_of_step _ _ Fs.apply (fun state => Covers (state.disk 1) fs.disk) fs part hdurable
      fun event hevent state hstate => ?_
    · exact hstep.final
    · cases event with
      | bitSet i => exact hstate
      | bitClear i => exact hstate
      | blockWrite lba block =>
          by_cases hone : lba = 1
          · subst hone
            have heq : (state.apply (.blockWrite 1 block)).disk 1 = block := by simp [Fs.apply]
            rw [heq]
            exact hsaves block (hpart.subset hevent)
          · have heq : (state.apply (.blockWrite lba block)).disk 1 = state.disk 1 :=
              Function.update_of_ne (Ne.symm hone) _ _
            rw [heq]
            exact hstate
  exact fun b hb => hsaved b (hagrees.inUse_iff.mp hb)

/-- The write that takes effect keeps the disk durable, unless it is the inode write of a growing file. -/
theorem Commit.durable (h : Commit env fs fs' op) (hsound : Sound fs) (hdurable : Durable fs.disk)
    (hsaved : fs'.disk 1 = fs'.bitmap ∨ fs'.disk 1 = fs.disk 1)
    (hgrow : ∀ path buf offset, op = .write path buf offset →
      ∀ b, (tree fs'.disk).InUse b → (tree fs.disk).InUse b) : Durable fs'.disk := by
  have hcovers : fs'.disk 1 = fs'.bitmap → Durable fs'.disk := fun heq => by
    rw [Durable, heq]
    exact (h.sound hsound).covers
  have hshrinks : (∀ b, (tree fs'.disk).InUse b → (tree fs.disk).InUse b) → Durable fs'.disk := fun hold =>
    hsaved.elim hcovers fun heq b hb => by
      rw [heq]
      exact hdurable b (hold b hb)
  cases h with
  | create hat hcreated => exact hcovers hcreated.saved
  | mkdir hat hcreated => exact hcovers hcreated.saved
  | unlink hnames hfile hdetached hbitmap hsize => exact hshrinks fun b => hdetached.inUse
  | rmdir hat hnames hdetached hbitmap hsize => exact hshrinks fun b => hdetached.inUse
  | rename hdst hparent hfree hrenamed => exact hshrinks fun b => hrenamed.relabels.inUse_iff.mp
  | chmod hnames hreset => exact hshrinks fun b => hreset.agrees.inUse_iff.mp
  | utime hnames hreset => exact hshrinks fun b => hreset.agrees.inUse_iff.mp
  | truncate hnames hresized hmarks =>
      exact hshrinks fun b hb => ((hresized.inUse_truncate hsound.exclusive b).mp hb).1
  | write hnames hat hwritten => exact hshrinks (hgrow _ _ _ rfl)

/-- A request with two phases keeps the disk durable at every cut, unless a file grows. -/
theorem durable_of_phases (hphases : Phases env fs op value plan) (hsound : Sound fs) (hdurable : Durable fs.disk)
    (hgrow : ∀ path buf offset, op = .write path buf offset →
      ∀ mid, Commit env fs mid op → ∀ b, (tree mid.disk).InUse b → (tree fs.disk).InUse b) :
    Throughout Fs.apply (fun state => Durable state.disk) fs plan := by
  cases hphases with
  | idle hundone hsaves => exact durable_of_silent hsound.exclusive hundone.silent hsaves hdurable
  | @done first last lba block hfirst hsaves hcommit hsaved hlast hspares hlastSaves =>
      have hbefore := durable_of_silent hsound.exclusive (fun e he => (hfirst e he).1) hsaves hdurable
      have hmid := hcommit.durable hsound hdurable hsaved fun path buf offset hop => hgrow path buf offset hop _ hcommit
      have hafter := durable_of_silent (hcommit.sound hsound).exclusive (fun e he => ?_) hlastSaves hmid
      · rw [← List.singleton_append, ← List.append_assoc, throughout_append, throughout_append, throughout_cons,
          throughout_nil]
        refine ⟨⟨hbefore, hbefore.final, ?_⟩, hafter⟩
        rw [Fs.replay_append] at hmid
        exact hmid
      · have hsilent := hlast e he
        cases e with
        | bitSet i => exact hsilent
        | bitClear i => exact hsilent
        | blockWrite lba block => exact fun huse => (hsilent huse).elim
  | outside hop hat hempty hcommit hsaved =>
      have hmid := hcommit.durable hsound hdurable (Or.inr hsaved) fun path buf offset hwrite => by
        rw [hop] at hwrite
        cases hwrite
      rw [throughout_cons, throughout_nil]
      exact ⟨hdurable, hmid⟩

end Durable

/-! ### Growing files -/

/-- The blocks that can be allocated. -/
def freeBlocks (fs : Fs) : Finset Nat := (Finset.Ico 2 fs.diskSize).filter fun b => bitTest fs.bitmap b = false

/-- The write makes a file grow, and there are free blocks enough for it. -/
def Grows (limits : Limits) (fs : Fs) (path : CStr) (buf : List UInt8) (offset : Nat) : Prop :=
  ∃ inum, translateIn limits fs.disk path = .ok (inum, inodeAt fs.disk inum) ∧
    S_ISDIR (inodeAt fs.disk inum).mode = false ∧ (offset : Int) ≤ (inodeAt fs.disk inum).size.toInt ∧
    (inodeAt fs.disk inum).numBlocks < (offset + buf.length + 4095) / 4096 ∧
    (offset + buf.length + 4095) / 4096 ≤ (inodeAt fs.disk inum).numBlocks + (freeBlocks fs).card

section Grows

variable {env : Env} {fs : Fs} {path : CStr} {buf : List UInt8} {offset inum : Nat} {claimed : List Nat}

theorem mem_freeBlocks {b : Nat} : b ∈ freeBlocks fs ↔ 2 ≤ b ∧ b < fs.diskSize ∧ bitTest fs.bitmap b = false := by
  rw [freeBlocks, Finset.mem_filter, Finset.mem_Ico, and_assoc]

/-- No more blocks are claimed than there are. -/
theorem Claimable.length_le_card (h : Claimable fs claimed) {s : Finset Nat} (hsub : ∀ b ∈ claimed, b ∈ s) :
    claimed.length ≤ s.card :=
  calc claimed.length = claimed.toFinset.card := (List.toFinset_card_of_nodup h.nodup).symm
    _ ≤ s.card := Finset.card_le_card fun b hb => hsub b (List.mem_toFinset.mp hb)

theorem Claimable.length_le (h : Claimable fs claimed) : claimed.length ≤ (freeBlocks fs).card := by
  apply h.length_le_card
  intro b hb
  exact mem_freeBlocks.mpr ⟨(h.range b hb).1, (h.range b hb).2.1, h.clear b hb⟩

/-- A write that runs out of space has claimed all there was. -/
theorem card_freeBlocks_of_full (hclaim : Claimable fs claimed)
    (hall : ∀ b, 2 ≤ b → b < fs.diskSize → bitTest fs.bitmap b = false → b ∈ claimed) :
    (freeBlocks fs).card = claimed.length := by
  refine le_antisymm ?_ hclaim.length_le
  have hsub : freeBlocks fs ⊆ claimed.toFinset := by
    intro b hb
    obtain ⟨hle, hlt, hclear⟩ := mem_freeBlocks.mp hb
    exact List.mem_toFinset.mpr (hall b hle hlt hclear)
  calc (freeBlocks fs).card ≤ claimed.toFinset.card := Finset.card_le_card hsub
    _ ≤ claimed.length := List.toFinset_card_le claimed

/-- A write that claims blocks makes its file grow. -/
theorem grows_of_written {fs' : Fs} {inode : Inode} (hat : WriteAt env.limits fs path buf offset inum claimed)
    (hwritten : Written fs fs' inum buf offset claimed inode) (hne : claimed ≠ []) :
    Grows env.limits fs path buf offset := by
  have hpos := List.length_pos_iff.mpr hne
  have hle := hat.claimable.length_le
  have hblocks := hwritten.blocks
  have hoffset := hat.offset_le
  rw [Inode.numBlocks, hwritten.size, Inode.numBlocks] at hblocks
  simp only [fsBlockSize] at hblocks
  refine ⟨inum, hat.translate, hat.file, hat.offset_le, ?_, ?_⟩ <;> rw [Inode.numBlocks] <;>
    simp only [fsBlockSize] <;> omega

/-- A growing write reaches its inode write, with the blocks it claimed not marked on the disk. -/
theorem not_durable_of_grows (h : Sound fs) (hsize : fs.diskSize ≤ 1020) (hsaved : fs.disk 1 = fs.bitmap)
    (hlen : offset + buf.length < 2 ^ 31) (hgrows : Grows env.limits fs path buf offset) {value : Except Stop Int}
    {plan : List Event} (hwrite : Write env fs path buf offset value plan) :
    ¬Throughout Fs.apply (fun state => Durable state.disk) fs plan := by
  obtain ⟨inum, htranslate, hfile, hoffset, hneeds, hfree⟩ := hgrows
  have hreach := (reach_of_translateIn htranslate).1
  have hsame : ∀ {inum' claimed}, WriteAt env.limits fs path buf offset inum' claimed → inum' = inum := fun hat =>
    (Prod.mk.inj (Except.ok.inj (hat.translate.symm.trans htranslate))).1
  cases hwrite with
  | stops reason hnot => exact absurd ⟨htranslate, hfile, hoffset, .nil fs⟩ (hnot inum [])
  | @noSpace inum' claimed reason hat halloc =>
      obtain rfl := hsame hat
      have hroom := hat.claimable.room h hsize hreach
      cases halloc with
      | noSpace hlength hall =>
          have hcard := card_freeBlocks_of_full hat.claimable hall
          unfold blocksNeeded at hlength
          omega
      | fault hpos hlength hbound =>
          simp only [bitmapBits] at hbound
          omega
  | @done inum' claimed data hat hblocks hfits hwrites hbytes =>
      obtain rfl := hsame hat
      obtain ⟨-, -, hwritten, hkept⟩ := written_of_plan h hat hlen hblocks hfits hwrites hbytes
      intro hthrough
      have hcut := hthrough (claimed.map Event.bitSet ++ data ++ [Event.blockWrite inum'
        ((inodeAt fs.disk inum').grow claimed (offset + buf.length) env.time).toBlock]) ⟨_, by simp; rfl⟩
      have hpos : 0 < claimed.length := by omega
      have hmem := List.getElem_mem hpos
      have hmark := hcut _ ((hwritten.inUse_iff claimed[0]).mpr (Or.inr hmem))
      rw [hkept, hsaved, hat.claimable.clear _ hmem] at hmark
      cases hmark

end Grows

/-! ### All requests -/

section Requests

variable {env : Env} {fs : Fs} {path : CStr} {value : Except Stop Int} {plan : List Event}

theorem durable_of_truncate (h : Sound fs) (hfits : Fits fs.disk) (hdurable : Durable fs.disk) {len : Int}
    (htruncate : Truncate env fs path len value plan) :
    Throughout Fs.apply (fun state => Durable state.disk) fs plan := by
  cases htruncate with
  | stops reason => exact throughout_nil.mpr hdurable
  | @done inum hlen htranslate hfile =>
      have hreach := (reach_of_translateIn htranslate).1
      have hend := @truncated_of_plan fs inum env.time h hfits hreach hfile
      set bits := freed (inodeAt fs.disk inum) (inodeAt fs.disk inum).numBlocks 0
      rw [Fs.replay_append, replay_bitClears] at hend
      have hresized : Resized fs (Fs.apply { fs with bitmap := clearAll fs.bitmap bits }
          (.blockWrite inum ((inodeAt fs.disk inum).truncate env.time).toBlock)) inum
          ((inodeAt fs.disk inum).truncate env.time) :=
        resized_of_truncate h hreach hfile (Function.update_self _ _ _)
          (fun b _ hne => Function.update_of_ne hne _ _)
          (Function.update_of_ne (ne_zero_of_inUse h hreach.inUse).symm _ _) rfl
      have hinUse := hresized.inUse_truncate h.exclusive
      have hinum := (h.range inum hreach.inUse).1
      rw [throughout_append]
      constructor
      · intro part hpart
        have hdisk : (fs.replay part).disk = fs.disk := by
          have hclears : ∀ e ∈ part, ∃ b, e = Event.bitClear b := fun e he =>
            let ⟨b, _, heq⟩ := List.mem_map.mp (hpart.subset he)
            ⟨b, heq.symm⟩
          clear hpart
          induction part using List.reverseRecOn with
          | nil => rfl
          | append_singleton part e ih =>
              obtain ⟨b, rfl⟩ := hclears e (by simp)
              rw [Fs.replay_append]
              exact ih fun e he => hclears e (List.mem_append_left _ he)
        exact hdisk ▸ hdurable
      · have hcleared : replay Fs.apply fs (bits.map .bitClear) = { fs with bitmap := clearAll fs.bitmap bits } :=
          replay_bitClears fs bits
        rw [hcleared, throughout_cons, throughout_cons, throughout_nil]
        refine ⟨hdurable, fun b hb => ?_, fun b hb => ?_⟩
        · have hkept : (Fs.apply { fs with bitmap := clearAll fs.bitmap bits }
              (.blockWrite inum ((inodeAt fs.disk inum).truncate env.time).toBlock)).disk 1 = fs.disk 1 :=
            Function.update_of_ne (by omega) _ _
          rw [hkept]
          exact hdurable b ((hinUse b).mp hb).1
        · have hold := (hend.inUse_truncate h.exclusive b).mp hb
          exact hend.saved ▸ (hend.bitmap b).mpr ⟨h.marked b hold.1, hold.2⟩

/-- An `fs_rmdir` that frees a block in use elsewhere saves the bitmap without its mark. -/
theorem not_durable_of_freesLive (h : Sound fs) (hpath : Plain path) (hlive : FreesLive env.limits fs path)
    (hrmdir : Rmdir env.limits fs path value plan) :
    ¬Throughout Fs.apply (fun state => Durable state.disk) fs plan := by
  obtain ⟨inum, dir, found, hat, hempty, hne, huse⟩ := hlive
  cases hrmdir with
  | stops reason hnot => exact absurd hat (hnot inum dir found)
  | @done inum' dir' found' hat' hbit =>
      obtain ⟨rfl, -, -⟩ := hat.unique hat'
      obtain ⟨name, hit, rfl, rfl, hmode, hsearch⟩ := hat'.hit hpath
      have hremoved := removed_of_plan h hat'.reach hmode hsearch
        [((inodeAt fs.disk hit.entry.inode.toNat).ptrs 0).toNat, hit.entry.inode.toNat]
      intro hthrough
      have hmark := hthrough.final _ (inUse_of_detached h hremoved.toDetached hempty hne huse)
      rw [hremoved.saved, hremoved.bitmap, bitTest_clearAll, decide_eq_true List.mem_cons_self] at hmark
      cases hmark
  | outside hat' hbit =>
      obtain ⟨rfl, -, -⟩ := hat.unique hat'
      exact absurd (bitTest_lt (h.marked _ huse)) hbit

/-- At every cut of a request all blocks in use are marked in the bitmap on the disk, exactly unless a file
grows or `fs_rmdir` frees a block that is in use elsewhere. -/
theorem crash_durable_iff {op : Op} (hquiet : env.Quiet) (h : Sound fs) (hsize : fs.diskSize ≤ 1020)
    (hsaved : fs.disk 1 = fs.bitmap) (hop : op.Changes) :
    (∀ count, Durable (crashDisk fs (op.run env fs).2.trace count)) ↔
      ¬((∃ path buf offset, op = .write path buf offset ∧ Grows env.limits fs path buf offset) ∨
        ∃ path, op = .rmdir path ∧ FreesLive env.limits fs path) := by
  have hfits := h.fits hsize
  have hdurable : Durable fs.disk := by
    rw [Durable, hsaved]
    exact h.covers
  rw [crash_iff_throughout]
  -- the three requests that need a word of their own, and then all others
  by_cases hwrite : ∃ path buf offset, op = .write path buf offset ∧ Grows env.limits fs path buf offset
  · refine iff_of_false ?_ (not_not.mpr (Or.inl hwrite))
    obtain ⟨path, buf, offset, rfl, hgrows⟩ := hwrite
    obtain ⟨value, plan, hdoes, hpost⟩ : Acts env fs (fsWrite path buf offset) _ :=
      acts_fsWrite h hfits path buf offset hop.2
    have hrun := @run_of_performs env fs (.write path buf offset) (fun _ => False) _ _ (.of_does hdoes) hquiet
    rw [hrun.2.2]
    exact not_durable_of_grows h hsize hsaved hop.2 hgrows hpost
  · by_cases hrmdir : ∃ path, op = .rmdir path ∧ FreesLive env.limits fs path
    · refine iff_of_false ?_ (not_not.mpr (Or.inr hrmdir))
      obtain ⟨path, rfl, hlive⟩ := hrmdir
      obtain ⟨value, plan, hdoes, hpost⟩ : Acts env fs (fsRmdir path) _ := acts_fsRmdir h path
      have hrun := @run_of_performs env fs (.rmdir path) (fun _ => False) _ _ (.of_does hdoes) hquiet
      rw [hrun.2.2]
      exact not_durable_of_freesLive h hop hlive hpost
    · refine iff_of_true ?_ (not_or.mpr ⟨hwrite, hrmdir⟩)
      by_cases htruncate : ∃ path len, op = .truncate path len
      · obtain ⟨path, len, rfl⟩ := htruncate
        obtain ⟨value, plan, hdoes, hpost⟩ : Acts env fs (fsTruncate path len) _ := acts_fsTruncate h hfits path len
        have hrun := @run_of_performs env fs (.truncate path len) (fun _ => False) _ _ (.of_does hdoes) hquiet
        rw [hrun.2.2]
        exact durable_of_truncate h hfits hdurable hpost
      · obtain ⟨value, plan, hperforms, hphases⟩ := attempts_phases h hfits hop
          (fun path len heq => htruncate ⟨path, len, heq⟩) fun path heq hlive => hrmdir ⟨path, heq, hlive⟩
        rw [(run_of_performs hperforms hquiet).2.2]
        refine durable_of_phases hphases h hdurable fun path buf offset heq mid hcommit => ?_
        subst heq
        cases hcommit with
        | @write _ _ _ inum claimed hnames hat hwritten =>
            intro b hb
            rcases (hwritten.inUse_iff b).mp hb with hold | hnew
            · exact hold
            · exact absurd ⟨path, buf, offset, rfl, grows_of_written hat hwritten (List.ne_nil_of_mem hnew)⟩ hwrite

end Requests

theorem diskSize_sampleImage : sampleImage.diskSize ≤ 1020 := by decide

/-- Making a directory in the directory `d` of the sample disk keeps the disk durable, wherever it is cut. -/
theorem crash_durable_sampleImage :
    (Op.run (.mkdir (joinPath [nameD, nameF]) 0o755) (quietEnv 0) sampleImage).1 = .ok 0 ∧ ∀ count, Durable
      (crashDisk sampleImage (Op.run (.mkdir (joinPath [nameD, nameF]) 0o755) (quietEnv 0) sampleImage).2.trace count) := by
  have hop : (Op.mkdir (joinPath [nameD, nameF]) 0o755).Changes := plain_joinPath (by decide) (by decide) (by decide)
  refine ⟨by decide +kernel, (crash_durable_iff (quiet_quietEnv 0) sound_sampleImage diskSize_sampleImage rfl hop).mpr ?_⟩
  rintro (⟨path, buf, offset, hop, -⟩ | ⟨path, hop, -⟩) <;> cases hop

/-- Not all requests keep the disk durable at every cut: a byte written behind the first block of the file
`f` makes it claim block 8, which is not yet marked on the disk when the inode is there. -/
theorem crash_durable_false :
    ¬∀ env fs (op : Op), env.Quiet → Mounted fs → Sound fs → fs.diskSize ≤ 1020 → fs.disk 1 = fs.bitmap →
      op.Changes → ∀ count, Durable (crashDisk fs (op.run env fs).2.trace count) := by
  intro h
  have hdurable := h (quietEnv 0) sampleImage (.write (joinPath [nameF]) [1] 4096) (quiet_quietEnv 0)
    mounted_sampleImage sound_sampleImage diskSize_sampleImage rfl ⟨plain_nameF, by decide⟩ 2
  have heval : (tree (crashDisk sampleImage
        (Op.run (.write (joinPath [nameF]) [1] 4096) (quietEnv 0) sampleImage).2.trace 2)).edge 2 (0, 1) =
          some (nameF.bytes, 4) ∧
      (tree (crashDisk sampleImage
        (Op.run (.write (joinPath [nameF]) [1] 4096) (quietEnv 0) sampleImage).2.trace 2)).cell 4 1 = some 8 ∧
      bitTest (crashDisk sampleImage
        (Op.run (.write (joinPath [nameF]) [1] 4096) (quietEnv 0) sampleImage).2.trace 2 1) 8 = false := by
    decide +kernel
  obtain ⟨hedge, hcell, hclear⟩ := heval
  have hmark := hdurable 8 (Graph.Uses.cell (Graph.Reach.root.step hedge) hcell).inUse
  rw [hclear] at hmark
  cases hmark

end Fs5600
