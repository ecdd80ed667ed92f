import Fs5600.Torn

/-! Crashes and mounts in between requests. A request that is cut off after any of its block writes has taken effect or
has not: the file system that `fs_init` finds on the disk shows the hierarchy before it or after it. Only an `fs_write`
may have written a part of its bytes. One that claims blocks is left out, since it saves their marks too late. -/

namespace Fs5600

open Ownership Command Replay Run

/-! ### The blocks that requests write -/

def Op.IsWrite : Op → Prop
  | .write _ _ _ => True
  | _ => False

theorem Op.IsWrite.eq_write {op : Op} (h : op.IsWrite) : ∃ path buf offset, op = .write path buf offset := by
  cases op with
  | write path buf offset => exact ⟨path, buf, offset, rfl⟩
  | _ => exact h.elim

/-- No event writes the superblock, or the data of a file. -/
def SparesData (fs : Fs) (plan : List Event) : Prop :=
  ∀ lba block, .blockWrite lba block ∈ plan → lba ≠ 0 ∧ ¬IsData fs.disk lba

section Spares

variable {env : Env} {fs : Fs} {plan plan' : List Event} {path : CStr} {value : Except Stop Int} {dir inum : Nat}

theorem sparesData_nil (fs : Fs) : SparesData fs [] := fun _ _ h => by cases h

theorem SparesData.mono (h : SparesData fs plan) (hsub : plan' ⊆ plan) : SparesData fs plan' :=
  fun lba block hmem => h lba block (hsub hmem)

theorem SparesData.append (h : SparesData fs plan) (h' : SparesData fs plan') : SparesData fs (plan ++ plan') :=
  fun lba block hmem => (List.mem_append.mp hmem).elim (h lba block) (h' lba block)

theorem sparesData_cons_write {lba : Nat} {block : Block} (hlba : lba ≠ 0 ∧ ¬IsData fs.disk lba)
    (h : SparesData fs plan) : SparesData fs (.blockWrite lba block :: plan) := by
  intro lba' block' hmem
  rcases List.mem_cons.mp hmem with heq | hmem
  · obtain ⟨rfl, -⟩ := Event.blockWrite.inj heq
    exact hlba
  · exact h lba' block' hmem

theorem sparesData_bits {bits : List Nat} {event : Nat → Event} (hevent : ∀ b lba block, event b ≠ .blockWrite lba block) :
    SparesData fs (bits.map event) := by
  intro lba block hmem
  obtain ⟨b, -, heq⟩ := List.mem_map.mp hmem
  exact absurd heq (hevent b lba block)

theorem IsData.inUse {disk : Nat → Block} {b : Nat} (h : IsData disk b) : (tree disk).InUse b := by
  obtain ⟨n, i, hn, -, hcell⟩ := h
  exact (Graph.Uses.cell hn hcell).inUse

theorem Sound.spares_bitmap (h : Sound fs) : 1 ≠ 0 ∧ ¬IsData fs.disk 1 :=
  ⟨one_ne_zero, fun hdata => h.reserved (by decide) hdata.inUse⟩

theorem Sound.spares_node (h : Sound fs) (hreach : (tree fs.disk).Reach inum) : inum ≠ 0 ∧ ¬IsData fs.disk inum := by
  have hrange := (h.range inum hreach.inUse).1
  exact ⟨by omega, fun hdata => hdata.ne_node h.exclusive hreach rfl⟩

theorem Sound.spares_slot (h : Sound fs) (hreach : (tree fs.disk).Reach dir) {slot : Slot}
    (hslot : HasSlot fs.disk dir slot) :
    ((inodeAt fs.disk dir).ptrs slot.1).toNat ≠ 0 ∧ ¬IsData fs.disk ((inodeAt fs.disk dir).ptrs slot.1).toNat := by
  have hrange := (h.range _ (Graph.Uses.cell hreach hslot.cell).inUse).1
  exact ⟨by omega, not_isData_of_dir h.exclusive hreach hslot.1 hslot.cell⟩

theorem Claimable.spares {claimed : List Nat} (hclaim : Claimable fs claimed) (h : Sound fs) {b : Nat} (hb : b ∈ claimed) :
    b ≠ 0 ∧ ¬IsData fs.disk b := by
  have hrange := (hclaim.range b hb).1
  exact ⟨by omega, fun hdata => hclaim.not_inUse h hb hdata.inUse⟩

/-- Events on the bitmap in memory spare everything. -/
theorem SparesData.bitSet {b : Nat} (h : SparesData fs plan) : SparesData fs (.bitSet b :: plan) := by
  intro lba block hmem
  rcases List.mem_cons.mp hmem with heq | hmem
  · cases heq
  · exact h lba block hmem

theorem sparesData_removal (h : Sound fs) (hreach : (tree fs.disk).Reach dir)
    (hmode : S_ISDIR (inodeAt fs.disk dir).mode = true) {name : CStr} {found : Option Hit}
    (hsearch : searchDirIn (hasName name) (inodeAt fs.disk dir) fs.disk = .ok found) :
    SparesData fs (removal (inodeAt fs.disk dir) found) := by
  cases found with
  | none => exact sparesData_nil fs
  | some hit =>
      have hslot := h.spares_slot hreach (hit_slot hmode hsearch).1
      rw [removal]
      exact sparesData_cons_write hslot (sparesData_nil fs)

theorem sparesData_release (h : Sound fs) (map : Block) (bits : List Nat) : SparesData fs (release map bits) :=
  (sparesData_bits fun _ _ _ heq => by cases heq).append (sparesData_cons_write h.spares_bitmap (sparesData_nil fs))

theorem sparesData_addsEntry (h : Sound fs) (hreach : (tree fs.disk).Reach dir)
    (hmode : S_ISDIR (inodeAt fs.disk dir).mode = true) {name : CStr} (hadds : AddsEntry fs.disk dir inum name value plan) :
    SparesData fs plan := by
  cases hadds with
  | full reason => exact sparesData_nil fs
  | done hsearch =>
      have hslot := h.spares_slot hreach (hit_slot hmode hsearch).1
      exact sparesData_cons_write hslot (sparesData_nil fs)

theorem sparesData_of_create (h : Sound fs) {mode : UInt32} (hcreate : Create env fs path mode value plan) :
    SparesData fs plan := by
  cases hcreate with
  | stops reason => exact sparesData_nil fs
  | marked hat hclear hlast =>
      have hinum := (claimable_of_clearBit hclear).spares h List.mem_cons_self
      have hentry := sparesData_addsEntry h hat.reach hat.mode hlast
      exact (sparesData_cons_write h.spares_bitmap (sparesData_cons_write hinum hentry)).bitSet

theorem sparesData_of_mkdir (h : Sound fs) {mode : UInt32} (hmkdir : Mkdir env fs path mode value plan) :
    SparesData fs plan := by
  cases hmkdir with
  | stops reason => exact sparesData_nil fs
  | marked hat hclaim hlast =>
      have hinum := hclaim.spares h List.mem_cons_self
      have hblock := hclaim.spares h (List.mem_cons_of_mem _ List.mem_cons_self)
      have hentry := sparesData_addsEntry h hat.reach hat.mode hlast
      exact (sparesData_cons_write h.spares_bitmap
        (sparesData_cons_write hinum (sparesData_cons_write hblock hentry))).bitSet.bitSet

theorem sparesData_of_unlink (h : Sound fs) (hpath : Plain path) (hunlink : Unlink env.limits fs path value plan) :
    SparesData fs plan := by
  cases hunlink with
  | stops reason => exact sparesData_nil fs
  | done htranslate hfile hparent hdir hsearch =>
      obtain ⟨hit, -, -, hmode⟩ := found_of_translateIn hpath htranslate hparent hsearch
      exact (sparesData_removal h hdir hmode hsearch).append (sparesData_release h _ _)

theorem sparesData_of_rmdir (h : Sound fs) (hpath : Plain path) (hrmdir : Rmdir env.limits fs path value plan) :
    SparesData fs plan := by
  have hremoval : ∀ {inum dir : Nat} {found : Option Hit}, RmdirAt env.limits fs path inum dir found →
      SparesData fs (removal (inodeAt fs.disk dir) found) := by
    intro inum dir found hat
    obtain ⟨name, hit, rfl, -, hmode, hsearch⟩ := hat.hit hpath
    exact sparesData_removal h hat.reach hmode hsearch
  cases hrmdir with
  | stops reason hnot => exact sparesData_nil fs
  | done hat hbit => exact (hremoval hat).append (sparesData_release h _ _)
  | outside hat hbit => exact hremoval hat

theorem sparesData_of_rename (h : Sound fs) {srcPath dstPath : CStr}
    (hrename : Rename env.limits fs srcPath dstPath value plan) : SparesData fs plan := by
  cases hrename with
  | stops reason => exact sparesData_nil fs
  | done htranslate hsrc hdst hsrcParent hdstParent hslot hvalid hname hfree =>
      exact sparesData_cons_write (h.spares_slot (reach_of_descend hsrcParent) hslot) (sparesData_nil fs)

theorem sparesData_of_setsInode (h : Sound fs) {change : Inode → Inode}
    (hsets : SetsInode change env.limits fs path value plan) : SparesData fs plan := by
  cases hsets with
  | stops reason => exact sparesData_nil fs
  | done htranslate =>
      exact sparesData_cons_write (h.spares_node (reach_of_translateIn htranslate).1) (sparesData_nil fs)

theorem sparesData_of_truncate (h : Sound fs) {len : Int} (htruncate : Truncate env fs path len value plan) :
    SparesData fs plan := by
  cases htruncate with
  | stops reason => exact sparesData_nil fs
  | done hlen htranslate hfile =>
      have hinum := h.spares_node (reach_of_translateIn htranslate).1
      exact (sparesData_bits fun _ _ _ heq => by cases heq).append
        (sparesData_cons_write hinum (sparesData_cons_write h.spares_bitmap (sparesData_nil fs)))

/-- Only `fs_write` writes the data of files. -/
theorem sparesData_run {op : Op} (h : Sound fs) (hfits : Fits fs.disk) (hop : op.Changes) (hwrite : ¬op.IsWrite)
    (hquiet : env.Quiet) :
    SparesData fs (op.run env fs).2.trace ∧ (op.run env fs).2.fs = fs.replay (op.run env fs).2.trace := by
  have hattempts : Attempts (Undone fs) env fs op.call fun _ plan => SparesData fs plan := by
    cases op with
    | create path mode => exact (attempts_fsCreate h path mode).mono fun _ _ => sparesData_of_create h
    | mkdir path mode => exact (attempts_fsMkdir h path mode).mono fun _ _ => sparesData_of_mkdir h
    | unlink path => exact (Attempts.of_acts (acts_fsUnlink h hfits path)).mono fun _ _ => sparesData_of_unlink h hop
    | rmdir path => exact (Attempts.of_acts (acts_fsRmdir h path)).mono fun _ _ => sparesData_of_rmdir h hop
    | rename srcPath dstPath =>
        exact (Attempts.of_acts (acts_fsRename h srcPath dstPath)).mono fun _ _ => sparesData_of_rename h
    | chmod path mode => exact (Attempts.of_acts (acts_fsChmod h path mode)).mono fun _ _ => sparesData_of_setsInode h
    | utime path modtime =>
        exact (Attempts.of_acts (acts_fsUtime h path modtime)).mono fun _ _ => sparesData_of_setsInode h
    | truncate path len =>
        exact (Attempts.of_acts (acts_fsTruncate h hfits path len)).mono fun _ _ => sparesData_of_truncate h
    | write path buf offset => exact absurd trivial hwrite
    | getattr path => exact hop.elim
    | readdir path => exact hop.elim
    | read path len offset => exact hop.elim
    | statfs => exact hop.elim
  obtain ⟨value, plan, hperforms, hspares⟩ := hattempts
  obtain ⟨-, hfs, htrace⟩ := run_of_performs hperforms hquiet
  rw [hfs, htrace]
  exact ⟨hspares, rfl⟩

end Spares

/-! ### Cuts -/

/-- The disk has all blocks in use as they were before a request, or, if it succeeds, as they are after it. -/
def BeforeOrAfter (op : Op) (value : Except Stop Int) (before after disk : Nat → Block) : Prop :=
  KeepsBut (fun _ => False) before disk ∨ (value = .ok op.success ∧ KeepsBut (fun _ => False) after disk)

section Cuts

variable {env : Env} {fs : Fs} {op : Op} {value : Except Stop Int} {plan : List Event} {disk disk' disk'' : Nat → Block}

theorem disk_replay_of_not_mem {b : Nat} (h : ∀ block, .blockWrite b block ∉ plan) :
    (fs.replay plan).disk b = fs.disk b := by
  have hsame := @throughout_of_step _ _ Fs.apply (fun state => state.disk b = fs.disk b) fs plan rfl
    fun event hevent state hstate => ?_
  · exact hsame.final
  · cases event with
    | bitSet i => exact hstate
    | bitClear i => exact hstate
    | blockWrite lba block =>
        have hne : b ≠ lba := fun heq => h block (heq ▸ hevent)
        exact (Function.update_of_ne hne _ _).trans hstate

/-- Events that keep the tree and the data of files keep all blocks in use. -/
theorem keepsBut_of_spares (hspares : SparesData fs plan) (h : KeepsBut (IsData fs.disk) fs.disk (fs.replay plan).disk) :
    KeepsBut (fun _ => False) fs.disk (fs.replay plan).disk := by
  intro b hb _
  by_cases hdata : IsData fs.disk b
  · exact disk_replay_of_not_mem fun block hmem => (hspares b block hmem).2 hdata
  · exact h b hb hdata

theorem KeepsBut.agrees_of_exact (h : KeepsBut (fun _ => False) disk disk') (hex : (tree disk).Exclusive) :
    (tree disk).Agrees (tree disk') := KeepsBut.agrees hex (h.mono fun _ => False.elim)

/-- Two disks that keep the blocks in use of a third have the same blocks in use. -/
theorem KeepsBut.between (h : KeepsBut (fun _ => False) disk disk') (h' : KeepsBut (fun _ => False) disk disk'')
    (hex : (tree disk).Exclusive) : KeepsBut (fun _ => False) disk' disk'' := by
  intro b hb hnot
  have hb' := (h.agrees_of_exact hex).inUse_iff.mp hb
  exact (h' b hb' hnot).trans (h b hb' hnot).symm

theorem beforeOrAfter_of_phases (hphases : Phases env fs op value plan) (h : Sound fs)
    (hdirs : DirBlocks (1 ≤ ·) fs.disk) (hspares : SparesData fs plan) :
    Throughout Fs.apply (fun state => BeforeOrAfter op value fs.disk (fs.replay plan).disk state.disk) fs plan := by
  cases hphases with
  | idle hundone hsaves =>
      exact fun part hpart => Or.inl (keeps_replay fun e he => (hundone e (hpart.subset he)).1).disk
  | @done first last lba block hfirst hsaves hcommit hsaved hlast hspares' hlastSaves =>
      have hbefore : ∀ part, part <+: first → KeepsBut (fun _ => False) fs.disk (fs.replay part).disk := fun part hpart =>
        keepsBut_of_spares (hspares.mono fun e he => List.mem_append_left _ (hpart.subset he))
          (keeps_replay fun e he => (hfirst e (hpart.subset he)).1).disk
      have hex := (hcommit.sound h).exclusive
      have hend : fs.replay (first ++ .blockWrite lba block :: last) =
          (fs.replay (first ++ [.blockWrite lba block])).replay last := by
        rw [← Fs.replay_append, List.append_assoc, List.singleton_append]
      have hafter : ∀ part, part <+: last →
          KeepsBut (fun _ => False) (fs.replay (first ++ .blockWrite lba block :: last)).disk
            ((fs.replay (first ++ [.blockWrite lba block])).replay part).disk := fun part hpart => by
        rw [hend]
        exact (keeps_replay hlast).disk.between (keeps_replay fun e he => hlast e (hpart.subset he)).disk hex
      have hmid := hafter [] List.nil_prefix
      rw [Fs.replay_nil, Fs.replay_append fs first [.blockWrite lba block]] at hmid
      rw [← List.singleton_append, ← List.append_assoc, throughout_append, throughout_append, throughout_cons,
        throughout_nil]
      rw [List.append_assoc, List.singleton_append]
      exact ⟨⟨fun part hpart => Or.inl (hbefore part hpart), Or.inl (hbefore first List.prefix_rfl), Or.inr ⟨rfl, hmid⟩⟩,
        fun part hpart => Or.inr ⟨rfl, hafter part hpart⟩⟩
  | outside hop hat hempty hcommit hsaved =>
      have hpos := hdirs _ (reach_of_translateIn hat.translate).1 hat.mode
      omega

theorem beforeOrAfter_of_truncate (h : Sound fs) (hfits : Fits fs.disk) {path : CStr} {len : Int}
    (htruncate : Truncate env fs path len value plan) :
    Throughout Fs.apply (fun state => BeforeOrAfter (.truncate path len) value fs.disk (fs.replay plan).disk state.disk)
      fs plan := by
  cases htruncate with
  | stops reason => exact throughout_nil.mpr (Or.inl fun _ _ _ => rfl)
  | @done inum hlen htranslate hfile =>
      have hreach := (reach_of_translateIn htranslate).1
      have htruncated := @truncated_of_plan fs inum env.time h hfits hreach hfile
      have hone : ¬(tree (fs.replay _).disk).InUse 1 := fun huse =>
        h.reserved (by decide) ((htruncated.inUse_truncate h.exclusive 1).mp huse).1
      set bits := freed (inodeAt fs.disk inum) (inodeAt fs.disk inum).numBlocks 0
      set block := ((inodeAt fs.disk inum).truncate env.time).toBlock
      set final := fs.replay (bits.map .bitClear ++ [.blockWrite inum block, .blockWrite 1 (clearAll fs.bitmap bits)])
        with hfinal
      have hcleared : replay Fs.apply fs (bits.map .bitClear) = { fs with bitmap := clearAll fs.bitmap bits } :=
        replay_bitClears fs bits
      have hdisk : final.disk = Function.update (Function.update fs.disk inum block) 1 (clearAll fs.bitmap bits) := by
        rw [hfinal, Fs.replay_append, replay_bitClears]
        rfl
      rw [throughout_append, hcleared, throughout_cons, throughout_cons, throughout_nil]
      refine ⟨fun part hpart => ?_, Or.inl fun _ _ _ => rfl, Or.inr ⟨rfl, fun b hb _ => ?_⟩,
        Or.inr ⟨rfl, fun b hb _ => ?_⟩⟩
      · refine Or.inl fun b _ _ => disk_replay_of_not_mem fun block hmem => ?_
        obtain ⟨i, -, heq⟩ := List.mem_map.mp (hpart.subset hmem)
        cases heq
      · have hne : b ≠ 1 := fun heq => hone (heq ▸ hb)
        rw [hdisk, Function.update_of_ne hne]
        rfl
      · rw [hdisk]
        rfl

/-- What is on the disk where a request is cut off. -/
structure Cut (env : Env) (fs : Fs) (op : Op) (disk : Nat → Block) : Prop where
  superblock : disk 0 = fs.disk 0
  durable : Durable disk
  tree : BeforeOrAfter op (op.run env fs).1 fs.disk (op.run env fs).2.fs.disk disk

/-- Every cut of a request that is no `fs_write` has the tree from before or after it. -/
theorem cut_throughout (h : Settled fs) (hop : op.Changes) (hwrite : ¬op.IsWrite) (hquiet : env.Quiet)
    (hdurable : Durable fs.disk) :
    Throughout Fs.apply (fun state => Cut env fs op state.disk) fs (op.run env fs).2.trace := by
  have hsound := h.toSound
  obtain ⟨hspares, -⟩ := sparesData_run hsound h.fits hop hwrite hquiet
  have hcut : Throughout Fs.apply (fun state => Durable state.disk) fs (op.run env fs).2.trace ∧
      Throughout Fs.apply (fun state => BeforeOrAfter op (op.run env fs).1 fs.disk (op.run env fs).2.fs.disk state.disk) fs
        (op.run env fs).2.trace := by
    by_cases htruncate : ∃ path len, op = .truncate path len
    · obtain ⟨path, len, rfl⟩ := htruncate
      have hacts : Acts env fs (fsTruncate path len) _ := acts_fsTruncate hsound h.fits path len
      obtain ⟨value, plan, hdoes, hpost⟩ := hacts
      obtain ⟨hvalue, hfs, htrace⟩ :=
        @run_of_performs env fs (.truncate path len) (fun _ => False) _ _ (.of_does hdoes) hquiet
      rw [hvalue, hfs, htrace]
      exact ⟨durable_of_truncate hsound h.fits hdurable hpost, beforeOrAfter_of_truncate hsound h.fits hpost⟩
    · obtain ⟨value, plan, hperforms, hphases⟩ := attempts_phases hsound h.fits hop
        (fun path len heq => htruncate ⟨path, len, heq⟩) fun path _ => not_freesLive h.dirBlocks env.limits path
      obtain ⟨hvalue, hfs, htrace⟩ := run_of_performs hperforms hquiet
      rw [htrace] at hspares
      rw [hvalue, hfs, htrace]
      refine ⟨durable_of_phases hphases hsound hdurable fun path buf offset heq => ?_,
        beforeOrAfter_of_phases hphases hsound h.dirBlocks hspares⟩
      exact absurd (heq ▸ trivial : op.IsWrite) hwrite
  intro part hpart
  exact ⟨disk_replay_of_not_mem fun block hmem => (hspares 0 block (hpart.subset hmem)).1 rfl, hcut.1 part hpart,
    hcut.2 part hpart⟩

/-- An `fs_write` that ends has saved the marks of the blocks it claimed. -/
theorem durable_of_write (h : Sound fs) {path : CStr} {buf : List UInt8} {offset : Nat}
    (hlen : offset + buf.length < 2 ^ 31) (hdurable : Durable fs.disk) (hwrite : Write env fs path buf offset value plan) :
    (fs.replay plan).disk 0 = fs.disk 0 ∧ Durable (fs.replay plan).disk := by
  cases hwrite with
  | stops reason hnot => exact ⟨rfl, hdurable⟩
  | @noSpace inum claimed reason hat halloc =>
      rw [replay_bitSets]
      exact ⟨rfl, hdurable⟩
  | @done inum claimed data hat hblocks hfits hwrites hbytes =>
      obtain ⟨-, -, hwritten, hsaved⟩ := written_of_plan h hat hlen hblocks hfits hwrites hbytes
      have hend := Fs.replay_append fs (claimed.map Event.bitSet ++ data ++
          [.blockWrite inum ((inodeAt fs.disk inum).grow claimed (offset + buf.length) env.time).toBlock])
        (if claimed = [] then [] else [.blockWrite 1 (setAll fs.bitmap claimed)])
      rw [List.append_assoc, List.append_assoc, List.singleton_append] at hend
      rw [hend]
      set mid := fs.replay (claimed.map Event.bitSet ++ data ++
        [.blockWrite inum ((inodeAt fs.disk inum).grow claimed (offset + buf.length) env.time).toBlock])
      by_cases hempty : claimed = []
      · rw [if_pos hempty, Fs.replay_nil]
        refine ⟨hwritten.superblock, fun b hb => ?_⟩
        rcases (hwritten.inUse_iff b).mp hb with hold | hnew
        · rw [hsaved]
          exact hdurable b hold
        · rw [hempty] at hnew
          cases hnew
      · have hdisk : (mid.replay [.blockWrite 1 (setAll fs.bitmap claimed)]).disk =
            Function.update mid.disk 1 (setAll fs.bitmap claimed) := rfl
        have hsound := hwritten.sound h
        have hkeep : KeepsBut (fun _ => False) mid.disk (Function.update mid.disk 1 (setAll fs.bitmap claimed)) :=
          fun b hb _ => Function.update_of_ne (fun heq => hsound.reserved (by omega) hb) _ _
        rw [if_neg hempty, hdisk]
        refine ⟨(Function.update_of_ne zero_ne_one _ _).trans hwritten.superblock, fun b hb => ?_⟩
        rw [Function.update_self, ← hwritten.bitmap]
        exact hsound.marked b ((hkeep.agrees_of_exact hsound.exclusive).inUse_iff.mp hb)

/-- Every cut of an `fs_write` that claims no blocks has the disk from before or after it, or a torn file. -/
theorem torn_throughout (h : Sound fs) (hfits : Fits fs.disk) {path : CStr} {buf : List UInt8} {offset : Nat}
    (hop : (Op.write path buf offset).Changes) (hquiet : env.Quiet) (hgrows : ¬Grows env.limits fs path buf offset) :
    Throughout Fs.apply (fun state => state.disk = fs.disk ∨ ((Op.write path buf offset).run env fs).1 = .ok buf.length ∧
      (state.disk = ((Op.write path buf offset).run env fs).2.fs.disk ∨
        ∃ inum, Names fs.disk path inum ∧ TornAt fs state inum buf offset))
      fs ((Op.write path buf offset).run env fs).2.trace := by
  have hacts : Acts env fs (fsWrite path buf offset) _ := acts_fsWrite h hfits path buf offset hop.2
  obtain ⟨value, plan, hdoes, hpost⟩ := hacts
  have hrun : ∀ {value : Except Stop Int} {plan : List Event}, Does env fs (fsWrite path buf offset) value plan →
      ((Op.write path buf offset).run env fs).1 = value ∧ ((Op.write path buf offset).run env fs).2.fs = fs.replay plan ∧
        ((Op.write path buf offset).run env fs).2.trace = plan := fun hdoes =>
    @run_of_performs env fs (.write path buf offset) (fun _ => False) _ _ (.of_does hdoes) hquiet
  intro part hpart
  cases hpost with
  | stops reason hnot =>
      rw [(hrun hdoes).2.2] at hpart
      exact Or.inl (List.prefix_nil.mp hpart ▸ rfl)
  | @noSpace inum claimed reason hat halloc =>
      rw [(hrun hdoes).2.2] at hpart
      refine Or.inl (funext fun b => disk_replay_of_not_mem fun block hmem => ?_)
      obtain ⟨i, -, heq⟩ := List.mem_map.mp (hpart.subset hmem)
      cases heq
  | @done inum claimed data hat hblocks hfile hwrites hbytes =>
      obtain rfl : claimed = [] := by
        by_contra hne
        exact hgrows (grows_of_written hat (written_of_plan h hat hop.2 hblocks hfile hwrites hbytes).2.2.1 hne)
      obtain ⟨data, hdoes, htorn⟩ := does_fsWrite_torn h hat hop.2 hblocks hfile
      obtain ⟨hvalue, hfs, htrace⟩ := hrun hdoes
      rw [htrace] at hpart
      rcases List.prefix_concat_iff.mp hpart with rfl | hpart
      · exact Or.inr ⟨hvalue, Or.inl (hfs ▸ rfl)⟩
      · exact Or.inr ⟨hvalue, Or.inr ⟨inum, names_of_translateIn hop.1 hat.translate, htorn part hpart⟩⟩

end Cuts

/-! ### Mounting again -/

/-- A file system that shows a hierarchy, and whose disk can be mounted again at any time. -/
structure Stands (fs : Fs) (t : Hierarchy) : Prop extends Hosts fs t where
  durable : Durable fs.disk
  magic : Words.le32 (fs.disk 0).byte 0 = fsMagic
  length : Words.le32 (fs.disk 0).byte 4 = fs.diskSize

section Mount

variable {env : Env} {fs fs' : Fs} {op : Op} {t t' : Hierarchy} {disk : Nat → Block}

/-- What is mounted, where only data of files is different and the blocks in use are marked. -/
theorem Hosts.mounted (h : Hosts fs t) (hdata : KeepsBut (IsData fs.disk) fs.disk disk) (hdurable : Durable disk)
    (hshows : ShowsTree disk t') : Hosts ⟨fs.diskSize, disk 1, disk⟩ t' := by
  have hex := h.exclusive
  have hagrees := hdata.agrees hex
  have hinode : ∀ {P : Inode → Prop}, AllInodes P fs.disk → AllInodes P disk := by
    intro P hall n hn
    rw [hdata.inodeAt hex (hagrees.reach_iff.mp hn)]
    exact hall n (hagrees.reach_iff.mp hn)
  have hlayout := hinode h.layout
  have hsound : Sound ⟨fs.diskSize, disk 1, disk⟩ :=
    ⟨hagrees.exclusive hex, fun b hb => h.range b (hagrees.inUse_iff.mp hb), hdurable⟩
  have hform : WellFormed ⟨fs.diskSize, disk 1, disk⟩ :=
    ⟨hsound, fits_of_layout hlayout, hagrees.uniqueLabels h.unique, h.terminated.agrees hagrees⟩
  exact ⟨⟨hform, hlayout⟩, hinode h.measured, h.size, hshows⟩

/-- Where no block in use is different, the hierarchy is the same. -/
theorem Hosts.shows_of_keeps (h : Hosts fs t) (hkeep : KeepsBut (fun _ => False) fs.disk disk) : ShowsTree disk t := by
  have hagrees := hkeep.agrees_of_exact h.exclusive
  have hdata : KeepsBut (IsData fs.disk) fs.disk disk := hkeep.mono fun _ => False.elim
  refine h.shows.congr (fun ls n => hagrees.leads_root_iff) fun n hn => ?_
  exact nodeAt_congr (hdata.inodeAt h.exclusive hn) (h.fits n hn) fun _ i hi =>
    hkeep _ (Graph.Uses.cell hn (tree_cell_eq_some.mpr ⟨hi, rfl⟩)).inUse id

/-- `fs_init` reads what is there. -/
theorem Stands.mount (h : Hosts fs t) (hdata : KeepsBut (IsData fs.disk) fs.disk disk) (hdurable : Durable disk)
    (hshows : ShowsTree disk t') (hmagic : Words.le32 (disk 0).byte 0 = fsMagic)
    (hlength : Words.le32 (disk 0).byte 4 = fs.diskSize) (hinit : fsInit env disk = some fs') : Stands fs' t' := by
  rw [fsInit] at hinit
  split_ifs at hinit
  obtain rfl := Option.some.inj hinit
  rw [hlength]
  exact ⟨h.mounted hdata hdurable hshows, hdurable, hmagic, hlength⟩

theorem Stands.mount_same (h : Hosts fs t) (hkeep : KeepsBut (fun _ => False) fs.disk disk) (hdurable : Durable disk)
    (hmagic : Words.le32 (disk 0).byte 0 = fsMagic) (hlength : Words.le32 (disk 0).byte 4 = fs.diskSize)
    (hinit : fsInit env disk = some fs') : Stands fs' t :=
  .mount h (hkeep.mono fun _ => False.elim) hdurable (h.shows_of_keeps hkeep) hmagic hlength hinit

/-- A torn file is mounted as it is. -/
theorem Stands.mount_torn (h : Stands fs t) {state : Fs} {path : CStr} {buf : List UInt8} {offset inum : Nat}
    (hnames : Names fs.disk path inum) (htorn : TornAt fs state inum buf offset)
    (hinit : fsInit env state.disk = some fs') :
    ∃ count ≤ buf.length, ∃ t', t.changeFile (labels (pathparse path))
      (fun node => .ok (node.tear (buf.take count) offset)) = .ok t' ∧ Stands fs' t' := by
  obtain ⟨count, hcount, hnode⟩ := htorn.node
  obtain ⟨t', hchange, hshows⟩ : ∃ t', t.changeFile (labels (pathparse path))
      (fun node => .ok (node.tear (buf.take count) offset)) = .ok t' ∧ ShowsTree state.disk t' :=
    htorn.toResized.showsTree h.toWellFormed hnames h.shows (congrArg Except.ok hnode.symm)
  have hdurable : Durable state.disk := fun b hb => by
    rw [htorn.marks]
    exact h.durable b ((htorn.keeps.agrees h.exclusive).inUse_iff.mp hb)
  exact ⟨count, hcount, t', hchange, .mount h.toHosts htorn.keeps hdurable hshows (htorn.superblock ▸ h.magic)
    (htorn.superblock ▸ h.length) hinit⟩

end Mount

/-! ### Runs with crashes -/

/-- What happens to a file system: a request, or a crash in the middle of one, after which the disk is mounted again. -/
inductive Happening
  | request (request : Request)
  | crash (env : Env) (op : Op)

/-- A crash comes before, between or after the block writes of a request that is no `fs_write` that claims blocks. -/
inductive SystemStep (fs : Fs) : Happening → Fs → Prop
  | request {request : Request} {fs' : Fs} (h : TreeStep fs request fs') : SystemStep fs (.request request) fs'
  | crash {env boot : Env} {op : Op} {fs' : Fs} (hstep : TreeStep fs ⟨env, op, (op.run env fs).1⟩ (op.run env fs).2.fs)
      (hgrows : ∀ path buf offset, op = .write path buf offset → ¬Grows env.limits fs path buf offset) (count : Nat)
      (hinit : fsInit boot (crashDisk fs (op.run env fs).2.trace count) = some fs') : SystemStep fs (.crash env op) fs'

/-- Some of the first bytes of a write are in the file. Its length and its attributes are as before. -/
def Hierarchy.Torn (op : Op) (t t' : Hierarchy) : Prop :=
  ∃ path buf offset count, op = .write path buf offset ∧ count ≤ buf.length ∧
    t.changeFile (labels (pathparse path)) (fun node => .ok (node.tear (buf.take count) offset)) = .ok t'

/-- What the hierarchy is after it: a crash leaves it alone, lets the request take effect, or tears a file. -/
def Specified : Happening → Fs → Fs → Hierarchy → Hierarchy → Prop
  | .request request, _, _, t, t' => t' = request.after t
  | .crash env op, _, _, t, t' => t' = t ∨ ∃ after, op.meaning env t = .ok after ∧ (t' = after ∨ t.Torn op t')

section Recovery

variable {fs fs' : Fs} {t : Hierarchy} {request : Request} {happening : Happening}

theorem TreeStep.diskSize (hstep : TreeStep fs request fs') (h : Hosts fs t) : fs'.diskSize = fs.diskSize := by
  obtain ⟨hop, -, -, hquiet, -, -, rfl⟩ := hstep
  exact (leaves_run h.toSound h.fits hop (fun _ _ _ => hquiet) fun path _ => not_freesLive h.dirBlocks _ path).diskSize

/-- Success means that the request has taken effect. -/
theorem Answers.meaning {env : Env} {op : Op} {t' : Hierarchy} {value : Except Stop Int} {code : Int}
    (h : Answers env op t value t') (hvalue : value = .ok code) : op.meaning env t = .ok t' := by
  cases h with
  | refused hmeaning => cases hvalue
  | lacks hmeaning hcode => cases hvalue
  | done hmeaning => exact hmeaning

/-- A request keeps the disk fit to be mounted. -/
theorem Stands.after_request (h : Stands fs t) (hstep : TreeStep fs request fs') : Stands fs' (request.after t) := by
  have hhosts := (hstep.hosts h.toHosts).2
  have hsize := hstep.diskSize h.toHosts
  have hdisk : fs'.disk 0 = fs.disk 0 ∧ Durable fs'.disk := by
    obtain ⟨hop, hfiles, hstorable, hquiet, hlimits, -, rfl⟩ := hstep
    have hsound := h.toSound
    by_cases hwrite : request.op.IsWrite
    · obtain ⟨path, buf, offset, heq⟩ := hwrite.eq_write
      rw [heq] at hop ⊢
      have hacts : Acts request.env fs (fsWrite path buf offset) _ := acts_fsWrite hsound h.fits path buf offset hop.2
      obtain ⟨value, plan, hdoes, hpost⟩ := hacts
      rw [(@run_of_performs request.env fs (.write path buf offset) (fun _ => False) _ _ (.of_does hdoes) hquiet).2.1]
      exact durable_of_write hsound hop.2 h.durable hpost
    · have hcut := (cut_throughout h.toSettled hop hwrite hquiet h.durable).final
      rw [(sparesData_run hsound h.fits hop hwrite hquiet).2]
      exact ⟨hcut.superblock, hcut.durable⟩
  obtain ⟨hsuper, hdurable⟩ := hdisk
  exact ⟨hhosts, hdurable, hsuper ▸ h.magic, by rw [hsuper, hsize]; exact h.length⟩

/-- What is mounted after a crash of a request that is no `fs_write`. -/
theorem Stands.after_crash (h : Stands fs t) {env boot : Env} {op : Op}
    (hstep : TreeStep fs ⟨env, op, (op.run env fs).1⟩ (op.run env fs).2.fs) (hwrite : ¬op.IsWrite) {part : List Event}
    (hpart : part <+: (op.run env fs).2.trace) (hinit : fsInit boot (fs.replay part).disk = some fs') :
    ∃ t', Specified (.crash env op) fs fs' t t' ∧ Stands fs' t' := by
  have hcut := cut_throughout h.toSettled hstep.changes hwrite hstep.quiet h.durable part hpart
  have hmagic := h.magic
  have hlength := h.length
  rw [← hcut.superblock] at hmagic hlength
  rcases hcut.tree with hkeep | ⟨hvalue, hkeep⟩
  · exact ⟨t, Or.inl rfl, .mount_same h.toHosts hkeep hcut.durable hmagic hlength hinit⟩
  · obtain ⟨hanswers, hhosts⟩ := hstep.hosts h.toHosts
    rw [← hstep.diskSize h.toHosts] at hlength
    exact ⟨_, Or.inr ⟨_, hanswers.meaning hvalue, Or.inl rfl⟩,
      .mount_same hhosts hkeep hcut.durable hmagic hlength hinit⟩

/-- What is mounted after a crash of an `fs_write` that claims no blocks. -/
theorem Stands.after_write (h : Stands fs t) {env boot : Env} {path : CStr} {buf : List UInt8} {offset : Nat}
    (hstep : TreeStep fs ⟨env, .write path buf offset, ((Op.write path buf offset).run env fs).1⟩
      ((Op.write path buf offset).run env fs).2.fs) (hgrows : ¬Grows env.limits fs path buf offset) {part : List Event}
    (hpart : part <+: ((Op.write path buf offset).run env fs).2.trace)
    (hinit : fsInit boot (fs.replay part).disk = some fs') :
    ∃ t', Specified (.crash env (.write path buf offset)) fs fs' t t' ∧ Stands fs' t' := by
  obtain ⟨hanswers, -⟩ := hstep.hosts h.toHosts
  have hafter := h.after_request hstep
  rcases torn_throughout h.toSound h.fits hstep.changes hstep.quiet hgrows part hpart with
    hdisk | ⟨hvalue, hdisk | ⟨inum, hnames, htorn⟩⟩
  · rw [hdisk] at hinit
    exact ⟨t, Or.inl rfl, .mount_same h.toHosts (fun _ _ _ => rfl) h.durable h.magic h.length hinit⟩
  · rw [hdisk] at hinit
    exact ⟨_, Or.inr ⟨_, hanswers.meaning hvalue, Or.inl rfl⟩,
      .mount_same hafter.toHosts (fun _ _ _ => rfl) hafter.durable hafter.magic hafter.length hinit⟩
  · obtain ⟨count, hcount, t', hchange, hstands⟩ := h.mount_torn hnames htorn hinit
    exact ⟨t', Or.inr ⟨_, hanswers.meaning hvalue, Or.inr ⟨path, buf, offset, count, rfl, hcount, hchange⟩⟩, hstands⟩

/-- Whatever happens, some hierarchy goes along with it. -/
theorem Stands.step (h : Stands fs t) (hstep : SystemStep fs happening fs') :
    ∃ t', Specified happening fs fs' t t' ∧ Stands fs' t' := by
  cases hstep with
  | request hstep => exact ⟨_, rfl, h.after_request hstep⟩
  | @crash env boot op _ hstep hgrows count hinit =>
      obtain ⟨part, hpart, hdisk⟩ := exists_prefix_of_crash fs (op.run env fs).2.trace count
      rw [← hdisk] at hinit
      by_cases hwrite : op.IsWrite
      · obtain ⟨path, buf, offset, rfl⟩ := hwrite.eq_write
        exact h.after_write hstep (hgrows path buf offset rfl) hpart hinit
      · exact h.after_crash hstep hwrite hpart hinit

/-- Along every run of requests, crashes and mounts goes a run with a hierarchy: it has the same happenings and states,
each happening does to the hierarchy what it means, and in every state the file system reports the hierarchy. -/
theorem recovers_of_run (h : WellFormed fs) (hmeasured : AllInodes Measured fs.disk) (hsize : fs.diskSize ≤ 1020)
    (hmounted : Mounted fs) {trail : List (Happening × Fs)} (hrun : Trail SystemStep fs trail) :
    ∃ lifted, Trail (Along SystemStep Specified) (fs, hierarchyOf fs.disk) lifted ∧ lifted.map forget = trail ∧
      ∀ state ∈ (fs, hierarchyOf fs.disk) :: lifted.map Prod.snd, ∀ env : Env, env.Quiet → Roomy env.limits →
        ∀ path, (∀ c ∈ pathparse path, IsName c) → (pathparse path).length < maxPathLen →
          ReportsTree state.1 state.2 env path := by
  obtain ⟨hmagic, hlength, hsaved⟩ := hmounted.fields
  have hdurable : Durable fs.disk := fun b hb => hsaved ▸ h.marked b hb
  have hstart : Stands fs (hierarchyOf fs.disk) := ⟨hosts_of_run h hmeasured hsize .refl, hdurable, hmagic, hlength⟩
  obtain ⟨lifted, hlifted, hsame, hstands⟩ := @Trail.lift _ _ _ _ Specified Stands _ _ hrun
    (fun _ _ _ _ hstands hstep => hstands.step hstep) _ hstart
  refine ⟨lifted, hlifted, hsame, fun state hstate env hquiet hlimits path hnames hshort => ?_⟩
  have hall : Stands state.1 state.2 := by
    rcases List.mem_cons.mp hstate with rfl | hmem
    · exact hstart
    · obtain ⟨entry, hentry, rfl⟩ := List.mem_map.mp hmem
      exact hstands entry hentry
  exact hall.toHosts.reports hquiet hlimits hnames hshort

end Recovery

theorem fsInit_of_magic {disk : Nat → Block} (hmagic : Words.le32 (disk 0).byte 0 = fsMagic) :
    fsInit (quietEnv 0) disk = some ⟨Words.le32 (disk 0).byte 4, disk 1, disk⟩ := by
  rw [fsInit, if_neg (by simp [quietEnv]), if_neg (by simpa using hmagic), if_neg (by simp [quietEnv])]

/-- The disk of a crash after two block writes of `fs_mkdir`, the bitmap and the new inode. -/
def cutDisk : Nat → Block :=
  crashDisk sampleImage (Op.run (.mkdir (joinPath [nameG]) 0o755) (quietEnv 0) sampleImage).2.trace 2

def cutImage : Fs := ⟨Words.le32 (cutDisk 0).byte 4, cutDisk 1, cutDisk⟩

/-- The crash, and then the same `fs_mkdir` again. -/
theorem recovers_of_run_cutDisk : ∃ lifted,
    Trail (Along SystemStep Specified) (sampleImage, hierarchyOf sampleImage.disk) lifted ∧
    lifted.map forget =
      [(.crash (quietEnv 0) (.mkdir (joinPath [nameG]) 0o755), cutImage),
        (.request ⟨quietEnv 0, .mkdir (joinPath [nameG]) 0o755,
            (Op.run (.mkdir (joinPath [nameG]) 0o755) (quietEnv 0) cutImage).1⟩,
          (Op.run (.mkdir (joinPath [nameG]) 0o755) (quietEnv 0) cutImage).2.fs)] ∧
    ∀ state ∈ (sampleImage, hierarchyOf sampleImage.disk) :: lifted.map Prod.snd,
      ReportsTree state.1 state.2 (quietEnv 0) (joinPath [nameG]) := by
  have hmagic : Words.le32 (cutDisk 0).byte 0 = fsMagic := by decide +kernel
  have hcrash : SystemStep sampleImage (.crash (quietEnv 0) (.mkdir (joinPath [nameG]) 0o755)) cutImage :=
    .crash (treeStep_mkdirG _) (fun _ _ _ heq => by cases heq) 2 (fsInit_of_magic hmagic)
  obtain ⟨lifted, hlifted, hsame, hreports⟩ := recovers_of_run wellFormed_sampleImage measured_sampleImage
    diskSize_sampleImage mounted_sampleImage (.cons hcrash (.cons (.request (treeStep_mkdirG _)) (.nil _)))
  exact ⟨lifted, hlifted, hsame, fun state hstate =>
    hreports state hstate (quietEnv 0) (quiet_quietEnv 0) (roomy_quietEnv 0) _ plain_nameG.names plain_nameG.short⟩

end Fs5600
